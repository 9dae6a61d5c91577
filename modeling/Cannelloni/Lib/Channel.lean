import Mathlib.Data.List.Sublists

/-!
# Channels that may lose messages

A channel keeps the messages that are under way in the order they were sent in. It may lose any
of them, but neither reorders nor duplicates. It remembers what was sent to it and what arrived,
and carries the proof of what these have to do with each other: what arrived, followed by what
is under way, is what was sent, with some messages left out, and with none left out as long as
nothing was lost.
-/

/-- A channel with its history. -/
structure Channel (α : Type*) where
  inFlight : List α
  sent : List α
  arrived : List α
  lost : ℕ
  sublist : (arrived ++ inFlight).Sublist sent
  exact : lost = 0 → arrived ++ inFlight = sent

namespace Channel

variable {α : Type*}

/-- A channel to which nothing was sent. -/
def empty : Channel α := ⟨[], [], [], 0, List.Sublist.refl _, fun _ => rfl⟩

/-- Hand messages to the channel. -/
def send (c : Channel α) (xs : List α) : Channel α where
  inFlight := c.inFlight ++ xs
  sent := c.sent ++ xs
  arrived := c.arrived
  lost := c.lost
  sublist := by
    rw [← List.append_assoc]
    exact c.sublist.append (List.Sublist.refl xs)
  exact := by
    intro h
    rw [← List.append_assoc, c.exact h]

/-- The channel loses the message at position `i`, if there is one. -/
def lose (c : Channel α) (i : ℕ) : Channel α where
  inFlight := c.inFlight.eraseIdx i
  sent := c.sent
  arrived := c.arrived
  lost := c.lost + 1
  sublist := ((List.Sublist.refl c.arrived).append (List.eraseIdx_sublist _ _)).trans c.sublist
  exact := fun h => absurd h (Nat.succ_ne_zero _)

/-- The oldest message arrives. -/
def deliver (c : Channel α) (x : α) (rest : List α) (h : c.inFlight = x :: rest) : Channel α where
  inFlight := rest
  sent := c.sent
  arrived := c.arrived ++ [x]
  lost := c.lost
  sublist := by
    rw [List.append_assoc, List.singleton_append, ← h]
    exact c.sublist
  exact := by
    intro hlost
    rw [List.append_assoc, List.singleton_append, ← h]
    exact c.exact hlost

@[simp] theorem inFlight_empty : (empty : Channel α).inFlight = [] := rfl

@[simp] theorem sent_empty : (empty : Channel α).sent = [] := rfl

@[simp] theorem arrived_empty : (empty : Channel α).arrived = [] := rfl

@[simp] theorem inFlight_send (c : Channel α) (xs : List α) :
    (c.send xs).inFlight = c.inFlight ++ xs := rfl

@[simp] theorem sent_send (c : Channel α) (xs : List α) : (c.send xs).sent = c.sent ++ xs := rfl

@[simp] theorem arrived_send (c : Channel α) (xs : List α) : (c.send xs).arrived = c.arrived := rfl

@[simp] theorem sent_lose (c : Channel α) (i : ℕ) : (c.lose i).sent = c.sent := rfl

@[simp] theorem arrived_lose (c : Channel α) (i : ℕ) : (c.lose i).arrived = c.arrived := rfl

section Deliver

variable (c : Channel α) {x : α} {rest : List α} (h : c.inFlight = x :: rest)

@[simp] theorem inFlight_deliver : (c.deliver x rest h).inFlight = rest := rfl

@[simp] theorem sent_deliver : (c.deliver x rest h).sent = c.sent := rfl

@[simp] theorem arrived_deliver : (c.deliver x rest h).arrived = c.arrived ++ [x] := rfl

end Deliver

/-- What arrives was sent. -/
theorem arrived_sublist (c : Channel α) : c.arrived.Sublist c.sent :=
  (List.sublist_append_left c.arrived c.inFlight).trans c.sublist

/-- What is under way was sent. -/
theorem mem_sent_of_mem_inFlight (c : Channel α) {x : α} (h : x ∈ c.inFlight) : x ∈ c.sent :=
  c.sublist.subset (List.mem_append_right _ h)

end Channel
