import Cannelloni.Lwip.Timeouts

/-!
# Timeouts fire in order

The list of timeouts agrees with the schedule on a clock that does not wrap around, as long as the
main loop gets round in time: all times in the list are then within 2^30 ms of the present, and the
difference of two counters decides which of two of them is the earlier one.
-/

namespace Cannelloni

open TimerQueue

variable {φ α : Type}

/-! ## Comparing times -/

/-- `TIME_LESS_THAN` compares times that are less than half of the range apart. -/
theorem timeLessThan_ofNat {a b : ℕ} (h : a < b + 2 ^ 31) (h' : b ≤ a + 2 ^ 31) :
    TimeLessThan (UInt32.ofNat a) (UInt32.ofNat b) ↔ a < b := by
  unfold TimeLessThan
  rw [UInt32.lt_iff_toNat_lt, WrappingClock.toNat_sub_ofNat]
  show 2 ^ 31 - 1 < _ ↔ _
  rw [← WrappingClock.half_le_diff_iff h h']
  omega

/-- The loop of `sys_timeout_abs` puts the timeout in front of the first that is due later. -/
theorem TimeoutSystem.insertBehind_eq (timeout t : SysTimeo φ α) (rest : List (SysTimeo φ α)) :
    insertBehind timeout t rest
      = t :: rest.orderedInsert (fun t u => TimeLessThan t.time u.time) timeout := by
  induction rest generalizing t with
  | nil => rfl
  | cons u rest ih =>
    unfold insertBehind
    rw [List.orderedInsert_cons]
    by_cases h : TimeLessThan timeout.time u.time
    · rw [if_pos h, if_pos h]
    · rw [if_neg h, if_neg h, ih]

/-- What `sys_timeout_abs` does. -/
theorem TimeoutSystem.sysTimeoutAbs_eq (s : TimeoutSystem φ α) (absTime : UInt32)
    (callback : Callback φ α) :
    s.sysTimeoutAbs absTime callback = if s.free = 0 then .error .poolEmpty else
      .ok { s with
        nextTimeout := s.nextTimeout.orderedInsert (fun t u => TimeLessThan t.time u.time)
          ⟨absTime, callback⟩
        free := s.free - 1 } := by
  unfold sysTimeoutAbs
  split
  · rfl
  · split
    · next h => rw [h, List.orderedInsert_nil]
    · next t rest h =>
      rw [h, List.orderedInsert_cons, ← insertBehind_eq]

/-! ## The relation -/

/-- A timer as an element of the list. -/
def Schedule.view (t : Timer ℕ (Callback φ α)) : SysTimeo φ α := ⟨UInt32.ofNat t.due, t.what⟩

/-- The place of a call with the time at which it began as a reading of the counter. -/
def CheckPc.reading {ι : Type} : CheckPc ℕ ι → CheckPc UInt32 ι
  | .idle => .idle
  | .checking now => .checking (UInt32.ofNat now)
  | .handling now callback => .handling (UInt32.ofNat now) callback

/-- The state agrees with the schedule: its times are those of the schedule modulo 2^32. -/
structure TimeoutSystem.Denotes (s : TimeoutSystem φ α) (q : Schedule φ α) : Prop where
  list : s.nextTimeout = q.agenda.pending.map Schedule.view
  tick : s.tickMs = UInt32.ofNat q.agenda.now
  due : s.currentTimeoutDueTime = UInt32.ofNat q.due
  pc : s.pc = q.pc.reading
  expired : s.expired = q.agenda.fired.map Timer.what

/-- The schedule is sound, and everything in it is near the present. -/
structure Schedule.Near (q : Schedule φ α) : Prop where
  good : q.agenda.Good
  pending : ∀ t ∈ q.agenda.pending,
    t.due < q.agenda.now + 2 ^ 30 ∧ q.agenda.now ≤ t.due + 2 ^ 30
  call : ∀ now ∈ q.pc.began, now ≤ q.agenda.now ∧ q.agenda.now ≤ now + 2 ^ 30
  handling : ∀ now callback, q.pc = .handling now callback → q.due ≤ now ∧ now < q.due + 2 ^ 30
  known : ∀ t ∈ q.agenda.pending, ∀ c, t.what = .cyclic c → c.intervalMs ≤ maxMsecs
  knownHandling : ∀ now c, q.pc = .handling now (.cyclic c) → c.intervalMs ≤ maxMsecs

variable {s s' : TimeoutSystem φ α} {q : Schedule φ α}

/-! ## The operations -/

/-- `sys_timeout_abs` with a time that is near the present. -/
theorem TimeoutSystem.Denotes.sysTimeoutAbs (h : s.Denotes q) (hnear : q.Near) {due : ℕ}
    {callback : Callback φ α} (hdue : q.agenda.now ≤ due) (hle : due < q.agenda.now + 2 ^ 30)
    (hs : s.sysTimeoutAbs (UInt32.ofNat due) callback = .ok s') :
    s'.Denotes { q with agenda := q.agenda.add due callback } := by
  rw [TimeoutSystem.sysTimeoutAbs_eq] at hs
  split at hs
  · cases hs
  · cases hs
    refine ⟨?_, h.tick, h.due, h.pc, h.expired⟩
    show List.orderedInsert _ _ s.nextTimeout = List.map _ (List.orderedInsert _ _ _)
    rw [h.list, List.map_orderedInsert (fun t u : Timer ℕ (Callback φ α) => t.due < u.due)
      (fun t u : SysTimeo φ α => TimeLessThan t.time u.time)]
    · rfl
    · intro t ht
      rcases hnear.pending t ht with ⟨hlt, hge⟩
      have hiff : TimeLessThan (UInt32.ofNat t.due) (UInt32.ofNat due) ↔ t.due < due :=
        timeLessThan_ofNat (by omega) (by omega)
      exact hiff.symm
    · intro t ht
      rcases hnear.pending t ht with ⟨hlt, hge⟩
      have hiff : TimeLessThan (UInt32.ofNat due) (UInt32.ofNat t.due) ↔ due < t.due :=
        timeLessThan_ofNat (by omega) (by omega)
      exact hiff.symm

/-- Adding a timer that is due soon. -/
theorem Schedule.Near.add (h : q.Near) {due : ℕ} {callback : Callback φ α}
    (hdue : q.agenda.now ≤ due) (hle : due < q.agenda.now + 2 ^ 30)
    (hknown : ∀ c, callback = .cyclic c → c.intervalMs ≤ maxMsecs) :
    Near { q with agenda := q.agenda.add due callback } where
  good := h.good.add hdue callback
  pending := by
    intro t ht
    rcases (List.mem_orderedInsert _).mp ht with rfl | ht
    · exact ⟨hle, Nat.le_add_right_of_le hdue⟩
    · exact h.pending t ht
  call := h.call
  handling := h.handling
  known := by
    intro t ht c hc
    rcases (List.mem_orderedInsert _).mp ht with rfl | ht
    · exact hknown c hc
    · exact h.known t ht c hc
  knownHandling := h.knownHandling

/-- `sys_timeout`. -/
theorem TimeoutSystem.Denotes.sysTimeout (h : s.Denotes q) (hnear : q.Near) {msecs : UInt32}
    {callback : Callback φ α} (hs : s.sysTimeout msecs callback = .ok s') :
    msecs ≤ maxMsecs ∧
      s'.Denotes { q with agenda := q.agenda.add (q.agenda.now + msecs.toNat) callback } := by
  unfold TimeoutSystem.sysTimeout at hs
  split at hs
  · next hle =>
    have hnat : msecs.toNat ≤ 0x3fffffff := UInt32.le_iff_toNat_le.mp hle
    refine ⟨hle, h.sysTimeoutAbs hnear (by omega) (by omega) ?_⟩
    rw [UInt32.ofNat_add, UInt32.ofNat_toNat, ← h.tick]
    exact hs
  · cases hs

/-- `sys_untimeout`. -/
theorem TimeoutSystem.Denotes.sysUntimeout [DecidableEq φ] [DecidableEq α] (h : s.Denotes q)
    (callback : Callback φ α) : (s.sysUntimeout callback).Denotes
      { q with agenda := q.agenda.cancel fun c => c = callback } := by
  have hlist : s.nextTimeout.eraseP (fun t => t.callback = callback)
      = (q.agenda.pending.eraseP fun t => decide (t.what = callback)).map Schedule.view := by
    rw [h.list, List.eraseP_map]
    rfl
  unfold TimeoutSystem.sysUntimeout
  split
  · exact ⟨hlist, h.tick, h.due, h.pc, h.expired⟩
  · next hany =>
    -- nothing matches
    refine ⟨?_, h.tick, h.due, h.pc, h.expired⟩
    show s.nextTimeout = List.map _ (q.agenda.pending.eraseP fun t => decide (t.what = callback))
    rw [← hlist, List.eraseP_of_forall_not]
    intro t ht heq
    exact hany (List.any_eq_true.mpr ⟨t, ht, heq⟩)

/-- `lwip_cyclic_timer`: the next time is a whole interval after the last one, or after the present
if that is past. -/
theorem TimeoutSystem.Denotes.lwipCyclicTimer (h : s.Denotes q) (hnear : q.Near)
    {c : LwipCyclicTimer} (hc : c.intervalMs ≤ maxMsecs) (hdue : q.due ≤ q.agenda.now)
    (hlate : q.agenda.now < q.due + 2 ^ 31) (hs : s.lwipCyclicTimer c = .ok s') :
    s'.Denotes { q with agenda := q.agenda.add (q.next c) (.cyclic c) } := by
  have hnat : c.intervalMs.toNat ≤ 0x3fffffff := UInt32.le_iff_toNat_le.mp hc
  have hsum (n : ℕ) : UInt32.ofNat n + c.intervalMs = UInt32.ofNat (n + c.intervalMs.toNat) := by
    rw [UInt32.ofNat_add, UInt32.ofNat_toNat]
  have hiff : TimeLessThan (s.currentTimeoutDueTime + c.intervalMs) s.tickMs
      ↔ q.due + c.intervalMs.toNat < q.agenda.now := by
    rw [h.due, h.tick, hsum]
    exact timeLessThan_ofNat (by omega) (by omega)
  unfold TimeoutSystem.lwipCyclicTimer at hs
  unfold Schedule.next
  by_cases hpast : q.due + c.intervalMs.toNat < q.agenda.now
  · rw [if_pos hpast]
    rw [if_pos (hiff.mpr hpast), h.tick, hsum] at hs
    exact h.sysTimeoutAbs hnear (by omega) (by omega) hs
  · rw [if_neg hpast]
    rw [if_neg fun hlt => hpast (hiff.mp hlt), h.due, hsum] at hs
    exact h.sysTimeoutAbs hnear (by omega) (by omega) hs

/-- The next time of a cyclic timer is neither past nor far. -/
theorem Schedule.next_near (q : Schedule φ α) {c : LwipCyclicTimer} (hc : c.intervalMs ≤ maxMsecs)
    (hdue : q.due ≤ q.agenda.now) :
    q.agenda.now ≤ q.next c ∧ q.next c < q.agenda.now + 2 ^ 30 := by
  have hnat : c.intervalMs.toNat ≤ 0x3fffffff := UInt32.le_iff_toNat_le.mp hc
  unfold Schedule.next
  split
  · omega
  · omega

/-- A call of `sys_check_timeouts` goes on to its next pass. -/
theorem Schedule.Near.goOn (h : q.Near) {now : ℕ} (hle : now ≤ q.agenda.now)
    (hlate : q.agenda.now ≤ now + 2 ^ 30) : Near { q with pc := .checking now } where
  good := h.good
  pending := h.pending
  call := by
    rintro now' ⟨⟩
    exact ⟨hle, hlate⟩
  handling := by
    intro now' callback' hpc
    cases hpc
  known := h.known
  knownHandling := by
    intro now' c hpc
    cases hpc

/-- The call ends. -/
theorem Schedule.Near.endCall (h : q.Near) : Near { q with pc := .idle } where
  good := h.good
  pending := h.pending
  call := by
    rintro now' ⟨⟩
  handling := by
    intro now' callback' hpc
    cases hpc
  known := h.known
  knownHandling := by
    intro now' c hpc
    cases hpc

/-- The first timer is fired. -/
theorem Schedule.Near.fire (h : q.Near) (hpolled : q.Polled) {now : ℕ} (hpc : q.pc = .checking now)
    {t : Timer ℕ (Callback φ α)} {rest : List (Timer ℕ (Callback φ α))}
    (hpending : q.agenda.pending = t :: rest) (hdue : t.due ≤ now) :
    Near
      { agenda := q.agenda.fire
        due := t.due
        pc := if TimeoutSystem.calls t.what then .handling now t.what else .checking now } := by
  rcases h.call now (by rw [hpc]; rfl) with ⟨hle, hlate⟩
  have hmem : t ∈ q.agenda.pending := by
    rw [hpending]
    exact List.mem_cons_self
  have hrest : q.agenda.fire.pending = rest := by
    show q.agenda.pending.tail = rest
    rw [hpending, List.tail_cons]
  have hsub : ∀ u ∈ rest, u ∈ q.agenda.pending := by
    rw [hpending]
    exact fun u hu => List.mem_cons_of_mem t hu
  refine ⟨?_, ?_, ?_, ?_, ?_, ?_⟩
  · apply h.good.fire
    rw [hpending]
    intro u hu
    obtain rfl : t = u := Option.some.inj hu
    omega
  · rw [hrest]
    exact fun u hu => h.pending u (hsub u hu)
  · intro now' hbegan
    dsimp only at hbegan
    split at hbegan
    · cases hbegan
      exact ⟨hle, hlate⟩
    · cases hbegan
      exact ⟨hle, hlate⟩
  · intro now' callback hpc'
    dsimp only at hpc'
    split at hpc'
    · cases hpc'
      have hlt := hpolled.pending t hmem
      exact ⟨hdue, by show now < t.due + 2 ^ 30; omega⟩
    · cases hpc'
  · rw [hrest]
    exact fun u hu => h.known u (hsub u hu)
  · intro now' c hpc'
    dsimp only at hpc'
    split at hpc'
    · injection hpc' with _ hwhat
      exact h.known t hmem c hwhat
    · cases hpc'

/-! ## The start -/

/-- The list after `sys_timeouts_init`. -/
theorem TimeoutSystem.init_eq : (reset : TimeoutSystem φ α).sysTimeoutsInit = .ok
    ⟨[⟨100, .cyclic ⟨100, .mld6Tmr⟩⟩, ⟨1000, .cyclic ⟨1000, .nd6Tmr⟩⟩], 0, 6, 0, .idle, []⟩ := by
  have hnd6 : (reset : TimeoutSystem φ α).sysTimeout 1000 (.cyclic ⟨1000, .nd6Tmr⟩) = .ok
      ⟨[⟨1000, .cyclic ⟨1000, .nd6Tmr⟩⟩], 0, 7, 0, .idle, []⟩ := by
    unfold sysTimeout
    rw [if_pos (by decide)]
    rfl
  have hmld6 : (⟨[⟨1000, .cyclic ⟨1000, .nd6Tmr⟩⟩], 0, 7, 0, .idle, []⟩ :
      TimeoutSystem φ α).sysTimeout 100 (.cyclic ⟨100, .mld6Tmr⟩) = .ok
      ⟨[⟨100, .cyclic ⟨100, .mld6Tmr⟩⟩, ⟨1000, .cyclic ⟨1000, .nd6Tmr⟩⟩], 0, 6, 0, .idle, []⟩ := by
    unfold sysTimeout
    rw [if_pos (by decide)]
    unfold sysTimeoutAbs
    rw [if_neg (by simp)]
    simp only
    rw [if_pos (by decide)]
    rfl
  unfold sysTimeoutsInit lwipCyclicTimers
  rw [List.foldlM_cons, hnd6]
  exact hmld6

theorem Schedule.start_eq : (start : Schedule φ α) =
    ⟨⟨0, [⟨100, 1, .cyclic ⟨100, .mld6Tmr⟩⟩, ⟨1000, 0, .cyclic ⟨1000, .nd6Tmr⟩⟩], [], [], 2⟩, 0,
      .idle⟩ := rfl

theorem Schedule.near_start : (start : Schedule φ α).Near := by
  have hempty : (Agenda.empty 0 : Agenda ℕ (Callback φ α)).Good := Agenda.good_empty 0
  have hnd6 := hempty.add (Nat.zero_le 1000) (.cyclic ⟨1000, .nd6Tmr⟩)
  have hgood := hnd6.add (Nat.zero_le 100) (.cyclic ⟨100, .mld6Tmr⟩)
  refine ⟨hgood, ?_, ?_, ?_, ?_, ?_⟩
  · rw [start_eq]
    simp
  · rintro now ⟨⟩
  · rintro now callback ⟨⟩
  · rw [start_eq]
    intro t ht c hc
    rcases List.mem_pair.mp ht with rfl | rfl
    · cases hc
      decide
    · cases hc
      decide
  · rintro now c ⟨⟩

/-! ## A step -/

section Step

variable [DecidableEq φ] [DecidableEq α]

/-- What a pass of the loop does: it ends if the first timer is due later than the call began, else
the timer is fired. -/
theorem Schedule.poll_cases {now : ℕ} (hpc : q.pc = .checking now) :
    (q.step .poll = { q with pc := .idle } ∧ ∀ t ∈ q.agenda.pending.head?, now < t.due) ∨
      ∃ t rest, q.agenda.pending = t :: rest ∧ t.due ≤ now ∧ q.step .poll =
        { agenda := q.agenda.fire
          due := t.due
          pc := if TimeoutSystem.calls t.what then .handling now t.what else .checking now } := by
  simp only [Schedule.step, hpc]
  cases hpending : q.agenda.pending with
  | nil =>
    left
    exact ⟨rfl, by simp⟩
  | cons t rest =>
    simp only
    by_cases hfuture : now < t.due
    · left
      rw [if_pos hfuture]
      exact ⟨rfl, by simpa using hfuture⟩
    · right
      rw [if_neg hfuture]
      exact ⟨t, rest, rfl, not_lt.mp hfuture, rfl⟩

/-- A pass of the loop of `sys_check_timeouts`. -/
theorem TimeoutSystem.Denotes.poll (h : s.Denotes q) (hnear : q.Near) {now : ℕ}
    (hpc : q.pc = .checking now) : (s.poll (UInt32.ofNat now)).Denotes (q.step .poll) := by
  rcases hnear.call now (by rw [hpc]; rfl) with ⟨hle, hlate⟩
  have hlist := h.list
  have hiff : ∀ t ∈ q.agenda.pending,
      (TimeLessThan (UInt32.ofNat now) (Schedule.view t).time ↔ now < t.due) := by
    intro t ht
    rcases hnear.pending t ht with ⟨hlt, hge⟩
    exact timeLessThan_ofNat (by omega) (by omega)
  rcases Schedule.poll_cases hpc with ⟨hq, hfuture⟩ | ⟨t, rest, hpending, hdue, hq⟩
  · have hs : s.poll (UInt32.ofNat now) = { s with pc := .idle } := by
      unfold TimeoutSystem.poll
      split
      · rfl
      · next u us hu =>
        rw [if_pos]
        rw [hu] at hlist
        cases hpending : q.agenda.pending with
        | nil => simp [hpending] at hlist
        | cons t rest =>
          rw [hpending, List.map_cons] at hlist
          obtain ⟨rfl, -⟩ := List.cons.inj hlist
          exact (hiff t (by rw [hpending]; exact List.mem_cons_self)).mpr
            (hfuture t (by rw [hpending]; rfl))
    rw [hs, hq]
    exact ⟨h.list, h.tick, h.due, rfl, h.expired⟩
  · rw [hpending, List.map_cons] at hlist
    have hmem : t ∈ q.agenda.pending := by
      rw [hpending]
      exact List.mem_cons_self
    have hs : s.poll (UInt32.ofNat now) =
        { s with
          nextTimeout := rest.map Schedule.view
          currentTimeoutDueTime := UInt32.ofNat t.due
          free := s.free + 1
          pc := if TimeoutSystem.calls t.what then .handling (UInt32.ofNat now) t.what
            else .checking (UInt32.ofNat now)
          expired := s.expired ++ [t.what] } := by
      unfold TimeoutSystem.poll
      rw [hlist]
      simp only
      rw [if_neg fun hlt => absurd ((hiff t hmem).mp hlt) (not_lt.mpr hdue)]
      rfl
    rw [hs, hq]
    refine ⟨?_, h.tick, rfl, ?_, ?_⟩
    · show List.map _ rest = List.map _ q.agenda.pending.tail
      rw [hpending, List.tail_cons]
    · show (if TimeoutSystem.calls t.what then _ else _) = CheckPc.reading (ite _ _ _)
      split
      · rfl
      · rfl
    · show s.expired ++ [t.what] = List.map _ (q.agenda.fired ++ q.agenda.pending.head?.toList)
      rw [h.expired, hpending, List.head?_cons, Option.toList_some, List.map_append,
        List.map_singleton]

/-- The end of a handler, while the main loop gets round in time. -/
theorem TimeoutSystem.Denotes.handled (h : s.Denotes q) (hnear : q.Near) {now : ℕ}
    {callback : Callback φ α} (hpc : q.pc = .handling now callback)
    (hs : s.handled (UInt32.ofNat now) callback = .ok s') : s'.Denotes (q.step .handled) := by
  rcases hnear.call now (by rw [hpc]; rfl) with ⟨hle, hlate⟩
  rcases hnear.handling now callback hpc with ⟨hdue, hfired⟩
  have hdenotes : TimeoutSystem.Denotes { s with pc := .checking (UInt32.ofNat now) }
      { q with pc := .checking now } := ⟨h.list, h.tick, h.due, rfl, h.expired⟩
  have hchecking := hnear.goOn hle hlate
  cases callback with
  | user f arg =>
    cases hs
    simp only [Schedule.step, hpc]
    exact hdenotes
  | cyclic c =>
    have hknown := hnear.knownHandling now c hpc
    simp only [Schedule.step, hpc]
    exact hdenotes.lwipCyclicTimer hchecking hknown (by show q.due ≤ q.agenda.now; omega)
      (by show q.agenda.now < q.due + 2 ^ 31; omega) hs

/-- The state goes on agreeing with the schedule. -/
theorem TimeoutSystem.Denotes.step (h : s.Denotes q) (hnear : q.Near) {e : TimeoutEvent φ α}
    (hs : s.step e = .ok s') : s'.Denotes (q.step e) := by
  have hpc := h.pc
  cases e with
  | tick =>
    cases hs
    refine ⟨h.list, ?_, h.due, h.pc, h.expired⟩
    show s.tickMs + 1 = UInt32.ofNat (q.agenda.now + 1)
    rw [h.tick, UInt32.ofNat_add]
    rfl
  | timeout msecs f arg => exact (h.sysTimeout hnear hs).2
  | untimeout f arg =>
    cases hs
    exact h.sysUntimeout (.user f arg)
  | check =>
    cases hq : q.pc <;> rw [hq] at hpc <;>
      simp only [TimeoutSystem.step, hpc, CheckPc.reading] at hs <;>
      simp only [Schedule.step, hq] <;> cases hs
    · refine ⟨h.list, h.tick, h.due, ?_, h.expired⟩
      show CheckPc.checking s.tickMs = CheckPc.checking _
      rw [h.tick]
    · exact h
    · exact h
  | poll =>
    cases hq : q.pc with
    | checking now =>
      rw [hq] at hpc
      simp only [TimeoutSystem.step, hpc, CheckPc.reading] at hs
      cases hs
      exact h.poll hnear hq
    | _ =>
      rw [hq] at hpc
      simp only [TimeoutSystem.step, hpc, CheckPc.reading] at hs
      simp only [Schedule.step, hq]
      cases hs
      exact h
  | handled =>
    cases hq : q.pc with
    | handling now callback =>
      rw [hq] at hpc
      simp only [TimeoutSystem.step, hpc, CheckPc.reading] at hs
      exact h.handled hnear hq hs
    | _ =>
      rw [hq] at hpc
      simp only [TimeoutSystem.step, hpc, CheckPc.reading] at hs
      simp only [Schedule.step, hq]
      cases hs
      exact h

/-- While the main loop gets round in time, everything stays near. -/
theorem Schedule.Near.step (h : q.Near) (hpolled : q.Polled) (e : TimeoutEvent φ α)
    (hmsecs : ∀ msecs f arg, e = .timeout msecs f arg → msecs ≤ maxMsecs) : (q.step e).Near := by
  cases e with
  | tick =>
    refine ⟨h.good.advance (Nat.le_succ _), ?_, ?_, h.handling, h.known, h.knownHandling⟩
    · intro t ht
      have hlt := (h.pending t ht).1
      have hin := hpolled.pending t ht
      exact ⟨by show _ < q.agenda.now + 1 + 2 ^ 30; omega, by show q.agenda.now + 1 ≤ _; omega⟩
    · intro now hbegan
      have hle := (h.call now hbegan).1
      have hin := hpolled.call now hbegan
      exact ⟨by show _ ≤ q.agenda.now + 1; omega, by show q.agenda.now + 1 ≤ _; omega⟩
  | timeout msecs f arg =>
    have hnat : msecs.toNat ≤ 0x3fffffff :=
      UInt32.le_iff_toNat_le.mp (hmsecs msecs f arg rfl)
    exact h.add (by omega) (by omega) (by simp)
  | untimeout f arg =>
    have hsub : ∀ t ∈ (q.agenda.cancel fun c => c = .user f arg).pending,
        t ∈ q.agenda.pending := fun t ht => List.mem_of_mem_eraseP ht
    exact ⟨h.good.cancel fun c => decide (c = .user f arg), fun t ht => h.pending t (hsub t ht), h.call, h.handling,
      fun t ht => h.known t (hsub t ht), h.knownHandling⟩
  | check =>
    cases hq : q.pc <;> simp only [Schedule.step, hq]
    · exact h.goOn le_rfl (by omega)
    · exact h
    · exact h
  | poll =>
    cases hq : q.pc with
    | checking now =>
      rcases Schedule.poll_cases hq with ⟨hstep, -⟩ | ⟨t, rest, hpending, hdue, hstep⟩
      · rw [hstep]
        exact h.endCall
      · rw [hstep]
        exact h.fire hpolled hq hpending hdue
    | _ =>
      simp only [Schedule.step, hq]
      exact h
  | handled =>
    cases hq : q.pc with
    | handling now callback =>
      rcases h.call now (by rw [hq]; rfl) with ⟨hle, hlate⟩
      rcases h.handling now callback hq with ⟨hdue, hfired⟩
      cases callback with
      | user f arg =>
        simp only [Schedule.step, hq]
        exact h.goOn hle hlate
      | cyclic c =>
        simp only [Schedule.step, hq]
        have hknown := h.knownHandling now c hq
        rcases q.next_near hknown (by omega) with ⟨hge, hlt⟩
        refine (h.goOn hle hlate).add hge hlt ?_
        rintro c' hc'
        cases hc'
        exact hknown
    | _ =>
      simp only [Schedule.step, hq]
      exact h

/-! ## Runs -/

theorem Schedule.run_append (events : List (TimeoutEvent φ α)) (e : TimeoutEvent φ α) :
    run (events ++ [e]) = (run events).step e := by
  unfold run
  rw [List.foldl_append]
  rfl

/-- The state agrees with the schedule after every run. -/
theorem TimeoutSystem.denotes_run {events : List (TimeoutEvent φ α)} (hrun : run events = .ok s)
    (hpolled : ∀ past, past <+: events → (Schedule.run past).Polled) :
    s.Denotes (Schedule.run events) ∧ (Schedule.run events).Near := by
  unfold run at hrun
  rw [init_eq] at hrun
  change Run.exec step _ events = .ok s at hrun
  induction events using List.reverseRecOn generalizing s with
  | nil =>
    cases hrun
    exact ⟨⟨rfl, rfl, rfl, rfl, rfl⟩, Schedule.near_start⟩
  | append_singleton events e ih =>
    rw [Run.exec_append] at hrun
    obtain ⟨t, ht, hstep⟩ := Run.bind_eq_ok.mp hrun
    obtain ⟨s', hs', hnil⟩ := Run.bind_eq_ok.mp hstep
    cases hnil
    rcases ih (fun past hpast => hpolled past (hpast.trans (List.prefix_append _ _))) ht with
      ⟨hdenotes, hnear⟩
    rw [Schedule.run_append]
    refine ⟨hdenotes.step hnear hs', ?_⟩
    apply hnear.step (hpolled events (List.prefix_append _ _))
    rintro msecs f arg rfl
    exact (hdenotes.sysTimeout hnear hs').1

end Step

/-- Timeouts fire in order: as long as the main loop gets round in time, the list is that of the
schedule and the handlers called are those of the timers fired there, although the counter wraps
around. There no timer is fired before it is due, timers are fired in the order in which they are
due, and each is fired, cancelled or still to come, once. When a call of `sys_check_timeouts` ends,
no timer is left that was due when it began. -/
theorem timeouts_in_order [DecidableEq φ] [DecidableEq α] {events : List (TimeoutEvent φ α)}
    (hrun : TimeoutSystem.run events = .ok s)
    (hpolled : ∀ past, past <+: events → (Schedule.run past).Polled) :
    let q := Schedule.run events
    s.Denotes q ∧ q.agenda.Good ∧
      ∀ now, q.pc = .checking now → (q.step .poll).pc = .idle →
        ∀ t ∈ (q.step .poll).agenda.pending, now < t.due := by
  intro q
  rcases TimeoutSystem.denotes_run hrun hpolled with ⟨hdenotes, hnear⟩
  refine ⟨hdenotes, hnear.good, ?_⟩
  intro now hpc hidle t ht
  rcases Schedule.poll_cases hpc with ⟨hstep, hfuture⟩ | ⟨u, rest, -, -, hstep⟩
  · rw [hstep] at ht
    -- the list is sorted, and its first timer is due later
    have hsorted := hnear.good.sorted
    change t ∈ q.agenda.pending at ht
    change List.Pairwise _ q.agenda.pending at hsorted
    cases hpending : q.agenda.pending with
    | nil =>
      rw [hpending] at ht
      cases ht
    | cons u rest =>
      rw [hpending] at hfuture hsorted ht
      have hu : now < u.due := hfuture u rfl
      rcases List.mem_cons.mp ht with rfl | ht
      · exact hu
      · exact hu.trans_le ((List.pairwise_cons.mp hsorted).1 t ht)
  · rw [hstep] at hidle
    dsimp only at hidle
    split at hidle
    · cases hidle
    · cases hidle

/-- A timeout of a user is fired, another one is cancelled. -/
theorem timeouts_in_order_one :
    let events : List (TimeoutEvent ℕ ℕ) := [.timeout 1 (some 7) 0, .timeout 1 (some 8) 0,
      .untimeout (some 8) 0, .tick, .check, .poll, .handled]
    let q := Schedule.run events
    q.agenda.Good ∧ q.agenda.fired.map Timer.what = [.user (some 7) 0] ∧
      ∀ t ∈ (q.step .poll).agenda.pending, 1 < t.due := by
  intro events q
  have hrun : TimeoutSystem.run events = .ok
      ⟨[⟨100, .cyclic ⟨100, .mld6Tmr⟩⟩, ⟨1000, .cyclic ⟨1000, .nd6Tmr⟩⟩], 1, 6, 1, .checking 1,
        [.user (some 7) 0]⟩ := by
    decide +kernel
  have hpolled : ∀ past ∈ events.inits, (Schedule.run past).Polled := by decide +kernel
  have h := timeouts_in_order hrun fun past hpast => hpolled past ((List.mem_inits _ _).mpr hpast)
  exact ⟨h.2.1, by decide +kernel, h.2.2 1 (by decide +kernel) (by decide +kernel)⟩

end Cannelloni
