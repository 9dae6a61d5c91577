import Cannelloni.Lib.Machine
import Mathlib.Logic.Function.Basic

/-!
# Stores

The plain meaning of a memory: a map from keys to values that reads and writes one key at a time.
`run_get` says that a key holds what was last written to it, or its initial value.
-/

namespace Store

/-- The accesses to a store. -/
inductive Op (κ β : Type*)
  | read (key : κ)
  | write (key : κ) (value : β)

variable {κ β : Type*}

/-- The key an access is about. -/
def Op.key : Op κ β → κ
  | .read key => key
  | .write key _ => key

variable [DecidableEq κ]

/-- A read is answered by the value of its key. -/
def step (m : κ → β) : Op κ β → Option β × (κ → β)
  | .read key => (some (m key), m)
  | .write key value => (none, Function.update m key value)

/-- The value of the last write to a key, if any. -/
def lastWrite : List (Op κ β) → κ → Option β
  | [], _ => none
  | .read _ :: os, k => lastWrite os k
  | .write key value :: os, k => (lastWrite os k).or (if k = key then some value else none)

/-- After a run a key holds what was last written to it, or its initial value. -/
theorem run_get (m : κ → β) (os : List (Op κ β)) (k : κ) :
    (Machine.run step m os).2 k = (lastWrite os k).getD (m k) := by
  induction os generalizing m with
  | nil => rfl
  | cons o os ih =>
    rw [Machine.run_cons_snd, ih]
    cases o with
    | read key => rfl
    | write key value =>
      show (lastWrite os k).getD (Function.update m key value k) = _
      rw [lastWrite]
      cases lastWrite os k with
      | some v => rfl
      | none =>
        by_cases hk : k = key
        · rw [if_pos hk, hk, Function.update_self]
          rfl
        · rw [if_neg hk, Function.update_of_ne hk]
          rfl

end Store
