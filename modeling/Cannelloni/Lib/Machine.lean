import Mathlib.Data.List.Basic
import Mathlib.Tactic.Common

/-!
# Machines that answer, and simulation between them

A machine is a function `σ → ω → α × σ`: an operation takes its state to an answer and a next
state. `run` feeds it a list of operations and keeps what was answered to each. One machine
simulates another when related states give answers that look the same and stay related; then
whole runs look the same (`run_simulates`).
-/

namespace Machine

variable {σ τ ω α β : Type*}

/-- Feed a list of operations to a machine: each operation with its answer, and the last state. -/
def run (step : σ → ω → α × σ) : σ → List ω → List (ω × α) × σ
  | s, [] => ([], s)
  | s, o :: os => ((o, (step s o).1) :: (run step (step s o).2 os).1, (run step (step s o).2 os).2)

variable {step : σ → ω → α × σ} {step' : τ → ω → β × τ}

@[simp] theorem run_nil (s : σ) : run step s [] = ([], s) := rfl

@[simp] theorem run_cons_fst (s : σ) (o : ω) (os : List ω) :
    (run step s (o :: os)).1 = (o, (step s o).1) :: (run step (step s o).2 os).1 := rfl

@[simp] theorem run_cons_snd (s : σ) (o : ω) (os : List ω) :
    (run step s (o :: os)).2 = (run step (step s o).2 os).2 := rfl

/-- The rule for simulation: operations from related states give answers that look the same and
lead to related states, hence so do runs. -/
theorem run_simulates {R : σ → τ → Prop} {Ok : ω → Prop} {view : α → β}
    (hstep : ∀ s t o, R s t → Ok o →
      view (step s o).1 = (step' t o).1 ∧ R (step s o).2 (step' t o).2)
    {s : σ} {t : τ} {os : List ω} (hR : R s t) (hok : ∀ o ∈ os, Ok o) :
    (run step s os).1.map (Prod.map id view) = (run step' t os).1
      ∧ R (run step s os).2 (run step' t os).2 := by
  induction os generalizing s t with
  | nil => exact ⟨rfl, hR⟩
  | cons o os ih =>
    rcases hstep s t o hR (hok o List.mem_cons_self) with ⟨hview, hnext⟩
    rcases ih hnext fun o' ho' => hok o' (List.mem_cons_of_mem o ho') with ⟨hrest, hlast⟩
    constructor
    · rw [run_cons_fst, run_cons_fst, List.map_cons, hrest, Prod.map_apply, hview, id]
    · exact hlast

end Machine
