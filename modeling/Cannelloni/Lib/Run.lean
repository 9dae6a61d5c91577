import Mathlib.Data.List.Basic
import Mathlib.Data.List.Infix
import Mathlib.Tactic.Common

/-!
# Runs of a step function, and attempts that may be refused

A system is a step function `σ → ε → Except φ σ`: it takes a state and an event to the next
state, or stops with a fault. `exec` feeds it a list of events. `Along` says that every event
of a run meets a condition in the state in which it happens, and `exec_of_along` is the
induction every whole-run result goes through: a step that meets the condition neither faults
nor breaks the invariant, hence neither does the run.

The second half is about a sender that offers values to a receiver which may refuse: the
log of its attempts, the values that got through, and what it means that every attempt
offers the value that is due.
-/

namespace Run

universe w

variable {σ ε φ : Type*}

/-! ## Runs -/

/-- Feed a list of events to a step function. -/
def exec (step : σ → ε → Except φ σ) : σ → List ε → Except φ σ
  | s, [] => .ok s
  | s, e :: es => step s e >>= fun s' => exec step s' es

/-- Every event of the run meets `cond` in the state in which it happens. -/
def Along (step : σ → ε → Except φ σ) (cond : σ → ε → Prop) : σ → List ε → Prop
  | _, [] => True
  | s, e :: es => cond s e ∧
    match step s e with
    | .ok s' => Along step cond s' es
    | .error _ => True

/-- Whether a run meets a decidable condition can be decided by running it. -/
def decidableAlong (step : σ → ε → Except φ σ) (cond : σ → ε → Prop)
    [∀ s e, Decidable (cond s e)] : ∀ (s : σ) (es : List ε), Decidable (Along step cond s es)
  | _, [] => .isTrue trivial
  | s, e :: es =>
    haveI : Decidable (match step s e with
        | .ok s' => Along step cond s' es
        | .error _ => True) :=
      match step s e with
      | .ok s' => decidableAlong step cond s' es
      | .error _ => .isTrue trivial
    inferInstanceAs (Decidable (_ ∧ _))

instance (step : σ → ε → Except φ σ) (cond : σ → ε → Prop) [∀ s e, Decidable (cond s e)]
    (s : σ) (es : List ε) : Decidable (Along step cond s es) := decidableAlong step cond s es

variable {step : σ → ε → Except φ σ} {cond : σ → ε → Prop} {Inv : σ → Prop}

/-- A computation in two parts succeeds when both do. -/
theorem bind_eq_ok {α β : Type w} {x : Except φ α} {f : α → Except φ β} {b : β} :
    x >>= f = .ok b ↔ ∃ a, x = .ok a ∧ f a = .ok b := by
  cases x with
  | error e => simp [bind, Except.bind]
  | ok a => simp [bind, Except.bind]

/-- A loop that comes to an entry on which every pass fails does not get through. -/
theorem foldlM_error {α : Type*} {σ : Type w} {f : σ → α → Except φ σ} {l : List α} {a : α}
    (ha : a ∈ l) (h : ∀ s, ∃ e, f s a = .error e) (s : σ) : ∃ e, l.foldlM f s = .error e := by
  induction l generalizing s with
  | nil => simp at ha
  | cons b l ih =>
    rw [List.foldlM_cons]
    rcases hb : f s b with e | s'
    · exact ⟨e, rfl⟩
    · rcases List.mem_cons.mp ha with rfl | hmem
      · rcases h s with ⟨e, he⟩
        rw [hb] at he
        cases he
      · exact ih hmem s'

@[simp] theorem exec_nil (s : σ) : exec step s [] = .ok s := rfl

theorem exec_cons_ok {s s' : σ} {e : ε} (h : step s e = .ok s') (es : List ε) :
    exec step s (e :: es) = exec step s' es := by
  simp only [exec, h]
  rfl

theorem exec_append (s : σ) (es es' : List ε) :
    exec step s (es ++ es') = exec step s es >>= fun s' => exec step s' es' := by
  induction es generalizing s with
  | nil => rfl
  | cons e es ih =>
    cases hs : step s e with
    | error x => simp [exec, hs, bind, Except.bind]
    | ok s' =>
      rw [List.cons_append, exec_cons_ok hs, exec_cons_ok hs]
      exact ih s'

/-- A condition on the events alone holds along every run. -/
theorem along_of_forall {P : ε → Prop} {es : List ε} (h : ∀ e ∈ es, P e) (s : σ) :
    Along step (fun _ e => P e) s es := by
  induction es generalizing s with
  | nil => trivial
  | cons e es ih =>
    refine ⟨h e List.mem_cons_self, ?_⟩
    have htail : ∀ e' ∈ es, P e' := fun e' he' => h e' (List.mem_cons_of_mem e he')
    split
    · next s' _ => exact ih htail s'
    · trivial

theorem Along.and {cond' : σ → ε → Prop} {s : σ} {es : List ε} (h : Along step cond s es)
    (h' : Along step cond' s es) : Along step (fun s e => cond s e ∧ cond' s e) s es := by
  induction es generalizing s with
  | nil => trivial
  | cons e es ih =>
    obtain ⟨hc, hrest⟩ := h
    obtain ⟨hc', hrest'⟩ := h'
    refine ⟨⟨hc, hc'⟩, ?_⟩
    cases hs : step s e with
    | error _ => trivial
    | ok s' =>
      rw [hs] at hrest hrest'
      exact ih hrest hrest'

/-- Steps that meet the condition do not fault and keep the invariant, hence so does a run
all of whose steps meet it. -/
theorem exec_of_along (hstep : ∀ s e, Inv s → cond s e → ∃ s', step s e = .ok s' ∧ Inv s')
    {s : σ} {es : List ε} (hinv : Inv s) (hal : Along step cond s es) :
    ∃ s', exec step s es = .ok s' ∧ Inv s' := by
  induction es generalizing s with
  | nil => exact ⟨s, rfl, hinv⟩
  | cons e es ih =>
    obtain ⟨hcond, hrest⟩ := hal
    obtain ⟨s', hs', hinv'⟩ := hstep s e hinv hcond
    rw [hs'] at hrest
    rw [exec_cons_ok hs']
    exact ih hinv' hrest

/-- If moreover every step appends to a log what its event stands for, the run has appended what
its events stand for. -/
theorem exec_log_of_along {β : Type*} {log : σ → List β} {out : ε → List β}
    (hstep : ∀ s e, Inv s → cond s e →
      ∃ s', step s e = .ok s' ∧ Inv s' ∧ log s' = log s ++ out e)
    {s : σ} {es : List ε} (hinv : Inv s) (hal : Along step cond s es) :
    ∃ s', exec step s es = .ok s' ∧ Inv s' ∧ log s' = log s ++ es.flatMap out := by
  induction es generalizing s with
  | nil => exact ⟨s, rfl, hinv, by simp⟩
  | cons e es ih =>
    obtain ⟨hcond, hrest⟩ := hal
    obtain ⟨t, ht, hinv', hlog⟩ := hstep s e hinv hcond
    rw [ht] at hrest
    obtain ⟨s', hs', hinv'', hlog'⟩ := ih hinv' hrest
    refine ⟨s', ?_, hinv'', ?_⟩
    · rw [exec_cons_ok ht]
      exact hs'
    · rw [hlog', hlog, List.flatMap_cons, List.append_assoc]

/-- Steps that meet the condition and do not fault keep the invariant, hence so does a run all
of whose steps meet it, as far as it gets. -/
theorem inv_of_exec (hstep : ∀ s e s', Inv s → cond s e → step s e = .ok s' → Inv s')
    {s s' : σ} {es : List ε} (hinv : Inv s) (hal : Along step cond s es)
    (hexec : exec step s es = .ok s') : Inv s' := by
  induction es generalizing s with
  | nil =>
    obtain rfl : s = s' := by simpa [exec] using hexec
    exact hinv
  | cons e es ih =>
    obtain ⟨hcond, hrest⟩ := hal
    obtain ⟨t, ht, hexec'⟩ := bind_eq_ok.mp hexec
    rw [ht] at hrest
    exact ih (hstep s e t hinv hcond ht) hrest hexec'

/-- A condition that holds along a run holds along the first part of it. -/
theorem Along.take {s : σ} {es : List ε} (h : Along step cond s es) (k : ℕ) :
    Along step cond s (es.take k) := by
  induction es generalizing s k with
  | nil => simpa using h
  | cons e es ih =>
    cases k with
    | zero => trivial
    | succ k =>
      obtain ⟨hc, hrest⟩ := h
      rw [List.take_succ_cons]
      refine ⟨hc, ?_⟩
      cases hs : step s e with
      | error _ => trivial
      | ok s' =>
        rw [hs] at hrest
        exact ih hrest k

/-- A property holds in every state a run reaches, without a fault on the way, exactly when
it holds at the start and every step leads on to a state with the property. -/
theorem forall_exec_take_iff {P : σ → Prop} {s : σ} {es : List ε} :
    (∀ k, ∃ s', exec step s (es.take k) = .ok s' ∧ P s') ↔
      P s ∧ Along step (fun s e => ∃ s', step s e = .ok s' ∧ P s') s es := by
  induction es generalizing s with
  | nil =>
    constructor
    · intro h
      obtain ⟨s', hs', hP⟩ := h 0
      obtain rfl : s = s' := by simpa [exec] using hs'
      exact ⟨hP, trivial⟩
    · intro h k
      rcases h with ⟨hP, -⟩
      exact ⟨s, by simp, hP⟩
  | cons e es ih =>
    constructor
    · intro h
      obtain ⟨s₀, hs₀, hP₀⟩ := h 0
      obtain rfl : s = s₀ := by simpa [exec] using hs₀
      obtain ⟨s', hs', hP'⟩ := h 1
      have hstep : step s e = .ok s' := by
        cases hcase : step s e with
        | error x => simp [exec, hcase, bind, Except.bind] at hs'
        | ok t => simpa [exec, hcase, bind, Except.bind] using hs'
      refine ⟨hP₀, ⟨s', hstep, hP'⟩, ?_⟩
      rw [hstep]
      refine (ih.mp fun k => ?_).2
      obtain ⟨t, ht, hPt⟩ := h (k + 1)
      rw [List.take_succ_cons, exec_cons_ok hstep] at ht
      exact ⟨t, ht, hPt⟩
    · intro h k
      rcases h with ⟨hP, ⟨s', hstep, hP'⟩, hrest⟩
      rw [hstep] at hrest
      cases k with
      | zero => exact ⟨s, rfl, hP⟩
      | succ k =>
        rw [List.take_succ_cons, exec_cons_ok hstep]
        exact ih.mpr ⟨hP', hrest⟩ k

/-- A condition that an invariant turns into another one. -/
theorem Along.imp {cond' : σ → ε → Prop} (hcond : ∀ s e, Inv s → cond s e → cond' s e)
    (hinv : ∀ s e s', Inv s → cond s e → step s e = .ok s' → Inv s') {s : σ} {es : List ε}
    (h : Inv s) (hal : Along step cond s es) : Along step cond' s es := by
  induction es generalizing s with
  | nil => trivial
  | cons e es ih =>
    obtain ⟨hc, hrest⟩ := hal
    refine ⟨hcond s e h hc, ?_⟩
    cases hs : step s e with
    | error _ => trivial
    | ok s' =>
      rw [hs] at hrest
      exact ih (hinv s e s' h hc hs) hrest

/-- Two conditions that agree wherever an invariant holds hold along the same runs. -/
theorem along_congr {cond' : σ → ε → Prop}
    (hcond : ∀ s e, Inv s → (cond s e ↔ cond' s e))
    (hinv : ∀ s e s', Inv s → cond s e → step s e = .ok s' → Inv s') {s : σ} {es : List ε}
    (h : Inv s) : Along step cond s es ↔ Along step cond' s es := by
  induction es generalizing s with
  | nil => exact Iff.rfl
  | cons e es ih =>
    unfold Along
    rw [hcond s e h]
    apply and_congr_right
    intro hc
    cases hs : step s e with
    | error _ => exact Iff.rfl
    | ok s' => exact ih (hinv s e s' h ((hcond s e h).mpr hc) hs)

/-! ## Runs in smaller steps -/

/-- The rule for a system that does in several steps what another one does in one: every step is
matched by some steps of the other system, possibly none, that show the same; hence so is a run. -/
theorem exec_simulates {τ δ ψ β : Type*} {fine : τ → δ → Except ψ τ} {R : τ → σ → Prop}
    {P : δ → Prop} {Q : ε → Prop} {view : δ → List β} {view' : ε → List β}
    (hstep : ∀ t s d, R t s → P d → ∃ t', fine t d = .ok t' ∧ ∃ es s', (∀ e ∈ es, Q e) ∧
      es.flatMap view' = view d ∧ exec step s es = .ok s' ∧ R t' s')
    {t : τ} {s : σ} {ds : List δ} (hR : R t s) (hP : ∀ d ∈ ds, P d) :
    ∃ t', exec fine t ds = .ok t' ∧ ∃ es s', (∀ e ∈ es, Q e) ∧
      es.flatMap view' = ds.flatMap view ∧ exec step s es = .ok s' ∧ R t' s' := by
  induction ds generalizing t s with
  | nil => exact ⟨t, rfl, [], s, by simp, rfl, rfl, hR⟩
  | cons d ds ih =>
    obtain ⟨t₁, ht₁, es₁, s₁, hQ₁, hview₁, hs₁, hR₁⟩ := hstep t s d hR (hP d List.mem_cons_self)
    obtain ⟨t', ht', es₂, s', hQ₂, hview₂, hs', hR'⟩ :=
      ih hR₁ fun d' hd' => hP d' (List.mem_cons_of_mem d hd')
    refine ⟨t', ?_, es₁ ++ es₂, s', ?_, ?_, ?_, hR'⟩
    · rw [exec_cons_ok ht₁]
      exact ht'
    · intro e he
      rcases List.mem_append.mp he with he | he
      · exact hQ₁ e he
      · exact hQ₂ e he
    · rw [List.flatMap_append, List.flatMap_cons, hview₁, hview₂]
    · rw [exec_append, hs₁]
      exact hs'

/-! ## Attempts that may be refused -/

section Attempts

variable {α β : Type*}

/-- The values of the attempts that were not refused. -/
def delivered (offers : List (α × Bool)) : List α :=
  (offers.filter fun o => o.2).map Prod.fst

/-- Every attempt offers the value of `source` that follows those delivered before it. -/
def InOrder (offers : List (α × Bool)) (source : List α) : Prop :=
  ∀ before x b after, offers = before ++ (x, b) :: after → delivered before ++ [x] <+: source

@[simp] theorem delivered_nil : delivered ([] : List (α × Bool)) = [] := rfl

@[simp] theorem delivered_append (xs ys : List (α × Bool)) :
    delivered (xs ++ ys) = delivered xs ++ delivered ys := by
  simp [delivered]

@[simp] theorem delivered_accepted (x : α) : delivered [(x, true)] = [x] := rfl

@[simp] theorem delivered_refused (x : α) : delivered [(x, false)] = [] := rfl

theorem InOrder.nil (source : List α) : InOrder [] source := by
  intro before x b after h
  simp at h

/-- One more attempt that offers the value that is due. -/
theorem InOrder.snoc {offers : List (α × Bool)} {source : List α} (h : InOrder offers source)
    {x : α} (hx : delivered offers ++ [x] <+: source) (b : Bool) :
    InOrder (offers ++ [(x, b)]) source := by
  intro before y b' after heq
  -- the split is at the new attempt or inside the old log
  rcases List.eq_nil_or_concat after with rfl | ⟨after', last, rfl⟩
  · obtain ⟨rfl, hlast⟩ := List.append_inj' heq rfl
    obtain ⟨rfl, rfl⟩ : x = y ∧ b = b' := by simpa using hlast
    exact hx
  · rw [List.concat_eq_append, ← List.cons_append, ← List.append_assoc] at heq
    obtain ⟨hold, _⟩ := List.append_inj' heq rfl
    exact h before y b' after' hold

/-- A single refused attempt. -/
theorem InOrder.refused {x : α} {source : List α} (h : [x] <+: source) :
    InOrder [(x, false)] source :=
  (InOrder.nil source).snoc (by simpa using h) false

/-- Attempts that go on where earlier ones left off. -/
theorem InOrder.append {log offers : List (α × Bool)} {rest : List α}
    (hlog : InOrder log (delivered log ++ rest)) (hoffers : InOrder offers rest) :
    InOrder (log ++ offers) (delivered log ++ rest) := by
  intro before x b after heq
  rcases List.append_eq_append_iff.mp heq with ⟨mid, rfl, hoff⟩ | ⟨mid, hlog', hafter⟩
  · have := hoffers mid x b after hoff
    rw [delivered_append, List.append_assoc]
    exact List.prefix_append_right_inj _ |>.mpr this
  · cases mid with
    | nil =>
      rw [List.append_nil] at hlog'
      subst hlog'
      have := hoffers [] x b after hafter.symm
      exact List.prefix_append_right_inj _ |>.mpr (by simpa using this)
    | cons o mid =>
      obtain ⟨rfl, -⟩ : (x, b) = o ∧ after = mid ++ offers := by simpa using hafter
      exact hlog before x b mid hlog'

/-- An accepted attempt followed by further ones. -/
theorem InOrder.cons_accepted {offers : List (α × Bool)} {x : α} {rest : List α}
    (h : InOrder offers rest) : InOrder ((x, true) :: offers) (x :: rest) := by
  have hone : InOrder [(x, true)] (delivered [(x, true)] ++ rest) :=
    (InOrder.nil _).snoc (by simp) true
  exact hone.append h

/-- The source may grow at its end. -/
theorem InOrder.mono {offers : List (α × Bool)} {source source' : List α}
    (h : InOrder offers source) (hpre : source <+: source') : InOrder offers source' := by
  intro before x b after heq
  exact (h before x b after heq).trans hpre

/-- A refused value is what the next attempt offers. -/
theorem InOrder.refused_again {offers : List (α × Bool)} {source : List α}
    (h : InOrder offers source) {before after : List (α × Bool)} {x y : α} {b : Bool}
    (heq : offers = before ++ (x, false) :: (y, b) :: after) : y = x := by
  have hx := h before x false ((y, b) :: after) heq
  have hy : delivered before ++ [y] <+: source := by
    have := h (before ++ [(x, false)]) y b after (by simp [heq])
    simpa using this
  have hpre : delivered before ++ [y] <+: delivered before ++ [x] :=
    List.prefix_of_prefix_length_le hy hx (by simp)
  have heq' := hpre.eq_of_length (by simp)
  simpa using heq'

end Attempts

end Run
