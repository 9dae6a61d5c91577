import Cannelloni.Lwip.TimeoutOrder

/-!
# The cyclic timers

A cyclic timer is a timeout whose handler puts it into the list again. It is never lost, and the
pool always has an element for it, as long as the other users leave it one; it is called no more
often than its interval allows, and does not drift.
-/

namespace Cannelloni

open TimerQueue

variable {φ α : Type}

/-- The cyclic timer of a callback. -/
def Callback.timer : Callback φ α → Option LwipCyclicTimer
  | .cyclic c => some c
  | .user _ _ => none

theorem Callback.timer_eq_some {callback : Callback φ α} {c : LwipCyclicTimer} :
    callback.timer = some c ↔ callback = .cyclic c := by
  cases callback with
  | cyclic c' =>
    show some c' = some c ↔ _
    rw [Option.some.injEq, Callback.cyclic.injEq]
  | user f arg => exact ⟨nofun, nofun⟩

/-- There is something to call for a cyclic timer. -/
theorem Callback.calls_of_timer {callback : Callback φ α} {c : LwipCyclicTimer}
    (h : callback.timer = some c) : TimeoutSystem.calls callback := by
  rw [Callback.timer_eq_some.mp h]
  rfl

/-- The cyclic timer of a timeout. -/
def SysTimeo.timer (t : SysTimeo φ α) : Option LwipCyclicTimer := t.callback.timer

/-- The cyclic timer whose handler runs. -/
def CheckPc.timer {τ : Type} : CheckPc τ (Callback φ α) → Option LwipCyclicTimer
  | .handling _ callback => callback.timer
  | _ => none

namespace TimeoutSystem

/-- The cyclic timers in the list, and the one whose handler runs. -/
def timers (s : TimeoutSystem φ α) : List LwipCyclicTimer :=
  s.nextTimeout.filterMap SysTimeo.timer ++ s.pc.timer.toList

/-- How many timeouts other users have in the list. -/
def users (s : TimeoutSystem φ α) : ℕ := s.nextTimeout.countP fun t => t.timer.isNone

/-- The other users leave room for the cyclic timers. -/
def Room (s : TimeoutSystem φ α) : TimeoutEvent φ α → Prop
  | .timeout msecs _ _ =>
    msecs ≤ maxMsecs ∧ s.users + lwipCyclicTimers.length < mempNumSysTimeout
  | _ => True

instance (s : TimeoutSystem φ α) : (e : TimeoutEvent φ α) → Decidable (s.Room e)
  | .timeout _ _ _ => inferInstanceAs (Decidable (_ ∧ _))
  | .tick | .untimeout _ _ | .check | .poll | .handled => .isTrue trivial

/-- Every cyclic timer is in the list or in its handler, once, and the elements of the pool are
accounted for. -/
structure Armed (s : TimeoutSystem φ α) : Prop where
  timers : s.timers.Perm lwipCyclicTimers
  pool : s.nextTimeout.length + s.free = mempNumSysTimeout
  users : s.users + lwipCyclicTimers.length ≤ mempNumSysTimeout

variable {s : TimeoutSystem φ α}

theorem length_nextTimeout (l : List (SysTimeo φ α)) :
    l.length = (l.countP fun t => t.timer.isNone) + (l.filterMap SysTimeo.timer).length := by
  induction l with
  | nil => rfl
  | cons t l ih =>
    cases ht : t.timer with
    | none =>
      rw [List.length_cons, List.countP_cons_of_pos (by rw [ht]; rfl),
        List.filterMap_cons_none ht]
      omega
    | some c =>
      rw [List.length_cons, List.countP_cons_of_neg (by rw [ht]; simp),
        List.filterMap_cons_some ht, List.length_cons]
      omega

/-- The elements that are not free are those of the users and of the cyclic timers that are not in
their handlers. -/
theorem Armed.free_add (h : s.Armed) : s.free + s.users + lwipCyclicTimers.length
    = mempNumSysTimeout + s.pc.timer.toList.length := by
  have hlength := length_nextTimeout s.nextTimeout
  have htimers := h.timers.length_eq
  have hpool := h.pool
  unfold TimeoutSystem.timers at htimers
  rw [List.length_append] at htimers
  unfold TimeoutSystem.users
  omega

/-! ### The operations -/

/-- `sys_timeout_abs` takes an element of the pool. -/
theorem sysTimeoutAbs_ok (hfree : s.free ≠ 0) (absTime : UInt32) (callback : Callback φ α) :
    ∃ s', s.sysTimeoutAbs absTime callback = .ok s' ∧
      s'.nextTimeout.Perm (⟨absTime, callback⟩ :: s.nextTimeout) ∧ s'.free + 1 = s.free ∧
      s'.pc = s.pc := by
  rw [sysTimeoutAbs_eq, if_neg hfree]
  exact ⟨_, rfl, List.perm_orderedInsert _ _ _, Nat.sub_one_add_one hfree, rfl⟩

theorem lwipCyclicTimer_ok (hfree : s.free ≠ 0) (c : LwipCyclicTimer) :
    ∃ s' time, s.lwipCyclicTimer c = .ok s' ∧
      s'.nextTimeout.Perm (⟨time, .cyclic c⟩ :: s.nextTimeout) ∧ s'.free + 1 = s.free ∧
      s'.pc = s.pc := by
  unfold lwipCyclicTimer
  simp only
  split
  · obtain ⟨s', hs'⟩ := sysTimeoutAbs_ok hfree (s.tickMs + c.intervalMs) (.cyclic c)
    exact ⟨s', _, hs'⟩
  · obtain ⟨s', hs'⟩ :=
      sysTimeoutAbs_ok hfree (s.currentTimeoutDueTime + c.intervalMs) (.cyclic c)
    exact ⟨s', _, hs'⟩

/-- `sys_untimeout` gives an element back to the pool, or does nothing. -/
theorem sysUntimeout_cases [DecidableEq φ] [DecidableEq α] (s : TimeoutSystem φ α)
    (callback : Callback φ α) :
    s.sysUntimeout callback = s ∨ ∃ t : SysTimeo φ α, t.callback = callback ∧
      s.nextTimeout.Perm (t :: (s.sysUntimeout callback).nextTimeout) ∧
      (s.sysUntimeout callback).free = s.free + 1 ∧ (s.sysUntimeout callback).pc = s.pc := by
  unfold sysUntimeout
  split
  · next hany =>
    right
    obtain ⟨t, ht, hcallback⟩ := List.any_eq_true.mp hany
    obtain ⟨u, before, after, -, hu, hlist, herase⟩ :=
      List.exists_of_eraseP (p := fun t : SysTimeo φ α => t.callback = callback) ht hcallback
    refine ⟨u, of_decide_eq_true hu, ?_, rfl, rfl⟩
    show s.nextTimeout.Perm (u :: s.nextTimeout.eraseP _)
    rw [herase, hlist]
    exact List.perm_middle
  · exact .inl rfl

/-- A user has one timeout more. -/
theorem Armed.addUser (h : s.Armed) {s' : TimeoutSystem φ α} {t : SysTimeo φ α}
    (ht : t.timer = none) (hperm : s'.nextTimeout.Perm (t :: s.nextTimeout))
    (hfree : s'.free + 1 = s.free) (hpc : s'.pc = s.pc)
    (hroom : s.users + lwipCyclicTimers.length < mempNumSysTimeout) : s'.Armed where
  timers := by
    have hfilter := hperm.filterMap SysTimeo.timer
    rw [List.filterMap_cons_none ht] at hfilter
    unfold TimeoutSystem.timers
    rw [hpc]
    exact (hfilter.append_right _).trans h.timers
  pool := by
    have hlength := hperm.length_eq
    have hpool := h.pool
    rw [List.length_cons] at hlength
    omega
  users := by
    have hcount := hperm.countP_eq fun t => t.timer.isNone
    rw [List.countP_cons_of_pos (by rw [ht]; rfl)] at hcount
    unfold TimeoutSystem.users at hroom ⊢
    omega

/-- A user has one timeout less. -/
theorem Armed.removeUser (h : s.Armed) {s' : TimeoutSystem φ α} {t : SysTimeo φ α}
    (ht : t.timer = none) (hperm : s.nextTimeout.Perm (t :: s'.nextTimeout))
    (hfree : s'.free = s.free + 1) (hpc : s'.pc.timer = s.pc.timer) : s'.Armed where
  timers := by
    have hfilter := hperm.filterMap SysTimeo.timer
    rw [List.filterMap_cons_none ht] at hfilter
    unfold TimeoutSystem.timers
    rw [hpc]
    exact (hfilter.symm.append_right _).trans h.timers
  pool := by
    have hlength := hperm.length_eq
    have hpool := h.pool
    rw [List.length_cons] at hlength
    omega
  users := by
    have hcount := hperm.countP_eq fun t => t.timer.isNone
    have husers := h.users
    rw [List.countP_cons_of_pos (by rw [ht]; rfl)] at hcount
    unfold TimeoutSystem.users at husers ⊢
    omega

/-- A cyclic timer goes from the list to its handler, or back. -/
theorem Armed.moveTimer {s' : TimeoutSystem φ α} {t : SysTimeo φ α} {c : LwipCyclicTimer}
    (ht : t.timer = some c)
    (hpc : s.pc.timer = none) (hpc' : s'.pc.timer = some c)
    (hperm : s.nextTimeout.Perm (t :: s'.nextTimeout)) (hfree : s'.free = s.free + 1) :
    s.Armed ↔ s'.Armed := by
  have hfilter := hperm.filterMap SysTimeo.timer
  rw [List.filterMap_cons_some ht] at hfilter
  have htimers : s.timers.Perm s'.timers := by
    unfold TimeoutSystem.timers
    rw [hpc, hpc', Option.toList_none, List.append_nil, Option.toList_some]
    exact hfilter.trans (List.perm_append_singleton _ _).symm
  have hlength := hperm.length_eq
  rw [List.length_cons] at hlength
  have husers : s.users = s'.users := by
    have hcount := hperm.countP_eq fun t => t.timer.isNone
    rwa [List.countP_cons_of_neg (by rw [ht]; simp)] at hcount
  constructor
  · intro h
    have hpool := h.pool
    have hroom := h.users
    exact ⟨htimers.symm.trans h.timers, by omega, by omega⟩
  · intro h
    have hpool := h.pool
    have hroom := h.users
    exact ⟨htimers.trans h.timers, by omega, by omega⟩

/-- The call of `sys_check_timeouts` goes on, or ends. -/
theorem Armed.setPc (h : s.Armed) {pc : CheckPc UInt32 (Callback φ α)}
    (hpc : pc.timer = s.pc.timer) : Armed { s with pc } where
  timers := by
    unfold TimeoutSystem.timers
    rw [hpc]
    exact h.timers
  pool := h.pool
  users := h.users

theorem Armed.poll (h : s.Armed) {now : UInt32} (hpc : s.pc = .checking now) :
    (s.poll now).Armed := by
  have hnone : s.pc.timer = none := by
    rw [hpc]
    rfl
  unfold TimeoutSystem.poll
  split
  · exact h.setPc hnone.symm
  · next t rest hlist =>
    split
    · exact h.setPc hnone.symm
    · have hperm : s.nextTimeout.Perm (t :: rest) := by
        rw [hlist]
      cases ht : t.timer with
      | none =>
        refine h.removeUser ht hperm rfl ?_
        rw [hnone]
        dsimp only
        split
        · exact ht
        · rfl
      | some c =>
        refine (Armed.moveTimer ht hnone ?_ hperm rfl).mp h
        dsimp only
        rw [if_pos (Callback.calls_of_timer ht)]
        exact ht

theorem Armed.handled (h : s.Armed) {now : UInt32} {callback : Callback φ α}
    (hpc : s.pc = .handling now callback) :
    ∃ s', s.handled now callback = .ok s' ∧ s'.Armed := by
  cases callback with
  | user f arg =>
    refine ⟨_, rfl, h.setPc ?_⟩
    rw [hpc]
    rfl
  | cyclic c =>
    have hadd := h.free_add
    have hroom := h.users
    have hsome : s.pc.timer = some c := by
      rw [hpc]
      rfl
    rw [hsome, Option.toList_some, List.length_singleton] at hadd
    obtain ⟨s', time, hs', hperm, hfree, hpc'⟩ :=
      lwipCyclicTimer_ok (s := { s with pc := .checking now }) (by show s.free ≠ 0; omega) c
    refine ⟨s', hs', (Armed.moveTimer (t := ⟨time, .cyclic c⟩) rfl ?_ hsome hperm ?_).mpr h⟩
    · rw [hpc']
      rfl
    · exact hfree.symm

section Step

variable [DecidableEq φ] [DecidableEq α]

theorem Armed.step (h : s.Armed) {e : TimeoutEvent φ α} (hroom : s.Room e) :
    ∃ s', s.step e = .ok s' ∧ s'.Armed := by
  cases e with
  | tick => exact ⟨_, rfl, h.timers, h.pool, h.users⟩
  | timeout msecs f arg =>
    have hadd := h.free_add
    obtain ⟨hle, hfew⟩ := hroom
    have hne : s.free ≠ 0 := by omega
    obtain ⟨s', hs', hperm, hfree, hpc⟩ :=
      sysTimeoutAbs_ok hne (s.tickMs + msecs) (.user f arg)
    refine ⟨s', ?_, h.addUser rfl hperm hfree hpc hfew⟩
    show s.sysTimeout msecs (.user f arg) = .ok s'
    unfold sysTimeout
    rwa [if_pos hle]
  | untimeout f arg =>
    refine ⟨_, rfl, ?_⟩
    rcases s.sysUntimeout_cases (.user f arg) with hsame | ⟨t, ht, hperm, hfree, hpc⟩
    · rw [hsame]
      exact h
    · refine h.removeUser ?_ hperm hfree (by rw [hpc])
      unfold SysTimeo.timer
      rw [ht]
      rfl
  | check =>
    cases hpc : s.pc <;> simp only [TimeoutSystem.step, hpc]
    · refine ⟨_, rfl, h.setPc ?_⟩
      rw [hpc]
      rfl
    · exact ⟨s, rfl, h⟩
    · exact ⟨s, rfl, h⟩
  | poll =>
    cases hpc : s.pc <;> simp only [TimeoutSystem.step, hpc]
    · exact ⟨s, rfl, h⟩
    · exact ⟨_, rfl, h.poll hpc⟩
    · exact ⟨s, rfl, h⟩
  | handled =>
    cases hpc : s.pc <;> simp only [TimeoutSystem.step, hpc]
    · exact ⟨s, rfl, h⟩
    · exact ⟨s, rfl, h⟩
    · exact h.handled hpc

end Step

end TimeoutSystem

/-- No cyclic timer is lost: as long as the other users leave the pool an element for each of them
and ask for no time that is too long, no assertion fails in any run, and every cyclic timer is in
the list once, or its handler runs. -/
theorem cyclic_timers_armed [DecidableEq φ] [DecidableEq α] {events : List (TimeoutEvent φ α)}
    {s₀ : TimeoutSystem φ α} (hinit : TimeoutSystem.reset.sysTimeoutsInit = .ok s₀)
    (hroom : Run.Along TimeoutSystem.step TimeoutSystem.Room s₀ events) :
    ∃ s, TimeoutSystem.run events = .ok s ∧ s.timers.Perm lwipCyclicTimers := by
  have hstart : s₀.Armed := by
    rw [TimeoutSystem.init_eq] at hinit
    cases hinit
    refine ⟨List.Perm.swap _ _ _, rfl, ?_⟩
    show 0 + 2 ≤ 8
    omega
  obtain ⟨s, hs, harmed⟩ :=
    Run.exec_of_along (fun _ _ h hroom => TimeoutSystem.Armed.step h hroom) hstart hroom
  refine ⟨s, ?_, harmed.timers⟩
  unfold TimeoutSystem.run
  rw [hinit]
  exact hs

/-- A user adds a timeout and takes it back, while the pool has room. -/
theorem cyclic_timers_armed_user :
    ∃ s : TimeoutSystem ℕ ℕ, TimeoutSystem.run [.timeout 1 (some 7) 0, .tick, .check, .poll,
      .untimeout (some 7) 0, .handled, .timeout 50 none 0] = .ok s ∧
      s.timers.Perm lwipCyclicTimers :=
  cyclic_timers_armed TimeoutSystem.init_eq (by decide +kernel)

/-! ## Rate and drift -/

namespace Schedule

variable {q : Schedule φ α} {c : LwipCyclicTimer}

/-- When a timer is due, if it is the cyclic timer `c`. -/
def dueOf (c : LwipCyclicTimer) (t : Timer ℕ (Callback φ α)) : Option ℕ :=
  if t.what.timer = some c then some t.due else none

/-- How often a cyclic timer was called. -/
def callsOf (q : Schedule φ α) (c : LwipCyclicTimer) : ℕ :=
  q.agenda.fired.countP fun t => t.what.timer = some c

/-- The handler of the cyclic timer, if it runs, is through before it is due again. -/
abbrev OnTime (q : Schedule φ α) (c : LwipCyclicTimer) : Prop :=
  q.pc.timer = some c → q.agenda.now ≤ q.due + c.intervalMs.toNat

/-- The timer is due next no earlier than a whole number of intervals after the start, one for each
call and one more; with `exact`, it is due right then. -/
structure Keeps (q : Schedule φ α) (c : LwipCyclicTimer) (exact : Prop) : Prop where
  rate : q.callsOf c * c.intervalMs.toNat ≤ q.agenda.now
  place :
    (∃ d, q.agenda.pending.filterMap (dueOf c) = [d] ∧ q.pc.timer ≠ some c ∧
      (q.callsOf c + 1) * c.intervalMs.toNat ≤ d ∧
      (exact → d = (q.callsOf c + 1) * c.intervalMs.toNat)) ∨
    (q.agenda.pending.filterMap (dueOf c) = [] ∧ q.pc.timer = some c ∧
      q.callsOf c * c.intervalMs.toNat ≤ q.due ∧
      (exact → q.due = q.callsOf c * c.intervalMs.toNat))

variable {exact : Prop}

theorem keeps_start (hc : c ∈ lwipCyclicTimers) : (start : Schedule φ α).Keeps c exact where
  rate := Nat.zero_mul _ ▸ Nat.le_refl 0
  place := by
    left
    refine ⟨c.intervalMs.toNat, ?_, nofun, ?_, ?_⟩
    · rw [start_eq]
      rcases List.mem_pair.mp hc with rfl | rfl
      · rfl
      · rfl
    · exact (Nat.one_mul _).le
    · intro _
      exact (Nat.one_mul _).symm

/-- A step that changes neither the timer nor the calls of it. -/
theorem Keeps.frame (h : q.Keeps c exact) {q' : Schedule φ α}
    (hnow : q.agenda.now ≤ q'.agenda.now) (hfired : q'.callsOf c = q.callsOf c)
    (hpending : q'.agenda.pending.filterMap (dueOf c) = q.agenda.pending.filterMap (dueOf c))
    (hplace : q'.pc.timer = q.pc.timer ∧ q'.due = q.due ∨
      q.pc.timer ≠ some c ∧ q'.pc.timer ≠ some c) : q'.Keeps c exact where
  rate := by
    rw [hfired]
    exact h.rate.trans hnow
  place := by
    rw [hfired, hpending]
    rcases hplace with ⟨hpc, hdue⟩ | ⟨hpc, hpc'⟩
    · rw [hpc, hdue]
      exact h.place
    · rcases h.place with ⟨d, hd, -, hge, hexact⟩ | ⟨-, hsome, -⟩
      · exact .inl ⟨d, hd, hpc', hge, hexact⟩
      · exact absurd hsome hpc

/-- The timer is fired. -/
theorem Keeps.fire (h : q.Keeps c exact) {now : ℕ} (hpc : q.pc = .checking now)
    (hle : now ≤ q.agenda.now) {t : Timer ℕ (Callback φ α)} {rest : List (Timer ℕ (Callback φ α))}
    (hpending : q.agenda.pending = t :: rest) (hdue : t.due ≤ now) :
    Keeps
      { agenda := q.agenda.fire
        due := t.due
        pc := if TimeoutSystem.calls t.what then .handling now t.what else .checking now } c
      exact := by
  have hnone : q.pc.timer ≠ some c := by
    rw [hpc]
    nofun
  have hrest : q.agenda.fire.pending = rest := by
    show q.agenda.pending.tail = rest
    rw [hpending, List.tail_cons]
  have hfired : q.agenda.fire.fired = q.agenda.fired ++ [t] := by
    show q.agenda.fired ++ q.agenda.pending.head?.toList = _
    rw [hpending, List.head?_cons, Option.toList_some]
  by_cases ht : t.what.timer = some c
  · -- it was the only one in the list
    rcases h.place with ⟨d, hd, -, hge, hexact⟩ | ⟨-, hsome, -⟩
    · have hdueOf : dueOf c t = some t.due := if_pos ht
      rw [hpending, List.filterMap_cons_some hdueOf] at hd
      obtain ⟨rfl, hnil⟩ := List.cons.inj hd
      have hcount : Schedule.callsOf
          { agenda := q.agenda.fire
            due := t.due
            pc := if TimeoutSystem.calls t.what then .handling now t.what else .checking now } c
          = q.callsOf c + 1 := by
        unfold callsOf
        rw [hfired, List.countP_append, List.countP_singleton, if_pos (decide_eq_true ht)]
      refine ⟨?_, .inr ⟨?_, ?_, ?_, ?_⟩⟩
      · rw [hcount]
        exact hge.trans (hdue.trans hle)
      · rw [hrest]
        exact hnil
      · rw [if_pos (Callback.calls_of_timer ht)]
        exact ht
      · rw [hcount]
        exact hge
      · rw [hcount]
        exact hexact
    · exact absurd hsome hnone
  · refine h.frame (Nat.le_refl _) ?_ ?_ (.inr ⟨hnone, ?_⟩)
    · unfold callsOf
      rw [hfired, List.countP_append, List.countP_singleton, if_neg (by simpa using ht),
        Nat.add_zero]
    · have hdueOf : dueOf c t = none := if_neg ht
      rw [hrest, hpending, List.filterMap_cons_none hdueOf]
    · dsimp only
      split
      · exact ht
      · nofun

/-- The timer is put into the list again. -/
theorem Keeps.again (h : q.Keeps c exact) {now : ℕ} (hpc : q.pc = .handling now (.cyclic c))
    (hdue : q.due ≤ q.agenda.now) (hontime : exact → q.OnTime c) :
    Keeps { q with agenda := q.agenda.add (q.next c) (.cyclic c), pc := .checking now } c
      exact := by
  have hsome : q.pc.timer = some c := by
    rw [hpc]
    rfl
  rcases h.place with ⟨d, -, hne, -⟩ | ⟨hnil, -, hge, hexact⟩
  · exact absurd hsome hne
  · have hmul : (q.callsOf c + 1) * c.intervalMs.toNat
        = q.callsOf c * c.intervalMs.toNat + c.intervalMs.toNat := Nat.succ_mul _ _
    refine ⟨h.rate, .inl ⟨q.next c, ?_, nofun, ?_, ?_⟩⟩
    · exact Agenda.filterMap_insert_of_nil (if_pos rfl) hnil
    · show (q.callsOf c + 1) * _ ≤ _
      unfold next
      split <;> omega
    · intro hex
      have hle := hontime hex hsome
      have heq := hexact hex
      show _ = (q.callsOf c + 1) * _
      unfold next
      rw [if_neg (by omega)]
      omega

section Step

variable [DecidableEq φ] [DecidableEq α]

theorem Keeps.step (h : q.Keeps c exact) (hnear : q.Near) {e : TimeoutEvent φ α}
    (hontime : exact → e = .handled → q.OnTime c) : (q.step e).Keeps c exact := by
  cases e with
  | tick => exact h.frame (Nat.le_succ _) rfl rfl (.inl ⟨rfl, rfl⟩)
  | timeout msecs f arg =>
    refine h.frame (Nat.le_refl _) rfl ?_ (.inl ⟨rfl, rfl⟩)
    exact Agenda.filterMap_insert_of_none (if_neg (by rintro ⟨⟩))
  | untimeout f arg =>
    refine h.frame (Nat.le_refl _) rfl ?_ (.inl ⟨rfl, rfl⟩)
    apply Agenda.filterMap_eraseP
    intro t ht
    unfold dueOf
    rw [of_decide_eq_true ht]
    rfl
  | check =>
    cases hpc : q.pc <;> simp only [Schedule.step, hpc]
    · exact h.frame (Nat.le_refl _) rfl rfl (.inl ⟨by rw [hpc]; rfl, rfl⟩)
    · exact h
    · exact h
  | poll =>
    cases hpc : q.pc with
    | checking now =>
      have hle := (hnear.call now (by rw [hpc]; rfl)).1
      rcases poll_cases hpc with ⟨hstep, -⟩ | ⟨t, rest, hpending, hdue, hstep⟩
      · rw [hstep]
        exact h.frame (Nat.le_refl _) rfl rfl (.inl ⟨by rw [hpc]; rfl, rfl⟩)
      · rw [hstep]
        exact h.fire hpc hle hpending hdue
    | _ =>
      simp only [Schedule.step, hpc]
      exact h
  | handled =>
    cases hpc : q.pc with
    | handling now callback =>
      have hle := (hnear.call now (by rw [hpc]; rfl)).1
      have hdue := (hnear.handling now callback hpc).1
      cases callback with
      | user f arg =>
        simp only [Schedule.step, hpc]
        exact h.frame (Nat.le_refl _) rfl rfl (.inl ⟨by rw [hpc]; rfl, rfl⟩)
      | cyclic c' =>
        simp only [Schedule.step, hpc]
        by_cases hc : c' = c
        · subst hc
          exact h.again hpc (hdue.trans hle) fun hex => hontime hex rfl
        · have hne : some c' ≠ some c := fun heq => hc (Option.some.inj heq)
          refine h.frame (Nat.le_refl _) rfl ?_ (.inr ⟨by rw [hpc]; exact hne, by rintro ⟨⟩⟩)
          exact Agenda.filterMap_insert_of_none (if_neg hne)
    | _ =>
      simp only [Schedule.step, hpc]
      exact h

/-- The clock counts the ticks. -/
theorem now_step (q : Schedule φ α) (e : TimeoutEvent φ α) :
    (q.step e).agenda.now = q.agenda.now + if e = .tick then 1 else 0 := by
  cases e with
  | tick => rfl
  | timeout msecs f arg => rfl
  | untimeout f arg => rfl
  | check => cases hpc : q.pc <;> simp only [Schedule.step, hpc] <;> rfl
  | poll =>
    cases hpc : q.pc with
    | checking now =>
      rcases poll_cases hpc with ⟨hstep, -⟩ | ⟨t, rest, -, -, hstep⟩
      · rw [hstep]
        rfl
      · rw [hstep]
        rfl
    | _ =>
      simp only [Schedule.step, hpc]
      rfl
  | handled =>
    cases hpc : q.pc with
    | handling now callback =>
      cases callback <;> simp only [Schedule.step, hpc] <;> rfl
    | _ =>
      simp only [Schedule.step, hpc]
      rfl

theorem now_run (events : List (TimeoutEvent φ α)) :
    (run events).agenda.now = events.count .tick := by
  induction events using List.reverseRecOn with
  | nil => rfl
  | append_singleton events e ih =>
    rw [run_append, now_step, ih, List.count_append, List.count_singleton]
    simp only [beq_iff_eq]

theorem keeps_run {events : List (TimeoutEvent φ α)}
    (hnear : ∀ past, past <+: events → (run past).Near) (hc : c ∈ lwipCyclicTimers)
    (hontime : exact → ∀ past, past ++ [.handled] <+: events → (run past).OnTime c) :
    (run events).Keeps c exact := by
  induction events using List.reverseRecOn with
  | nil => exact keeps_start hc
  | append_singleton events e ih =>
    have hpre : events <+: events ++ [e] := List.prefix_append _ _
    have hkeeps := ih (fun past hpast => hnear past (hpast.trans hpre))
      fun hex past hpast => hontime hex past (hpast.trans hpre)
    rw [run_append]
    refine hkeeps.step (hnear events hpre) ?_
    rintro hex rfl
    exact hontime hex events (List.prefix_refl _)

end Step

end Schedule

/-- The first part of a run gets through. -/
theorem TimeoutSystem.run_of_prefix [DecidableEq φ] [DecidableEq α]
    {past events : List (TimeoutEvent φ α)} {s : TimeoutSystem φ α} (hrun : run events = .ok s)
    (hpast : past <+: events) : ∃ t, run past = .ok t := by
  obtain ⟨rest, rfl⟩ := hpast
  unfold run at hrun ⊢
  rw [init_eq] at hrun ⊢
  change Run.exec _ _ (past ++ rest) = _ at hrun
  rw [Run.exec_append] at hrun
  obtain ⟨t, ht, -⟩ := Run.bind_eq_ok.mp hrun
  exact ⟨t, ht⟩

/-- A cyclic timer keeps its rate: as long as the main loop gets round in time, it is called no more
often than once in an interval, however late its calls are. If its handler is always through before
it is due again, it does not drift either: after `n` calls it is in the list for the end of the
interval `n + 1` since the start, or its handler runs for the end of the interval `n`. -/
theorem cyclic_timer_rate [DecidableEq φ] [DecidableEq α] {events : List (TimeoutEvent φ α)}
    {s : TimeoutSystem φ α} (hrun : TimeoutSystem.run events = .ok s)
    (hpolled : ∀ past, past <+: events → (Schedule.run past).Polled) {c : LwipCyclicTimer}
    (hc : c ∈ lwipCyclicTimers) :
    let n := s.expired.countP fun callback => callback.timer = some c
    n * c.intervalMs.toNat ≤ events.count .tick ∧
      ((∀ past, past ++ [.handled] <+: events → (Schedule.run past).OnTime c) →
        if s.pc.timer = some c then
          s.currentTimeoutDueTime = UInt32.ofNat (n * c.intervalMs.toNat)
        else ⟨UInt32.ofNat ((n + 1) * c.intervalMs.toNat), .cyclic c⟩ ∈ s.nextTimeout) := by
  intro n
  have hdenotes := (TimeoutSystem.denotes_run hrun hpolled).1
  have hnear : ∀ past, past <+: events → (Schedule.run past).Near := by
    intro past hpast
    obtain ⟨t, ht⟩ := TimeoutSystem.run_of_prefix hrun hpast
    exact (TimeoutSystem.denotes_run ht fun past' hpast' =>
      hpolled past' (hpast'.trans hpast)).2
  have hcalls : (Schedule.run events).callsOf c = n := by
    show _ = s.expired.countP _
    rw [hdenotes.expired, List.countP_map]
    rfl
  have hpc : s.pc.timer = (Schedule.run events).pc.timer := by
    rw [hdenotes.pc]
    cases (Schedule.run events).pc <;> rfl
  constructor
  · have hkeeps : (Schedule.run events).Keeps c False := Schedule.keeps_run hnear hc nofun
    have hrate := hkeeps.rate
    rwa [hcalls, Schedule.now_run] at hrate
  · intro hontime
    have hkeeps : (Schedule.run events).Keeps c True :=
      Schedule.keeps_run hnear hc fun _ => hontime
    have hplace := hkeeps.place
    rw [hcalls, ← hpc] at hplace
    rcases hplace with ⟨d, hd, hne, -, hexact⟩ | ⟨-, hsome, -, hexact⟩
    · rw [if_neg hne, hdenotes.list]
      have hmem : d ∈ (Schedule.run events).agenda.pending.filterMap (Schedule.dueOf c) := by
        rw [hd]
        exact List.mem_singleton_self d
      obtain ⟨t, ht, hdue⟩ := List.mem_filterMap.mp hmem
      unfold Schedule.dueOf at hdue
      split at hdue
      · next htimer =>
        refine List.mem_map.mpr ⟨t, ht, ?_⟩
        unfold Schedule.view
        rw [Callback.timer_eq_some.mp htimer, Option.some.inj hdue, hexact trivial]
      · cases hdue
    · rw [if_pos hsome, hdenotes.due, hexact trivial]

/-- The first call of `mld6_tmr`. -/
theorem cyclic_timer_rate_first :
    let events : List (TimeoutEvent ℕ ℕ) :=
      List.replicate 100 .tick ++ [.check, .poll, .tick, .handled, .poll]
    1 * 100 ≤ events.count .tick ∧ ∃ s, TimeoutSystem.run events = .ok s ∧
      ⟨200, .cyclic ⟨100, .mld6Tmr⟩⟩ ∈ s.nextTimeout := by
  intro events
  have hrun : TimeoutSystem.run events = .ok
      ⟨[⟨200, .cyclic ⟨100, .mld6Tmr⟩⟩, ⟨1000, .cyclic ⟨1000, .nd6Tmr⟩⟩], 100, 6, 101, .idle,
        [.cyclic ⟨100, .mld6Tmr⟩]⟩ := by
    decide +kernel
  have hpolled : ∀ past ∈ events.inits, (Schedule.run past).Polled := by decide +kernel
  have hontime : ∀ past ∈ events.inits, (Schedule.run past).OnTime ⟨100, .mld6Tmr⟩ := by
    decide +kernel
  have h := cyclic_timer_rate hrun (fun past hpast => hpolled past ((List.mem_inits _ _).mpr hpast))
    (c := ⟨100, .mld6Tmr⟩) (by decide)
  refine ⟨h.1, _, hrun, ?_⟩
  exact h.2 fun past hpast => hontime past
    ((List.mem_inits _ _).mpr ((List.prefix_append _ _).trans hpast))

end Cannelloni
