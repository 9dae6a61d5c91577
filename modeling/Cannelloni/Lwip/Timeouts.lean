import Cannelloni.Lib.Run
import Cannelloni.Lib.TimerQueue

/-!
# The timeouts of lwIP (`core/timeouts.c`)

The list of timeouts, the pool its elements come from, and the three parties that use it: the main
loop with `sys_check_timeouts`, the handlers it calls, which add and remove timeouts themselves,
and the interrupt that counts `tick_ms`. The cyclic timers are those of the configuration in
`lwipopts.h`.

An operation on the list is one step: the calls do not interrupt each other. `timeouts.c` does not
protect its list, so a receive interrupt that calls `sys_timeout` or `sys_untimeout` while the main
loop is inside one of them, or between the accesses of a pass of `sys_check_timeouts`, is not among
the events. One that comes between two steps is.

`Schedule` is what all of this is for: the same events on a clock that does not wrap around.
-/

namespace Cannelloni

open TimerQueue

/-! ## The list -/

/-- `LWIP_MAX_TIMEOUT`. -/
def lwipMaxTimeout : UInt32 := 0x7fffffff

/-- `TIME_LESS_THAN`. -/
abbrev TimeLessThan (t compareTo : UInt32) : Prop := lwipMaxTimeout < t - compareTo

/-- The handlers in `lwip_cyclic_timers`. -/
inductive CyclicHandler
  | nd6Tmr
  | mld6Tmr
deriving DecidableEq, Repr

/-- `struct lwip_cyclic_timer`. -/
structure LwipCyclicTimer where
  intervalMs : UInt32
  handler : CyclicHandler
deriving DecidableEq, Repr

/-- `lwip_cyclic_timers`, with IPv6 and its multicast listener. -/
def lwipCyclicTimers : List LwipCyclicTimer := [⟨1000, .nd6Tmr⟩, ⟨100, .mld6Tmr⟩]

/-- A handler and its argument: `lwip_cyclic_timer` with an entry of the table, or the handler of a
user of the list, which may be `NULL`. -/
inductive Callback (φ α : Type)
  | cyclic (c : LwipCyclicTimer)
  | user (h : Option φ) (arg : α)
deriving DecidableEq, Repr

/-- `struct sys_timeo`. -/
structure SysTimeo (φ α : Type) where
  time : UInt32
  callback : Callback φ α
deriving DecidableEq, Repr

/-- Where a call of `sys_check_timeouts` is: at the head of its loop, or in a handler. It keeps the
time at which it began. -/
inductive CheckPc (τ ι : Type)
  | idle
  | checking (now : τ)
  | handling (now : τ) (callback : ι)
deriving DecidableEq, Repr

/-- The time at which the call began. -/
def CheckPc.began {τ ι : Type} : CheckPc τ ι → Option τ
  | .idle => none
  | .checking now => some now
  | .handling now _ => some now

/-- `next_timeout`, `current_timeout_due_time`, the free elements of `MEMP_SYS_TIMEOUT`, `tick_ms`,
the call of `sys_check_timeouts`, and (ghost) the timeouts it has found expired. -/
structure TimeoutSystem (φ α : Type) where
  nextTimeout : List (SysTimeo φ α)
  currentTimeoutDueTime : UInt32
  free : ℕ
  tickMs : UInt32
  pc : CheckPc UInt32 (Callback φ α)
  expired : List (Callback φ α)
deriving DecidableEq, Repr

/-- The assertions. -/
inductive TimeoutFault
  | poolEmpty
  | timeTooLong
deriving DecidableEq, Repr

/-- The steps. While one of them goes on no other one begins, but for the timer interrupt, which
does not look at the list. -/
inductive TimeoutEvent (φ α : Type)
  /-- the timer interrupt -/
  | tick
  /-- `sys_timeout`, by the main loop, a handler, or an interrupt that finds nobody in the list -/
  | timeout (msecs : UInt32) (h : Option φ) (arg : α)
  /-- `sys_untimeout` -/
  | untimeout (h : Option φ) (arg : α)
  /-- the main loop calls `sys_check_timeouts` -/
  | check
  /-- a pass of its loop -/
  | poll
  /-- the handler is through -/
  | handled
deriving DecidableEq, Repr

/-- `MEMP_NUM_SYS_TIMEOUT`. -/
def mempNumSysTimeout : ℕ := 8

/-- `LWIP_UINT32_MAX / 4`. -/
def maxMsecs : UInt32 := 0xffffffff / 4

variable {φ α : Type}

namespace TimeoutSystem

/-- The loop of `sys_timeout_abs`, at `t`, with `rest` behind it. -/
def insertBehind (timeout : SysTimeo φ α) : SysTimeo φ α → List (SysTimeo φ α) → List (SysTimeo φ α)
  | t, [] => [t, timeout]
  | t, u :: rest =>
    if TimeLessThan timeout.time u.time then t :: timeout :: u :: rest
    else t :: insertBehind timeout u rest

/-- `sys_timeout_abs`. -/
def sysTimeoutAbs (s : TimeoutSystem φ α) (absTime : UInt32) (callback : Callback φ α) :
    Except TimeoutFault (TimeoutSystem φ α) :=
  if s.free = 0 then .error .poolEmpty
  else
    let timeout : SysTimeo φ α := ⟨absTime, callback⟩
    let list := match s.nextTimeout with
      | [] => [timeout]
      | t :: rest =>
        if TimeLessThan timeout.time t.time then timeout :: t :: rest
        else insertBehind timeout t rest
    .ok { s with nextTimeout := list, free := s.free - 1 }

/-- `sys_timeout`. -/
def sysTimeout (s : TimeoutSystem φ α) (msecs : UInt32) (callback : Callback φ α) :
    Except TimeoutFault (TimeoutSystem φ α) :=
  if msecs ≤ maxMsecs then s.sysTimeoutAbs (s.tickMs + msecs) callback else .error .timeTooLong

/-- `sys_untimeout`. -/
def sysUntimeout [DecidableEq φ] [DecidableEq α] (s : TimeoutSystem φ α) (callback : Callback φ α) :
    TimeoutSystem φ α :=
  if s.nextTimeout.any fun t => t.callback = callback then
    { s with
      nextTimeout := s.nextTimeout.eraseP fun t => t.callback = callback
      free := s.free + 1 }
  else s

/-- `lwip_cyclic_timer`, behind the call of `cyclic->handler`. -/
def lwipCyclicTimer (s : TimeoutSystem φ α) (cyclic : LwipCyclicTimer) :
    Except TimeoutFault (TimeoutSystem φ α) :=
  let now := s.tickMs
  let nextTimeoutTime := s.currentTimeoutDueTime + cyclic.intervalMs
  if TimeLessThan nextTimeoutTime now then
    s.sysTimeoutAbs (now + cyclic.intervalMs) (.cyclic cyclic)
  else s.sysTimeoutAbs nextTimeoutTime (.cyclic cyclic)

/-- Whether there is something to call. -/
def calls : Callback φ α → Bool
  | .cyclic _ => true
  | .user h _ => h.isSome

/-- A pass of the loop of `sys_check_timeouts`, to the call of the handler. -/
def poll (s : TimeoutSystem φ α) (now : UInt32) : TimeoutSystem φ α :=
  match s.nextTimeout with
  | [] => { s with pc := .idle }
  | tmptimeout :: rest =>
    if TimeLessThan now tmptimeout.time then { s with pc := .idle }
    else
      { s with
        nextTimeout := rest
        currentTimeoutDueTime := tmptimeout.time
        free := s.free + 1
        pc := if calls tmptimeout.callback then .handling now tmptimeout.callback
          else .checking now
        expired := s.expired ++ [tmptimeout.callback] }

/-- The handler of a timeout comes to its end. -/
def handled (s : TimeoutSystem φ α) (now : UInt32) (callback : Callback φ α) :
    Except TimeoutFault (TimeoutSystem φ α) :=
  match callback with
  | .cyclic c => ({ s with pc := .checking now } : TimeoutSystem φ α).lwipCyclicTimer c
  | .user _ _ => .ok { s with pc := .checking now }

def step [DecidableEq φ] [DecidableEq α] (s : TimeoutSystem φ α) :
    TimeoutEvent φ α → Except TimeoutFault (TimeoutSystem φ α)
  | .tick => .ok { s with tickMs := s.tickMs + 1 }
  | .timeout msecs h arg => s.sysTimeout msecs (.user h arg)
  | .untimeout h arg => .ok (s.sysUntimeout (.user h arg))
  | .check =>
    match s.pc with
    | .idle => .ok { s with pc := .checking s.tickMs }
    | _ => .ok s
  | .poll =>
    match s.pc with
    | .checking now => .ok (s.poll now)
    | _ => .ok s
  | .handled =>
    match s.pc with
    | .handling now callback => s.handled now callback
    | _ => .ok s

/-- Before `sys_timeouts_init`: the interrupts are still off. -/
def reset : TimeoutSystem φ α := ⟨[], 0, mempNumSysTimeout, 0, .idle, []⟩

/-- `sys_timeouts_init`. -/
def sysTimeoutsInit (s : TimeoutSystem φ α) : Except TimeoutFault (TimeoutSystem φ α) :=
  lwipCyclicTimers.foldlM (fun s c => s.sysTimeout c.intervalMs (.cyclic c)) s

/-- The events from the start on. -/
def run [DecidableEq φ] [DecidableEq α] (events : List (TimeoutEvent φ α)) :
    Except TimeoutFault (TimeoutSystem φ α) :=
  reset.sysTimeoutsInit >>= fun s => Run.exec step s events

end TimeoutSystem

/-! ## On a clock that does not wrap around -/

/-- The timers with the true times at which they are due, the time at which the one fired last was
due, and the call of `sys_check_timeouts`. -/
structure Schedule (φ α : Type) where
  agenda : Agenda ℕ (Callback φ α)
  due : ℕ
  pc : CheckPc ℕ (Callback φ α)
deriving DecidableEq, Repr

namespace Schedule

/-- The time at which a cyclic timer is due next. -/
def next (q : Schedule φ α) (c : LwipCyclicTimer) : ℕ :=
  if q.due + c.intervalMs.toNat < q.agenda.now then q.agenda.now + c.intervalMs.toNat
  else q.due + c.intervalMs.toNat

def step [DecidableEq φ] [DecidableEq α] (q : Schedule φ α) : TimeoutEvent φ α → Schedule φ α
  | .tick => { q with agenda := q.agenda.advance (q.agenda.now + 1) }
  | .timeout msecs h arg =>
    { q with agenda := q.agenda.add (q.agenda.now + msecs.toNat) (.user h arg) }
  | .untimeout h arg => { q with agenda := q.agenda.cancel fun c => c = .user h arg }
  | .check =>
    match q.pc with
    | .idle => { q with pc := .checking q.agenda.now }
    | _ => q
  | .poll =>
    match q.pc, q.agenda.pending with
    | .checking _, [] => { q with pc := .idle }
    | .checking now, t :: _ =>
      if now < t.due then { q with pc := .idle }
      else
        { agenda := q.agenda.fire
          due := t.due
          pc := if TimeoutSystem.calls t.what then .handling now t.what else .checking now }
    | _, _ => q
  | .handled =>
    match q.pc with
    | .handling now (.cyclic c) =>
      { q with agenda := q.agenda.add (q.next c) (.cyclic c), pc := .checking now }
    | .handling now (.user _ _) => { q with pc := .checking now }
    | _ => q

/-- The cyclic timers are added at time 0. -/
def start : Schedule φ α :=
  ⟨lwipCyclicTimers.foldl (fun a c => a.add c.intervalMs.toNat (.cyclic c)) (.empty 0), 0, .idle⟩

def run [DecidableEq φ] [DecidableEq α] (events : List (TimeoutEvent φ α)) : Schedule φ α :=
  events.foldl step start

/-- The main loop gets round in time: no timer has been due for 2^30 ms, about twelve days, and no
call of `sys_check_timeouts` takes that long. -/
structure Polled (q : Schedule φ α) : Prop where
  pending : ∀ t ∈ q.agenda.pending, q.agenda.now < t.due + 2 ^ 30
  call : ∀ now ∈ q.pc.began, q.agenda.now < now + 2 ^ 30

instance (q : Schedule φ α) : Decidable q.Polled :=
  decidable_of_iff ((∀ t ∈ q.agenda.pending, q.agenda.now < t.due + 2 ^ 30) ∧
    ∀ now ∈ q.pc.began, q.agenda.now < now + 2 ^ 30) ⟨fun h => ⟨h.1, h.2⟩, fun h => ⟨h.1, h.2⟩⟩

end Schedule

end Cannelloni
