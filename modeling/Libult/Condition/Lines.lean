import Libult.Condition.Code

/-!
# Condition/Lines — `condition_t` line by line, with threads and without

A thread is a stack of calls: `progress()` may make calls of its own before it returns.  With threads
a call is made by whoever holds `m`, and gives `m` back around its `progress()`; without threads
there is one thread, and nothing but the stack keeps its calls apart.

    condition_wait        27 ─▸ 29 ─┬─▸ 30 ─┬─▸ 31 ─▸ 32 ─▸ 33 ─▸ 34
                                    │       ╰─▸ 37 ◂─▸ 38, 39, 40
                                    │            ╰─▸ 48 ─▸ 49
                                    ╰─▸ 43 ◂─▸ 44 ╯
    condition_timedwait   59 ─▸ 60 ─┬─▸ 63 ─▸ 64 ─┬─▸ 66, 67, 68, 69 ◂─▸ 70
                                    │             ╰─▸ 88 ─▸ 89 ─▸ 91
                                    ╰─▸ 77 ─▸ 78 ─┴─▸ 80, 81 ◂─▸ 82
-/

namespace Libult.Condition

open Interleaving

namespace Mem

variable (m : Mem) (t : Tid)

def lock : Mem := { m with mutex := some t }

def unlock : Mem := { m with mutex := none }

def setWaiting (v : ℤ) : Mem := { m with cond := { m.cond with c_waiting := v } }

def setSignaled (v : ℤ) : Mem := { m with cond := { m.cond with c_signaled := v } }

end Mem

/-- The deadline's part in the tests of `condition_timedwait`. -/
def Timeval.before (tv absolute : Timeval) : Prop :=
  tv.tv_sec ≤ absolute.tv_sec ∨ (tv.tv_sec = absolute.tv_sec ∧ tv.tv_usec < absolute.tv_usec)

instance (tv absolute : Timeval) : Decidable (tv.before absolute) :=
  inferInstanceAs (Decidable (_ ∨ _))

namespace Lines

/-- What a line shows of itself: `c_waiting++`, `c_waiting--`, `c_signaled--`. -/
inductive Event
  | tau
  | registered
  | deregistered
  | consumed
  deriving DecidableEq, Repr

/-! ## The calls -/

/-- The lines of `condition_wait`; a location names the line executed next. -/
inductive WaitPc
  | l27
  | l29
  | l30
  | l31
  | l32
  /-- `progress()`. -/
  | l33
  | l34
  | l37
  | l38
  /-- `progress()`. -/
  | l39
  | l40
  | l43
  /-- `progress()`. -/
  | l44
  | l48
  | l49
  deriving DecidableEq, Repr

/-- `condition_wait(c, m)`; `none` for the next location is its return. -/
def conditionWait (usingThreads : Bool) (t : Tid) (m : Mem) :
    WaitPc → Option (Option WaitPc × Mem × Event)
  | .l27 => some (some .l29, m.setWaiting (m.cond.c_waiting + 1), .registered)
  | .l29 => some (some (if usingThreads then .l30 else .l43), m, .tau)
  | .l30 => some (some (if m.cond.c_signaled ≠ 0 then .l31 else .l37), m, .tau)
  | .l31 => some (some .l32, m.setWaiting (m.cond.c_waiting - 1), .deregistered)
  | .l32 => some (some .l33, m.unlock, .tau)
  | .l33 => some (some .l34, m, .tau)
  | .l34 => if m.mutex = none then some (none, m.lock t, .tau) else none
  | .l37 => some (some (if 0 = m.cond.c_signaled then .l38 else .l48), m, .tau)
  | .l38 => some (some .l39, m.unlock, .tau)
  | .l39 => some (some .l40, m, .tau)
  | .l40 => if m.mutex = none then some (some .l37, m.lock t, .tau) else none
  | .l43 => some (some (if 0 = m.cond.c_signaled then .l44 else .l48), m, .tau)
  | .l44 => some (some .l43, m, .tau)
  | .l48 => some (some .l49, m.setSignaled (m.cond.c_signaled - 1), .consumed)
  | .l49 => some (none, m.setWaiting (m.cond.c_waiting - 1), .deregistered)

/-- The lines of `condition_timedwait`. -/
inductive TimedwaitPc
  | l59
  | l60
  | l63
  | l64
  | l66
  /-- `progress()`. -/
  | l67
  | l68
  | l69
  | l70
  | l77
  | l78
  /-- `progress()`. -/
  | l80
  | l81
  | l82
  | l88
  | l89
  | l91
  deriving DecidableEq, Repr

/-- `condition_timedwait(c, m, abstime)`, its local `tv` and `gettimeofday`, which shows `now`. -/
def conditionTimedwait (usingThreads : Bool) (t : Tid) (now : Timeval) (m : Mem)
    (abstime : Timespec) (tv : Timeval) :
    TimedwaitPc → Option (Option (Timeval × TimedwaitPc) × Mem × Event)
  | .l59 => some (some (tv, .l60), m.setWaiting (m.cond.c_waiting + 1), .registered)
  | .l60 => some (some (tv, if usingThreads then .l63 else .l77), m, .tau)
  | .l63 => some (some (now, .l64), m, .tau)
  | .l64 => some (some (tv, if 0 = m.cond.c_signaled then .l66 else .l88), m, .tau)
  | .l66 => some (some (tv, .l67), m.unlock, .tau)
  | .l67 => some (some (tv, .l68), m, .tau)
  | .l68 => some (some (now, .l69), m, .tau)
  | .l69 => if m.mutex = none then some (some (tv, .l70), m.lock t, .tau) else none
  | .l70 => some (some (tv, if 0 = m.cond.c_signaled ∧ tv.before abstime.absolute then .l66
      else .l88), m, .tau)
  | .l77 => some (some (now, .l78), m, .tau)
  | .l78 => some (some (tv, if 0 = m.cond.c_signaled then .l80 else .l88), m, .tau)
  | .l80 => some (some (tv, .l81), m, .tau)
  | .l81 => some (some (now, .l82), m, .tau)
  | .l82 => some (some (tv, if 0 = m.cond.c_signaled ∧ tv.before abstime.absolute then .l80
      else .l88), m, .tau)
  | .l88 => some (some (tv, if 0 ≠ m.cond.c_signaled then .l89 else .l91), m, .tau)
  | .l89 => some (some (tv, .l91), m.setSignaled (m.cond.c_signaled - 1), .consumed)
  | .l91 => some (none, m.setWaiting (m.cond.c_waiting - 1), .deregistered)

/-- The lines of `condition_signal`. -/
inductive SignalPc
  | l96
  | l97
  deriving DecidableEq, Repr

/-- `condition_signal(c)`. -/
def conditionSignal (m : Mem) : SignalPc → Option SignalPc × Mem
  | .l96 => (if m.cond.c_waiting ≠ 0 then some .l97 else none, m)
  | .l97 => (none, m.setSignaled (m.cond.c_signaled + 1))

/-- `condition_broadcast(c)`: one line. -/
def conditionBroadcast (m : Mem) : Mem := m.setSignaled m.cond.c_waiting

/-! ## The program -/

/-- A call in progress. -/
inductive Frame
  | wait (pc : WaitPc)
  | timedwait (abstime : Timespec) (tv : Timeval) (pc : TimedwaitPc)
  | signal (pc : SignalPc)
  | broadcast
  deriving DecidableEq, Repr

/-- The next line of a call, the clock showing `now`. -/
def Frame.line (usingThreads : Bool) (t : Tid) (now : Timeval) (m : Mem) :
    Frame → Option (Option Frame × Mem × Event)
  | .wait pc => (conditionWait usingThreads t m pc).map fun r => (r.1.map .wait, r.2)
  | .timedwait abstime tv pc => (conditionTimedwait usingThreads t now m abstime tv pc).map
      fun r => (r.1.map fun q => .timedwait abstime q.1 q.2, r.2)
  | .signal pc => some ((conditionSignal m pc).1.map .signal, (conditionSignal m pc).2, .tau)
  | .broadcast => some (none, conditionBroadcast m, .tau)

/-- The call is in `progress()`. -/
def Frame.inProgress : Frame → Bool
  | .wait pc => pc = .l33 ∨ pc = .l39 ∨ pc = .l44
  | .timedwait _ _ pc => pc = .l67 ∨ pc = .l80
  | _ => false

/-- What a thread can do next. -/
inductive Act
  /-- The next line of the innermost call, the clock showing `now`. -/
  | run (now : Timeval)
  /-- Take and give back `m` around the calls. -/
  | lock
  | unlock
  /-- Make a call. -/
  | call (f : Frame)
  deriving DecidableEq, Repr

/-- A call starts at its first line. -/
def Frame.starts : Frame → Bool
  | .wait pc => pc = .l27
  | .timedwait _ _ pc => pc = .l59
  | .signal pc => pc = .l96
  | .broadcast => true

/-- The thread is in its own code: outside the calls, or in the `progress()` of one. -/
def ownCode : List Frame → Bool
  | [] => true
  | f :: _ => f.inProgress

/-- One action of one thread, on the stack of its calls.  With threads the calls are made with `m`
held. -/
def exec (usingThreads : Bool) (t : Tid) (a : Act) (k : List Frame) (m : Mem) :
    Option (List Frame × Mem × Event) :=
  match a, k with
  | .run now, f :: k =>
      (f.line usingThreads t now m).map fun r => (r.1.toList ++ k, r.2)
  | .run _, [] => none
  | .lock, k =>
      if ownCode k = true ∧ m.mutex = none then some (k, m.lock t, .tau) else none
  | .unlock, k =>
      if ownCode k = true ∧ m.mutex = some t then some (k, m.unlock, .tau) else none
  | .call f, k =>
      if ownCode k = true ∧ f.starts = true ∧ (usingThreads = true → m.mutex = some t) then
        some (f :: k, m, .tau)
      else none

/-- **The condition variable, line by line**, its counters integers. -/
def lines (usingThreads : Bool) : Program Tid (List Frame) Mem Act Event := ⟨exec usingThreads⟩

/-- **…and with its counters in `int`s.** -/
def intLines (usingThreads : Bool) : Program Tid (List Frame) Mem Act Event :=
  (lines usingThreads).stored Mem.ints

/-- A state of it. -/
abbrev St := State Tid (List Frame) Mem

/-- A constructed condition, `m` free, nobody in a call. -/
def start : St := ⟨fun _ => [], ⟨conditionConstruct, none⟩⟩

end Lines

end Libult.Condition
