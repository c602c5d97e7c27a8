import Libult.Condition.Code

/-!
# Threads/Code — `ACQUIRE_THREAD`, `RELEASE_THREAD` and `WAKEUP_THREAD`, one shared access a step

The macros of `threads.h` over the flag `*act`, the mutex `lck` and the condition `cnd`, with
`using_threads()`.  Waiting and releasing happen under `lck`; `WAKEUP_THREAD` takes no lock, so here
`condition_wait` and `condition_broadcast` are not stretches: every load and every store of the flag
and of the counters is a step, and what has been loaded stays in the location.

    out ─ACQUIRE─▸ 49 ─▸ 52 ─ *act = true ─▸ inside ◂─▸ apart
          *act: 50 ╰─ condition_wait ─╯        ╰─ RELEASE ─▸ out
-/

namespace Libult.Threads

open Interleaving Condition

/-- What the threads share. -/
structure Mem where
  /-- The counters of `cnd`. -/
  cond : Counters
  act : Bool
  /-- The thread that holds `lck`. -/
  lck : Option Tid
  deriving DecidableEq, Repr

namespace Mem

variable (m : Mem)

/-- `c->c_waiting = v`. -/
def setWaiting (v : ℤ) : Mem := { m with cond := { m.cond with c_waiting := v } }

/-- `c->c_signaled = v`. -/
def setSignaled (v : ℤ) : Mem := { m with cond := { m.cond with c_signaled := v } }

/-- `*(act) = v`. -/
def setAct (v : Bool) : Mem := { m with act := v }

/-- `mutex_lock`, once it is free. -/
def lock (t : Tid) : Mem := { m with lck := some t }

/-- `mutex_unlock`. -/
def unlock : Mem := { m with lck := none }

end Mem

/-- What a step shows: the accesses to the flag, and the end of a wake-up. -/
inductive Event
  | tau
  /-- `ACQUIRE_THREAD` has set the flag. -/
  | taken
  /-- `WAKEUP_THREAD` has cleared the flag, and has broadcast. -/
  | cleared (t : Tid)
  | woken (t : Tid)
  deriving DecidableEq, Repr

/-! ## `condition_wait` and `condition_broadcast` -/

/-- Locations of `condition_wait`, named after the line of `condition.h`; `w` is a line that has
loaded a counter and is about to store it back. -/
inductive WaitPc
  | l27 -- c->c_waiting++;
  | l27w (v : ℤ)
  | l30 -- if (c->c_signaled)
  | l31 -- c->c_waiting--;
  | l31w (v : ℤ)
  | l32 -- mutex_unlock(m);
  | l33 -- progress();
  | l34 -- mutex_lock(m); return rc;
  | l37 -- while (0 == c->c_signaled)
  | l38 -- mutex_unlock(m);
  | l39 -- progress();
  | l40 -- mutex_lock(m);
  | l48 -- c->c_signaled--;
  | l48w (v : ℤ)
  | l49 -- c->c_waiting--; return rc;
  | l49w (v : ℤ)
  deriving DecidableEq, Repr

/-- `condition_wait(c, m)`; `none` for the next location is its return. -/
def conditionWait (t : Tid) (m : Mem) : WaitPc → Option (Option WaitPc × Mem)
  | .l27 => some (some (.l27w m.cond.c_waiting), m)
  | .l27w v => some (some .l30, m.setWaiting (v + 1))
  | .l30 => some (some (if m.cond.c_signaled ≠ 0 then .l31 else .l37), m)
  | .l31 => some (some (.l31w m.cond.c_waiting), m)
  | .l31w v => some (some .l32, m.setWaiting (v - 1))
  | .l32 => some (some .l33, m.unlock)
  | .l33 => some (some .l34, m)
  | .l34 => if m.lck = none then some (none, m.lock t) else none
  | .l37 => some (some (if 0 = m.cond.c_signaled then .l38 else .l48), m)
  | .l38 => some (some .l39, m.unlock)
  | .l39 => some (some .l40, m)
  | .l40 => if m.lck = none then some (some .l37, m.lock t) else none
  | .l48 => some (some (.l48w m.cond.c_signaled), m)
  | .l48w v => some (some .l49, m.setSignaled (v - 1))
  | .l49 => some (some (.l49w m.cond.c_waiting), m)
  | .l49w v => some (none, m.setWaiting (v - 1))

/-- Locations of `condition_broadcast`. -/
inductive BroadcastPc
  | l103 -- c->c_signaled = c->c_waiting;
  | l103w (v : ℤ)
  deriving DecidableEq, Repr

/-- `condition_broadcast(c)`; `none` for the next location is its return. -/
def conditionBroadcast (m : Mem) : BroadcastPc → Option BroadcastPc × Mem
  | .l103 => (some (.l103w m.cond.c_waiting), m)
  | .l103w v => (none, m.setSignaled v)

/-! ## The macros -/

/-- Locations of `ACQUIRE_THREAD`, named after the line of `threads.h`. -/
inductive AcquirePc
  | l48 -- THREAD_LOCK((lck));
  | l49 -- while (*(act))
  | l50 (pc : WaitPc) -- condition_wait((cnd), (lck));
  | l52 -- *(act) = true;
  deriving DecidableEq, Repr

/-- Locations of `RELEASE_THREAD`. -/
inductive ReleasePc
  | l69 -- *(act) = false;
  | l70 (pc : BroadcastPc) -- condition_broadcast((cnd));
  | l71 -- THREAD_UNLOCK((lck));
  deriving DecidableEq, Repr

/-- Locations of `WAKEUP_THREAD`. -/
inductive WakeupPc
  | l77 -- *(act) = false;
  | l78 (pc : BroadcastPc) -- condition_broadcast((cnd));
  deriving DecidableEq, Repr

/-- Where a thread is with the flag. -/
inductive Frame
  | out
  | acquire (pc : AcquirePc)
  /-- Between `ACQUIRE_THREAD` and `RELEASE_THREAD`, with `lck`… -/
  | inside
  /-- …and having released it for the time being. -/
  | apart
  | release (pc : ReleasePc)
  deriving DecidableEq, Repr

/-- `ACQUIRE_THREAD(lck, cnd, act)`. -/
def acquireThread (t : Tid) (m : Mem) : AcquirePc → Option (Frame × Mem × Event)
  | .l48 => if m.lck = none then some (.acquire .l49, m.lock t, .tau) else none
  | .l49 => some (.acquire (if m.act then .l50 .l27 else .l52), m, .tau)
  | .l50 pc => (conditionWait t m pc).map fun r => (.acquire (r.1.elim .l49 .l50), r.2, .tau)
  | .l52 => some (.inside, m.setAct true, .taken)

/-- `RELEASE_THREAD(lck, cnd, act)`. -/
def releaseThread (m : Mem) : ReleasePc → Frame × Mem × Event
  | .l69 => (.release (.l70 .l103), m.setAct false, .tau)
  | .l70 pc =>
      let r := conditionBroadcast m pc
      (.release (r.1.elim .l71 .l70), r.2, .tau)
  | .l71 => (.out, m.unlock, .tau)

/-- `WAKEUP_THREAD(cnd, act)`; `none` for the next location is its end. -/
def wakeupThread (t : Tid) (m : Mem) : WakeupPc → Option WakeupPc × Mem × Event
  | .l77 => (some (.l78 .l103), m.setAct false, .cleared t)
  | .l78 pc =>
      let r := conditionBroadcast m pc
      (r.1.map .l78, r.2, if r.1 = none then .woken t else .tau)

/-! ## The program -/

/-- A thread, and the `WAKEUP_THREAD` it is executing, from `progress()` perhaps. -/
structure Thread where
  frame : Frame
  waking : Option WakeupPc
  deriving DecidableEq, Repr

/-- What a thread can do next. -/
inductive Act
  | acquire
  | release
  | wakeup
  /-- Release and take `lck` again between `ACQUIRE_THREAD` and `RELEASE_THREAD`. -/
  | unlock
  | lock
  /-- Execute the next line. -/
  | run
  deriving DecidableEq, Repr

/-- Where a thread may begin a `WAKEUP_THREAD`: `progress()` included. -/
def Frame.mayWake : Frame → Bool
  | .out | .inside | .apart | .acquire (.l50 .l33) | .acquire (.l50 .l39) => true
  | _ => false

/-- One action of one thread. -/
def exec (t : Tid) (a : Act) (th : Thread) (m : Mem) : Option (Thread × Mem × Event) :=
  match a, th with
  | .acquire, ⟨.out, none⟩ => some (⟨.acquire .l48, none⟩, m, .tau)
  | .release, ⟨.inside, none⟩ => some (⟨.release .l69, none⟩, m, .tau)
  | .unlock, ⟨.inside, none⟩ => some (⟨.apart, none⟩, m.unlock, .tau)
  | .lock, ⟨.apart, none⟩ =>
      if m.lck = none then some (⟨.inside, none⟩, m.lock t, .tau) else none
  | .wakeup, ⟨frame, none⟩ =>
      if frame.mayWake then some (⟨frame, some .l77⟩, m, .tau) else none
  | .run, ⟨frame, some pc⟩ =>
      let r := wakeupThread t m pc
      some (⟨frame, r.1⟩, r.2.1, r.2.2)
  | .run, ⟨.acquire pc, none⟩ =>
      (acquireThread t m pc).map fun r => (⟨r.1, none⟩, r.2.1, r.2.2)
  | .run, ⟨.release pc, none⟩ =>
      let r := releaseThread m pc
      some (⟨r.1, none⟩, r.2.1, r.2.2)
  | _, _ => none

/-- **The thread macros** as a program. -/
def threads : Program Tid Thread Mem Act Event := ⟨exec⟩

/-- A state of it. -/
abbrev St := State Tid Thread Mem

/-- A constructed condition, `lck` free, the flag as given. -/
def start (act : Bool) : St := ⟨fun _ => ⟨.out, none⟩, ⟨conditionConstruct, act, none⟩⟩

/-! ## The ways a thread moves -/

/-- **What a step is**: a line of one of the macros, or an action between them. -/
inductive Moves (t : Tid) : Act → Thread → Mem → Thread → Mem → Event → Prop
  | wait {pc : WaitPc} {o : Option WaitPc} {m m' : Mem} : conditionWait t m pc = some (o, m') →
      Moves t .run ⟨.acquire (.l50 pc), none⟩ m ⟨.acquire (o.elim .l49 .l50), none⟩ m' .tau
  | enter {m : Mem} : m.lck = none →
      Moves t .run ⟨.acquire .l48, none⟩ m ⟨.acquire .l49, none⟩ (m.lock t) .tau
  | test {m : Mem} : m.act = true →
      Moves t .run ⟨.acquire .l49, none⟩ m ⟨.acquire (.l50 .l27), none⟩ m .tau
  | find {m : Mem} : m.act = false →
      Moves t .run ⟨.acquire .l49, none⟩ m ⟨.acquire .l52, none⟩ m .tau
  | take {m : Mem} : Moves t .run ⟨.acquire .l52, none⟩ m ⟨.inside, none⟩ (m.setAct true) .taken
  | clear {m : Mem} : Moves t .run ⟨.release .l69, none⟩ m ⟨.release (.l70 .l103), none⟩
      (m.setAct false) .tau
  | load {m : Mem} : Moves t .run ⟨.release (.l70 .l103), none⟩ m
      ⟨.release (.l70 (.l103w m.cond.c_waiting)), none⟩ m .tau
  | store {v : ℤ} {m : Mem} : Moves t .run ⟨.release (.l70 (.l103w v)), none⟩ m
      ⟨.release .l71, none⟩ (m.setSignaled v) .tau
  | leave {m : Mem} : Moves t .run ⟨.release .l71, none⟩ m ⟨.out, none⟩ m.unlock .tau
  | wakeClear {f : Frame} {m : Mem} : Moves t .run ⟨f, some .l77⟩ m ⟨f, some (.l78 .l103)⟩
      (m.setAct false) (.cleared t)
  | wakeLoad {f : Frame} {m : Mem} : Moves t .run ⟨f, some (.l78 .l103)⟩ m
      ⟨f, some (.l78 (.l103w m.cond.c_waiting))⟩ m .tau
  | wakeStore {f : Frame} {v : ℤ} {m : Mem} : Moves t .run ⟨f, some (.l78 (.l103w v))⟩ m
      ⟨f, none⟩ (m.setSignaled v) (.woken t)
  | callAcquire {m : Mem} : Moves t .acquire ⟨.out, none⟩ m ⟨.acquire .l48, none⟩ m .tau
  | callRelease {m : Mem} : Moves t .release ⟨.inside, none⟩ m ⟨.release .l69, none⟩ m .tau
  | callWakeup {f : Frame} {m : Mem} : f.mayWake = true →
      Moves t .wakeup ⟨f, none⟩ m ⟨f, some .l77⟩ m .tau
  | unlock {m : Mem} : Moves t .unlock ⟨.inside, none⟩ m ⟨.apart, none⟩ m.unlock .tau
  | lock {m : Mem} : m.lck = none →
      Moves t .lock ⟨.apart, none⟩ m ⟨.inside, none⟩ (m.lock t) .tau

/-- **Every step is one of these moves.** -/
theorem moves_of_exec {t : Tid} {a : Act} {th th' : Thread} {m m' : Mem} {e : Event}
    (h : exec t a th m = some (th', m', e)) : Moves t a th m th' m' e := by
  unfold exec at h
  split at h
  · obtain ⟨rfl, rfl, rfl⟩ : _ = th' ∧ _ = m' ∧ _ = e := by simpa using h
    exact .callAcquire
  · obtain ⟨rfl, rfl, rfl⟩ : _ = th' ∧ _ = m' ∧ _ = e := by simpa using h
    exact .callRelease
  · obtain ⟨rfl, rfl, rfl⟩ : _ = th' ∧ _ = m' ∧ _ = e := by simpa using h
    exact .unlock
  · obtain ⟨hfree, rfl, rfl, rfl⟩ : m.lck = none ∧ _ = th' ∧ _ = m' ∧ _ = e := by simpa using h
    exact .lock hfree
  · obtain ⟨hf, rfl, rfl, rfl⟩ : _ = true ∧ _ = th' ∧ _ = m' ∧ _ = e := by simpa using h
    exact .callWakeup hf
  · rename_i pc
    simp only [Option.some.injEq, Prod.mk.injEq] at h
    obtain ⟨rfl, rfl, rfl⟩ := h
    cases pc with
    | l77 => exact .wakeClear
    | l78 pc => cases pc; exacts [.wakeLoad, .wakeStore]
  · rename_i pc
    obtain ⟨⟨f, m₁, e₁⟩, hx, hr⟩ := Option.map_eq_some_iff.mp h
    obtain ⟨rfl, rfl, rfl⟩ : _ = th' ∧ m₁ = m' ∧ e₁ = e := by simpa using hr
    cases pc with
    | l48 =>
      obtain ⟨hfree, rfl, rfl, rfl⟩ : m.lck = none ∧ _ = f ∧ _ = m₁ ∧ _ = e₁ := by
        simpa [acquireThread] using hx
      exact .enter hfree
    | l49 =>
      obtain ⟨rfl, rfl, rfl⟩ : _ = f ∧ _ = m₁ ∧ _ = e₁ := by simpa [acquireThread] using hx
      split
      · exact .test ‹_›
      · exact .find (Bool.not_eq_true _ ▸ ‹_›)
    | l50 pc =>
      obtain ⟨⟨o, m₂⟩, hw, hr⟩ := Option.map_eq_some_iff.mp hx
      obtain ⟨rfl, rfl, rfl⟩ : _ = f ∧ m₂ = m₁ ∧ _ = e₁ := by simpa using hr
      exact .wait hw
    | l52 =>
      obtain ⟨rfl, rfl, rfl⟩ : _ = f ∧ _ = m₁ ∧ _ = e₁ := by simpa [acquireThread] using hx
      exact .take
  · rename_i pc
    simp only [Option.some.injEq, Prod.mk.injEq] at h
    obtain ⟨rfl, rfl, rfl⟩ := h
    cases pc with
    | l69 => exact .clear
    | l70 pc => cases pc; exacts [.load, .store]
    | l71 => exact .leave
  · cases h

end Libult.Threads
