import Libult.Interleaving.Program
import Libult.Qthreads.Fifo
import Mathlib.Data.Int.Notation

/-!
# Qthreads/Cond — the condition variable of the qthreads backend, one access a step

Locations are named after the lines of `threads_qthreads_mutex.h`.  The record a wait enqueues is on
its own stack, so it is named by the thread and an offset; between calls a thread may leave anything
on its stack (`scribble`).  A spinlock is the thread that holds it; taking one that is held and
following a NULL pointer have no step.

    l108 lock ─ l109…l115 enqueue ─ l116 unlock ─▸ l118 … l122 lock ─ l123 ─ l124 unlock ─▸ l125
                                                   ╰───────────── not signaled ───────────╯
-/

namespace Libult.Qthreads

open Interleaving

/-- A thread. -/
abbrev Tid := ℕ

/-- A `thread_internal_mutex_t` other than `m_lock`. -/
abbrev Mid := ℕ

/-- A place on a thread's stack. -/
abbrev Addr := Tid × ℕ

/-- `thread_cond_waiter_t`. -/
structure Waiter where
  m_signaled : ℤ
  m_prev : Option Addr
  deriving DecidableEq, Repr

/-- The memory the threads share: one `thread_internal_cond_t`, the stacks and the mutexes. -/
structure Mem where
  /-- The thread that holds `m_lock`. -/
  m_lock : Option Tid
  m_waiter_head : Option Addr
  m_waiter_tail : Option Addr
  waiter : Addr → Waiter
  mutex : Mid → Option Tid

namespace Mem

variable (m : Mem) (t : Tid) (w w' : Addr) (mu : Mid)

/-- The links of the records. -/
def prev : Addr → Option Addr := fun w => (m.waiter w).m_prev

/-- `thread_internal_cond_init`; the stacks hold anything. -/
def condInit (waiter : Addr → Waiter) : Mem := ⟨none, none, none, waiter, fun _ => none⟩

/-- `qthread_spinlock_lock(&p_cond->m_lock)`, once it is free. -/
def lock : Mem := { m with m_lock := some t }

/-- `qthread_spinlock_unlock(&p_cond->m_lock)`. -/
def unlock : Mem := { m with m_lock := none }

/-- `p_cond->m_waiter_head = o`. -/
def setHead (o : Option Addr) : Mem := { m with m_waiter_head := o }

/-- `p_cond->m_waiter_tail = o`. -/
def setTail (o : Option Addr) : Mem := { m with m_waiter_tail := o }

/-- A whole record is written. -/
def setWaiter (r : Waiter) : Mem := { m with waiter := Function.update m.waiter w r }

/-- `w->m_prev = o`. -/
def setPrev (o : Option Addr) : Mem := m.setWaiter w { m.waiter w with m_prev := o }

/-- `w->m_signaled = 1`. -/
def setSignaled : Mem := m.setWaiter w { m.waiter w with m_signaled := 1 }

/-- `thread_internal_mutex_lock(mu)`, once it is free. -/
def lockMutex : Mem := { m with mutex := Function.update m.mutex mu (some t) }

/-- `thread_internal_mutex_unlock(mu)`. -/
def unlockMutex : Mem := { m with mutex := Function.update m.mutex mu none }

end Mem

/-! ## `thread_internal_cond_wait` -/

/-- Locations of `thread_internal_cond_wait`. -/
inductive WaitPc
  | l108 -- qthread_spinlock_lock(&p_cond->m_lock);
  | l109 -- thread_cond_waiter_t waiter = {0, NULL};
  | l110 -- if (NULL == p_cond->m_waiter_head)
  | l111 -- p_cond->m_waiter_tail = &waiter;
  | l113 -- p_cond->m_waiter_head->m_prev = &waiter;
  | l115 -- p_cond->m_waiter_head = &waiter;
  | l116 -- qthread_spinlock_unlock(&p_cond->m_lock);
  | l118 -- thread_internal_mutex_unlock(p_mutex); qthread_yield();
  | l120 -- thread_internal_mutex_lock(p_mutex);
  | l122 -- qthread_spinlock_lock(&p_cond->m_lock);
  | l123 -- int signaled = waiter.m_signaled;
  | l124 (signaled : ℤ) -- qthread_spinlock_unlock(&p_cond->m_lock);
  | l125 (signaled : ℤ) -- if (1 == signaled) break;
  deriving DecidableEq, Repr

/-- `thread_internal_cond_wait(p_cond, p_mutex)` by `t`, its record at `waiter`; `none` for the next
location is its return. -/
def condWait (t : Tid) (waiter : Addr) (p_mutex : Mid) (m : Mem) :
    WaitPc → Option (Option WaitPc × Mem × Event Addr)
  | .l108 => if m.m_lock = none then some (some .l109, m.lock t, .arrive waiter) else none
  | .l109 => some (some .l110, m.setWaiter waiter ⟨0, none⟩, .tau)
  | .l110 => some (some (if m.m_waiter_head = none then .l111 else .l113), m, .tau)
  | .l111 => some (some .l115, m.setTail (some waiter), .tau)
  | .l113 => m.m_waiter_head.map fun head => (some .l115, m.setPrev head (some waiter), .tau)
  | .l115 => some (some .l116, m.setHead (some waiter), .tau)
  | .l116 => some (some .l118, m.unlock, .tau)
  | .l118 => some (some .l120, m.unlockMutex p_mutex, .tau)
  | .l120 => if m.mutex p_mutex = none then some (some .l122, m.lockMutex t p_mutex, .tau) else none
  | .l122 => if m.m_lock = none then some (some .l123, m.lock t, .tau) else none
  | .l123 => some (some (.l124 (m.waiter waiter).m_signaled), m, .tau)
  | .l124 signaled => some (some (.l125 signaled), m.unlock, .tau)
  | .l125 signaled =>
      some (if 1 = signaled then (none, m, .back waiter) else (some .l118, m, .tau))

/-! ## `thread_internal_cond_broadcast` -/

/-- Locations of `thread_internal_cond_broadcast`. -/
inductive BroadcastPc
  | l134 -- qthread_spinlock_lock(&p_cond->m_lock);
  | l135 -- while (NULL != p_cond->m_waiter_tail)
  | l136 -- thread_cond_waiter_t *p_cur_tail = p_cond->m_waiter_tail;
  | l137 (p_cur_tail : Addr) -- p_cond->m_waiter_tail = p_cur_tail->m_prev;
  | l139 (p_cur_tail : Addr) -- p_cur_tail->m_signaled = 1;
  | l142 -- p_cond->m_waiter_head = NULL;
  | l143 -- qthread_spinlock_unlock(&p_cond->m_lock);
  deriving DecidableEq, Repr

/-- `thread_internal_cond_broadcast(p_cond)`. -/
def condBroadcast (t : Tid) (m : Mem) :
    BroadcastPc → Option (Option BroadcastPc × Mem × Event Addr)
  | .l134 => if m.m_lock = none then some (some .l135, m.lock t, .broadcast) else none
  | .l135 => some (some (if m.m_waiter_tail ≠ none then .l136 else .l142), m, .tau)
  | .l136 => m.m_waiter_tail.map fun tail => (some (.l137 tail), m, .tau)
  | .l137 cur => some (some (.l139 cur), m.setTail (m.prev cur), .tau)
  | .l139 cur => some (some .l135, m.setSignaled cur, .mark cur)
  | .l142 => some (some .l143, m.setHead none, .tau)
  | .l143 => some (none, m.unlock, .done)

/-! ## `thread_internal_cond_signal` -/

/-- Locations of `thread_internal_cond_signal`. -/
inductive SignalPc
  | l147 -- qthread_spinlock_lock(&p_cond->m_lock);
  | l148 -- if (NULL != p_cond->m_waiter_tail)
  | l149 -- thread_cond_waiter_t *p_cur_tail = p_cond->m_waiter_tail;
  | l150 (p_cur_tail : Addr) -- p_cond->m_waiter_tail = p_cur_tail->m_prev;
  | l152 (p_cur_tail : Addr) -- p_cur_tail->m_signaled = 1;
  | l153 -- if (NULL == p_cond->m_waiter_tail)
  | l154 -- p_cond->m_waiter_head = NULL;
  | l157 -- qthread_spinlock_unlock(&p_cond->m_lock);
  deriving DecidableEq, Repr

/-- `thread_internal_cond_signal(p_cond)`. -/
def condSignal (t : Tid) (m : Mem) : SignalPc → Option (Option SignalPc × Mem × Event Addr)
  | .l147 => if m.m_lock = none then some (some .l148, m.lock t, .signal) else none
  | .l148 => some (some (if m.m_waiter_tail ≠ none then .l149 else .l157), m, .tau)
  | .l149 => m.m_waiter_tail.map fun tail => (some (.l150 tail), m, .tau)
  | .l150 cur => some (some (.l152 cur), m.setTail (m.prev cur), .tau)
  | .l152 cur => some (some .l153, m.setSignaled cur, .mark cur)
  | .l153 => some (some (if m.m_waiter_tail = none then .l154 else .l157), m, .tau)
  | .l154 => some (some .l157, m.setHead none, .tau)
  | .l157 => some (none, m.unlock, .done)

/-! ## The program -/

/-- Where a thread is. -/
inductive Loc
  | idle
  | wait (frame : ℕ) (p_mutex : Mid) (pc : WaitPc)
  | broadcast (pc : BroadcastPc)
  | signal (pc : SignalPc)
  deriving DecidableEq, Repr

/-- What a thread can do next. -/
inductive Act
  /-- Take and release a mutex around the calls. -/
  | lock (mu : Mid)
  | unlock (mu : Mid)
  /-- Use the stack for something else. -/
  | scribble (frame : ℕ) (r : Waiter)
  /-- Call `thread_internal_cond_wait` with a mutex it holds, the record at `frame`. -/
  | wait (frame : ℕ) (p_mutex : Mid)
  | broadcast
  | signal
  /-- Execute the line it is at. -/
  | run
  deriving DecidableEq, Repr

/-- One action of one thread. -/
def exec (t : Tid) (a : Act) (l : Loc) (m : Mem) : Option (Loc × Mem × Event Addr) :=
  match a, l with
  | .lock mu, .idle => if m.mutex mu = none then some (.idle, m.lockMutex t mu, .tau) else none
  | .unlock mu, .idle =>
      if m.mutex mu = some t then some (.idle, m.unlockMutex mu, .tau) else none
  | .scribble k r, .idle => some (.idle, m.setWaiter (t, k) r, .tau)
  | .wait k mu, .idle => if m.mutex mu = some t then some (.wait k mu .l108, m, .tau) else none
  | .broadcast, .idle => some (.broadcast .l134, m, .tau)
  | .signal, .idle => some (.signal .l147, m, .tau)
  | .run, .wait k mu pc =>
      (condWait t (t, k) mu m pc).map fun r => (r.1.elim .idle (.wait k mu), r.2.1, r.2.2)
  | .run, .broadcast pc =>
      (condBroadcast t m pc).map fun r => (r.1.elim .idle .broadcast, r.2.1, r.2.2)
  | .run, .signal pc =>
      (condSignal t m pc).map fun r => (r.1.elim .idle .signal, r.2.1, r.2.2)
  | _, _ => none

/-- **The condition variable of the qthreads backend** as a program. -/
def cond : Program Tid Loc Mem Act (Event Addr) := ⟨exec⟩

/-- A state of it. -/
abbrev St := State Tid Loc Mem

/-- Nobody inside, the condition initialised, the stacks holding anything. -/
def start (waiter : Addr → Waiter) : St := ⟨fun _ => .idle, .condInit waiter⟩

/-! ## The ways a thread moves -/

/-- **Every step**: between the calls, or one line of one of them. -/
inductive Moves (t : Tid) : Loc → Mem → Loc → Mem → Event Addr → Prop
  | lock {m : Mem} {mu : Mid} : m.mutex mu = none →
      Moves t .idle m .idle (m.lockMutex t mu) .tau
  | unlock {m : Mem} {mu : Mid} : m.mutex mu = some t →
      Moves t .idle m .idle (m.unlockMutex mu) .tau
  | scribble {m : Mem} {k : ℕ} {r : Waiter} : Moves t .idle m .idle (m.setWaiter (t, k) r) .tau
  | callWait {m : Mem} {k : ℕ} {mu : Mid} : m.mutex mu = some t →
      Moves t .idle m (.wait k mu .l108) m .tau
  | callBroadcast {m : Mem} : Moves t .idle m (.broadcast .l134) m .tau
  | callSignal {m : Mem} : Moves t .idle m (.signal .l147) m .tau
  | wait {m m' : Mem} {k : ℕ} {mu : Mid} {pc : WaitPc} {pc' : Option WaitPc} {e : Event Addr} :
      condWait t (t, k) mu m pc = some (pc', m', e) →
      Moves t (.wait k mu pc) m (pc'.elim .idle (.wait k mu)) m' e
  | broadcast {m m' : Mem} {pc : BroadcastPc} {pc' : Option BroadcastPc} {e : Event Addr} :
      condBroadcast t m pc = some (pc', m', e) →
      Moves t (.broadcast pc) m (pc'.elim .idle .broadcast) m' e
  | signal {m m' : Mem} {pc : SignalPc} {pc' : Option SignalPc} {e : Event Addr} :
      condSignal t m pc = some (pc', m', e) →
      Moves t (.signal pc) m (pc'.elim .idle .signal) m' e

theorem moves_of_exec {t : Tid} {a : Act} {l l' : Loc} {m m' : Mem} {e : Event Addr}
    (h : exec t a l m = some (l', m', e)) : Moves t l m l' m' e := by
  unfold exec at h
  split at h <;> simp only [Option.ite_none_right_eq_some, Option.map_eq_some_iff,
    Option.some.injEq, Prod.mk.injEq, Prod.exists, reduceCtorEq] at h
  · obtain ⟨hm, rfl, rfl, rfl⟩ := h
    exact .lock hm
  · obtain ⟨hm, rfl, rfl, rfl⟩ := h
    exact .unlock hm
  · obtain ⟨rfl, rfl, rfl⟩ := h
    exact .scribble
  · obtain ⟨hm, rfl, rfl, rfl⟩ := h
    exact .callWait hm
  · obtain ⟨rfl, rfl, rfl⟩ := h
    exact .callBroadcast
  · obtain ⟨rfl, rfl, rfl⟩ := h
    exact .callSignal
  · obtain ⟨pc', m₁, e₁, hl, rfl, rfl, rfl⟩ := h
    exact .wait hl
  · obtain ⟨pc', m₁, e₁, hl, rfl, rfl, rfl⟩ := h
    exact .broadcast hl
  · obtain ⟨pc', m₁, e₁, hl, rfl, rfl, rfl⟩ := h
    exact .signal hl

end Libult.Qthreads
