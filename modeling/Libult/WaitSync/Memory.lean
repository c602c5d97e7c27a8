import Libult.Interleaving.Stored
import Mathlib.Logic.Function.Basic
import Mathlib.Data.List.Basic
import Mathlib.Data.Int.Notation

/-!
# WaitSync/Memory — the sync object, the pending list and what one access does to them

The shared memory of `wait_sync.h` and `impl/base/wait_sync.c`: one record per
`ompi_wait_sync_t`, the list head, its lock and the progress counter.  A mutex is the thread that
holds it, a condition the threads asleep in it.  Every access of the code is one of the operations
below, and the simp lemmas beside them say which field it writes.
-/

namespace Libult.WaitSync

open Interleaving

/-- A thread. -/
abbrev Tid := ℕ

/-- The address of an `ompi_wait_sync_t`. -/
abbrev Sid := ℕ

/-- The status of a successful update. -/
def SUCCESS : ℤ := 0

/-- What `ompi_sync_wait_mt` returns. -/
inductive Rc
  | SUCCESS
  | ERROR
  deriving DecidableEq, Repr

/-- `ompi_wait_sync_t`.  The code computes with integers, and of `count` an `int32_t` is kept
(`Mem.ints`); where a result assumes that no decrement wraps, the two are one. -/
structure Sync where
  count : ℤ
  status : ℤ
  /-- The threads asleep in `condition`, longest asleep first. -/
  condition : List Tid
  /-- The thread that holds `lock`. -/
  lock : Option Tid
  next : Option Sid
  prev : Option Sid
  signaling : Bool
  /-- The thread that ran `WAIT_SYNC_INIT` on it; `none` is storage not yet initialised. -/
  owner : Option Tid
  deriving DecidableEq, Repr

/-- Storage before `WAIT_SYNC_INIT`. -/
def Sync.blank : Sync := ⟨0, 0, [], none, none, none, false, none⟩

/-- The memory the threads share. -/
structure Mem where
  sync : Sid → Sync
  /-- The thread that holds `wait_sync_lock`. -/
  waitSyncLock : Option Tid
  /-- `threads_base_wait_sync_list`. -/
  waitSyncList : Option Sid
  /-- `num_thread_in_progress`. -/
  numThreadInProgress : ℤ

/-- What is kept of the memory: every count is an `int32_t`. -/
def Mem.ints (m : Mem) : Mem :=
  { m with sync := fun S => { m.sync S with count := int32 (m.sync S).count } }

/-- No sync initialised, nothing pending. -/
def Mem.init : Mem := ⟨fun _ => .blank, none, none, 0⟩

namespace Mem

variable (m : Mem) (S X : Sid) (t : Tid)

/-- Write one sync. -/
def modify (f : Sync → Sync) : Mem := { m with sync := Function.update m.sync S (f (m.sync S)) }

@[simp] theorem sync_modify (f : Sync → Sync) :
    (m.modify S f).sync X = if X = S then f (m.sync S) else m.sync X := by
  simp only [modify, Function.update_apply]

@[simp] theorem waitSyncLock_modify (f : Sync → Sync) :
    (m.modify S f).waitSyncLock = m.waitSyncLock := rfl

@[simp] theorem waitSyncList_modify (f : Sync → Sync) :
    (m.modify S f).waitSyncList = m.waitSyncList := rfl

@[simp] theorem numThreadInProgress_modify (f : Sync → Sync) :
    (m.modify S f).numThreadInProgress = m.numThreadInProgress := rfl

/-- `WAIT_SYNC_INIT(sync, c)` with `using_threads()`, by the thread whose sync it is. -/
def waitSyncInit (c : ℤ) : Mem :=
  m.modify S fun _ => ⟨c, 0, [], none, none, none, decide (c ≠ 0), some t⟩

/-- `sync->count = v`. -/
def setCount (v : ℤ) : Mem := m.modify S fun s => { s with count := v }

/-- `sync->status = v`. -/
def setStatus (v : ℤ) : Mem := m.modify S fun s => { s with status := v }

/-- `sync->signaling = false`. -/
def clearSignaling : Mem := m.modify S fun s => { s with signaling := false }

/-- `sync->next = v`. -/
def setNext (v : Option Sid) : Mem := m.modify S fun s => { s with next := v }

/-- `sync->prev = v`. -/
def setPrev (v : Option Sid) : Mem := m.modify S fun s => { s with prev := v }

/-- `thread_internal_mutex_lock(&sync->lock)`, once it is free. -/
def lock : Mem := m.modify S fun s => { s with lock := some t }

/-- `thread_internal_mutex_unlock(&sync->lock)`. -/
def unlock : Mem := m.modify S fun s => { s with lock := none }

/-- The first half of `thread_internal_cond_wait`: release the lock and fall asleep, at once. -/
def sleep : Mem := m.modify S fun s => { s with lock := none, condition := s.condition ++ [t] }

/-- `thread_internal_cond_signal(&sync->condition)`: the thread asleep longest is woken. -/
def signal : Mem := m.modify S fun s => { s with condition := s.condition.tail }

/-- A spurious wake-up. -/
def wake : Mem := m.modify S fun s => { s with condition := s.condition.erase t }

/-- `mutex_lock(&wait_sync_lock)`, once it is free. -/
def lockList : Mem := { m with waitSyncLock := some t }

/-- `mutex_unlock(&wait_sync_lock)`. -/
def unlockList : Mem := { m with waitSyncLock := none }

/-- `threads_base_wait_sync_list = v`. -/
def setList (v : Option Sid) : Mem := { m with waitSyncList := v }

/-- `THREAD_ADD_FETCH32(&num_thread_in_progress, d)`. -/
def addInProgress (d : ℤ) : Mem := { m with numThreadInProgress := m.numThreadInProgress + d }

/-! ### What is kept of a count -/

section Ints

variable {m} {m' : Mem}

@[simp] theorem sync_ints :
    m.ints.sync X = { m.sync X with count := int32 (m.sync X).count } := rfl

@[simp] theorem waitSyncLock_ints : m.ints.waitSyncLock = m.waitSyncLock := rfl

@[simp] theorem waitSyncList_ints : m.ints.waitSyncList = m.waitSyncList := rfl

/-- Every count is an `int32_t`. -/
def Ints (m : Mem) : Prop := ∀ X, int32 (m.sync X).count = (m.sync X).count

theorem ints_isInts (m : Mem) : m.ints.Ints := fun X => int32_int32 (m.sync X).count

theorem Ints.ints_eq (h : m.Ints) : m.ints = m := by
  have hsync : m.ints.sync = m.sync := funext fun X => by rw [sync_ints, h X]
  exact congrArg (fun f => { m with sync := f }) hsync

theorem Ints.of_count (h : m.Ints) (hc : ∀ X, (m'.sync X).count = (m.sync X).count) : m'.Ints :=
  fun X => by rw [hc X, h X]

end Ints

end Mem

end Libult.WaitSync
