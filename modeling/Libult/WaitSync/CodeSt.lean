import Libult.WaitSync.Code

/-!
# WaitSync/CodeSt — the module without `using_threads()`

One thread waits in `sync_wait_st`; the updates and the global wakeups are calls it makes from its
`progress()`.  `WAIT_SYNC_SIGNAL` is empty, and the list is the one sync, `NULL` after it.

    66 ─▸ 67 ─▸ 68 ─▸ 70 ◂─▸ 71 progress()
                       ╰─▸ 73 ─▸ 75
-/

namespace Libult.WaitSync

open Interleaving

/-- Locations of `wait_sync_update`; without threads `WAIT_SYNC_SIGNAL` is empty. -/
inductive UpdateStPc
  | l110 -- if (LIKELY(SUCCESS == status))
  | l111 -- if (0 != (THREAD_ADD_FETCH32(&sync->count, -updates))) return;
  | l116 -- sync->status = status;
  | l118 -- atomic_swap_32(&sync->count, 0);
  deriving DecidableEq, Repr

/-- `wait_sync_update(sync, updates, status)` without threads; `none` for the next location is its
return. -/
def waitSyncUpdateSt (sync : Sid) (updates status : ℤ) (m : Mem) :
    UpdateStPc → Option UpdateStPc × Mem
  | .l110 => (some (if SUCCESS = status then .l111 else .l116), m)
  | .l111 => (none, m.setCount sync ((m.sync sync).count + -updates))
  | .l116 => (some .l118, m.setStatus sync status)
  | .l118 => (none, m.setCount sync 0)

/-- Locations of `threads_base_wait_sync_global_wakeup_mt`, run without threads. -/
inductive WakeupMtStPc
  | l17 -- mutex_lock(&wait_sync_lock);
  | l18 -- sync = threads_base_wait_sync_list; sync != NULL
  | l24 (sync : Sid) (pc : UpdateStPc) -- wait_sync_update(sync, 0, status);
  | l25 (sync : Sid) -- if (sync->next == threads_base_wait_sync_list) break;
  | l18n (sync : Sid) -- sync = sync->next; sync != NULL
  | l29 -- mutex_unlock(&wait_sync_lock);
  deriving DecidableEq, Repr

/-- The loop head: update the sync, or leave when there is none. -/
def WakeupMtStPc.next : Option Sid → WakeupMtStPc × Event
  | none => (.l29, .tau)
  | some sync => (.l24 sync .l110, .visited sync)

/-- `threads_base_wait_sync_global_wakeup_mt(status)` without threads; `none` for the next location
is its return. -/
def globalWakeupMtSt (t : Tid) (status : ℤ) (m : Mem) :
    WakeupMtStPc → Option (Option WakeupMtStPc × Mem × Event)
  | .l17 => if m.waitSyncLock = none then some (some .l18, m.lockList t, .tau) else none
  | .l18 =>
      let r := WakeupMtStPc.next m.waitSyncList
      some (some r.1, m, r.2)
  | .l24 sync pc =>
      let r := waitSyncUpdateSt sync 0 status m pc
      some (some (r.1.elim (.l25 sync) (.l24 sync)), r.2, .tau)
  | .l25 sync =>
      some (some (if (m.sync sync).next = m.waitSyncList then .l29 else .l18n sync), m, .tau)
  | .l18n sync =>
      let r := WakeupMtStPc.next (m.sync sync).next
      some (some r.1, m, r.2)
  | .l29 => some (none, m.unlockList, .tau)

/-- Locations of `sync_wait_st`. -/
inductive WaitStPc
  | l66 -- assert(NULL == threads_base_wait_sync_list);
  | l67 -- assert(NULL == sync->next);
  | l68 -- threads_base_wait_sync_list = sync;
  | l70 -- while (sync->count > 0)
  | l71 -- progress();
  | l73 -- threads_base_wait_sync_list = NULL;
  | l75 -- return sync->status;
  deriving DecidableEq, Repr

/-- Where the thread is with its sync. -/
inductive FrameSt
  | wait (sync : Sid) (pc : WaitStPc)
  | back (sync : Sid) (rc : ℤ)
  deriving DecidableEq, Repr

/-- `sync_wait_st(sync)`; an assertion that fails has no step. -/
def syncWaitSt (sync : Sid) (m : Mem) : WaitStPc → Option (FrameSt × Mem)
  | .l66 => if m.waitSyncList = none then some (.wait sync .l67, m) else none
  | .l67 => if (m.sync sync).next = none then some (.wait sync .l68, m) else none
  | .l68 => some (.wait sync .l70, m.setList (some sync))
  | .l70 => some (.wait sync (if 0 < (m.sync sync).count then .l71 else .l73), m)
  | .l71 => some (.wait sync .l70, m)
  | .l73 => some (.wait sync .l75, m.setList none)
  | .l75 => some (.back sync (m.sync sync).status, m)

/-- What the thread is executing from its `progress()`. -/
inductive CallSt
  | idle
  | update (sync : Sid) (updates status : ℤ) (pc : UpdateStPc)
  | wakeup (status : ℤ) (pc : WakeupMtStPc)
  deriving DecidableEq, Repr

structure ThreadSt where
  frame : FrameSt
  call : CallSt
  deriving DecidableEq, Repr

/-- The next line of the thread. -/
def runLineSt (t : Tid) (m : Mem) : ThreadSt → Option (ThreadSt × Mem × Event)
  | ⟨frame, .update sync updates status pc⟩ =>
      let r := waitSyncUpdateSt sync updates status m pc
      some (⟨frame, r.1.elim .idle (.update sync updates status)⟩, r.2, .tau)
  | ⟨frame, .wakeup status pc⟩ =>
      (globalWakeupMtSt t status m pc).map fun r =>
        (⟨frame, r.1.elim .idle (.wakeup status)⟩, r.2.1, r.2.2)
  | ⟨.wait sync pc, .idle⟩ => (syncWaitSt sync m pc).map fun r => (⟨r.1, .idle⟩, r.2, .tau)
  | ⟨.back _ _, .idle⟩ => none

/-- One action of the one thread. -/
def execSt (t : Tid) (a : Act) (th : ThreadSt) (m : Mem) : Option (ThreadSt × Mem × Event) :=
  match a, th with
  | .update sync updates status, ⟨.wait S .l71, .idle⟩ =>
      some (⟨.wait S .l71, .update sync updates status .l110⟩, m, .tau)
  | .wakeup status, ⟨.wait S .l71, .idle⟩ =>
      some (⟨.wait S .l71, .wakeup status .l17⟩, m, .tau)
  | .run, th => runLineSt t m th
  | _, _ => none

/-- **The wait without threads** as a program, with integer counts. -/
def waitSyncSt : Program Tid ThreadSt Mem Act Event := ⟨execSt⟩

/-- …and with the counts in `int32_t`s. -/
def intWaitSyncSt : Program Tid ThreadSt Mem Act Event := waitSyncSt.stored Mem.ints

end Libult.WaitSync
