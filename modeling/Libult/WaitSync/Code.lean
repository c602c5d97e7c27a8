import Libult.Interleaving.Program
import Libult.WaitSync.Memory

/-!
# WaitSync/Code — the functions of `wait_sync`, one shared access a step

`using_threads()` is true throughout.  A location is named after the source line it is about to
execute (`wait_sync.h` for the update, the signal and the release, `impl/base/wait_sync.c` for the
rest), and each line is one step: it reads and writes what that line does.  The lines that touch
`next`, `prev` or the list head run under `wait_sync_lock` and are one step each; the unlocked reads
of line 82 are two.  A lock that is held, a sleep that has not ended and a NULL pointer have no
step.

    out ─INIT─▸ ready ─call─▸ ompi_sync_wait_mt ─return─▸ back ─RELEASE─▸ out
                  ╰───────────── wait_sync_update / global_wakeup ─────────╯   (and from progress())
-/

namespace Libult.WaitSync

open Interleaving

/-- What a step shows. -/
inductive Event
  | tau
  | inited (sync : Sid) (c : ℤ)
  /-- A successful update: its size and the count it produced. -/
  | applied (sync : Sid) (updates now : ℤ)
  /-- An error update's status store, and its swap of the count. -/
  | stored (sync : Sid) (status : ℤ)
  | swapped (sync : Sid)
  /-- `WAIT_SYNC_SIGNAL`'s uses of the sync. -/
  | sigLock (sync : Sid)
  | sigSignal (sync : Sid)
  | sigUnlock (sync : Sid)
  | sigCleared (sync : Sid)
  /-- The global wakeup reaches a sync of the list. -/
  | visited (sync : Sid)
  | registered (sync : Sid)
  | removed (sync : Sid)
  | returned (sync : Sid) (rc : Rc)
  | condDestroyed (sync : Sid)
  | lockDestroyed (sync : Sid)
  deriving DecidableEq, Repr

/-! ## `wait_sync_update` -/

/-- Locations of `wait_sync_update`, the inlined `WAIT_SYNC_SIGNAL` included. -/
inductive UpdatePc
  | l110 -- if (LIKELY(SUCCESS == status))
  | l111 -- if (0 != (THREAD_ADD_FETCH32(&sync->count, -updates))) return;
  | l116 -- sync->status = status;
  | l118 -- atomic_swap_32(&sync->count, 0);
  | l52 -- thread_internal_mutex_lock(&(sync)->lock);
  | l53 -- thread_internal_cond_signal(&(sync)->condition);
  | l54 -- thread_internal_mutex_unlock(&(sync)->lock);
  | l55 -- (sync)->signaling = false;
  deriving DecidableEq, Repr

/-- `wait_sync_update(sync, updates, status)`; `none` for the next location is its return. -/
def waitSyncUpdate (t : Tid) (sync : Sid) (updates status : ℤ) (m : Mem) :
    UpdatePc → Option (Option UpdatePc × Mem × Event)
  | .l110 => some (some (if SUCCESS = status then .l111 else .l116), m, .tau)
  | .l111 =>
      let now := (m.sync sync).count + -updates
      some (if now ≠ 0 then none else some .l52, m.setCount sync now, .applied sync updates now)
  | .l116 => some (some .l118, m.setStatus sync status, .stored sync status)
  | .l118 => some (some .l52, m.setCount sync 0, .swapped sync)
  | .l52 =>
      if (m.sync sync).lock = none then some (some .l53, m.lock sync t, .sigLock sync) else none
  | .l53 => some (some .l54, m.signal sync, .sigSignal sync)
  | .l54 => some (some .l55, m.unlock sync, .sigUnlock sync)
  | .l55 => some (none, m.clearSignaling sync, .sigCleared sync)

/-! ## `threads_base_wait_sync_global_wakeup_mt` -/

/-- Locations of `threads_base_wait_sync_global_wakeup_mt`. -/
inductive WakeupPc
  | l17 -- mutex_lock(&wait_sync_lock);
  | l18 -- sync = threads_base_wait_sync_list; sync != NULL
  | l24 (sync : Sid) (pc : UpdatePc) -- wait_sync_update(sync, 0, status);
  | l25 (sync : Sid) -- if (sync->next == threads_base_wait_sync_list) break;
  | l18n (sync : Sid) -- sync = sync->next; sync != NULL
  | l29 -- mutex_unlock(&wait_sync_lock);
  deriving DecidableEq, Repr

/-- The loop head: update the sync, or leave when there is none. -/
def WakeupPc.next : Option Sid → WakeupPc × Event
  | none => (.l29, .tau)
  | some sync => (.l24 sync .l110, .visited sync)

/-- `threads_base_wait_sync_global_wakeup_mt(status)`; `none` for the next location is its
return. -/
def globalWakeupMt (t : Tid) (status : ℤ) (m : Mem) :
    WakeupPc → Option (Option WakeupPc × Mem × Event)
  | .l17 => if m.waitSyncLock = none then some (some .l18, m.lockList t, .tau) else none
  | .l18 =>
      let r := WakeupPc.next m.waitSyncList
      some (some r.1, m, r.2)
  | .l24 sync pc =>
      (waitSyncUpdate t sync 0 status m pc).map fun r =>
        (some (r.1.elim (.l25 sync) (.l24 sync)), r.2.1, r.2.2)
  | .l25 sync =>
      some (some (if (m.sync sync).next = m.waitSyncList then .l29 else .l18n sync), m, .tau)
  | .l18n sync =>
      let r := WakeupPc.next (m.sync sync).next
      some (some r.1, m, r.2)
  | .l29 => some (none, m.unlockList, .tau)

/-! ## `ompi_sync_wait_mt` -/

/-- Locations of `ompi_sync_wait_mt`.  Lines 36–38 are `WAIT_SYNC_PASS_OWNERSHIP` expanded at
line 116; line 65's two assignments, line 82's two reads and line 83's sleep are split. -/
inductive WaitPc
  | l47 -- if (sync->count <= 0)
  | l48 -- return (0 == sync->status) ? SUCCESS : ERROR;
  | l52 -- thread_internal_mutex_lock(&sync->lock);
  | l57 -- if (sync->count <= 0)
  | l58 -- thread_internal_mutex_unlock(&sync->lock);
  | l59 -- return (0 == sync->status) ? SUCCESS : ERROR;
  | l63 -- THREAD_LOCK(&wait_sync_lock);
  | l64 -- if (NULL == threads_base_wait_sync_list)
  | l65 -- sync->prev = sync
  | l65n -- sync->next = sync->prev
  | l66 -- threads_base_wait_sync_list = sync;
  | l68 -- sync->prev = threads_base_wait_sync_list->prev;
  | l69 -- sync->prev->next = sync;
  | l70 -- sync->next = threads_base_wait_sync_list;
  | l71 -- threads_base_wait_sync_list->prev = sync;
  | l73 -- THREAD_UNLOCK(&wait_sync_lock);
  | l82 -- sync != threads_base_wait_sync_list
  | l82n -- num_thread_in_progress >= max_thread_in_progress
  | l83 -- thread_internal_cond_wait(&sync->condition, &sync->lock): release and sleep
  | l83w -- …asleep, or woken and taking sync->lock again
  | l91 -- if (sync->count <= 0)
  | l92 -- thread_internal_mutex_unlock(&sync->lock); goto i_am_done;
  | l98 -- thread_internal_mutex_unlock(&sync->lock);
  | l100 -- THREAD_ADD_FETCH32(&num_thread_in_progress, 1);
  | l101 -- while (sync->count > 0)
  | l103 -- progress();
  | l105 -- THREAD_ADD_FETCH32(&num_thread_in_progress, -1);
  | l109 -- THREAD_LOCK(&wait_sync_lock);
  | l110 -- sync->prev->next = sync->next;
  | l111 -- sync->next->prev = sync->prev;
  | l113 -- if (sync == threads_base_wait_sync_list)
  | l114 -- threads_base_wait_sync_list = (sync == sync->next) ? NULL : sync->next;
  | l115 -- if (NULL != threads_base_wait_sync_list)
  | l36 -- thread_internal_mutex_lock(&(threads_base_wait_sync_list)->lock);
  | l37 -- thread_internal_cond_signal(&(threads_base_wait_sync_list)->condition);
  | l38 -- thread_internal_mutex_unlock(&(threads_base_wait_sync_list)->lock);
  | l119 -- THREAD_UNLOCK(&wait_sync_lock);
  | l121 -- return (0 == sync->status) ? SUCCESS : ERROR;
  deriving DecidableEq, Repr

/-- Locations of `WAIT_SYNC_RELEASE`. -/
inductive ReleasePc
  | l34 -- while ((sync)->signaling)
  | l40 -- thread_internal_cond_destroy(&(sync)->condition);
  | l41 -- thread_internal_mutex_destroy(&(sync)->lock);
  deriving DecidableEq, Repr

/-- Where a thread is with its own sync. -/
inductive Frame
  | out
  /-- After `WAIT_SYNC_INIT`, before the wait. -/
  | ready (sync : Sid)
  | wait (sync : Sid) (pc : WaitPc)
  /-- Back from the wait. -/
  | back (sync : Sid) (rc : Rc)
  | release (sync : Sid) (pc : ReleasePc)
  deriving DecidableEq, Repr

/-- `(0 == sync->status) ? SUCCESS : ERROR`. -/
def Mem.result (m : Mem) (sync : Sid) : Rc :=
  if 0 = (m.sync sync).status then .SUCCESS else .ERROR

/-- `ompi_sync_wait_mt(sync)`, with `max_thread_in_progress = max`. -/
def ompiSyncWaitMt (max : ℤ) (t : Tid) (sync : Sid) (m : Mem) :
    WaitPc → Option (Frame × Mem × Event)
  | .l47 => some (.wait sync (if (m.sync sync).count ≤ 0 then .l48 else .l52), m, .tau)
  | .l48 => some (.back sync (m.result sync), m, .returned sync (m.result sync))
  | .l52 => if (m.sync sync).lock = none then some (.wait sync .l57, m.lock sync t, .tau) else none
  | .l57 => some (.wait sync (if (m.sync sync).count ≤ 0 then .l58 else .l63), m, .tau)
  | .l58 => some (.wait sync .l59, m.unlock sync, .tau)
  | .l59 => some (.back sync (m.result sync), m, .returned sync (m.result sync))
  | .l63 => if m.waitSyncLock = none then some (.wait sync .l64, m.lockList t, .tau) else none
  | .l64 => some (.wait sync (if m.waitSyncList = none then .l65 else .l68), m, .tau)
  | .l65 => some (.wait sync .l65n, m.setPrev sync (some sync), .tau)
  | .l65n => some (.wait sync .l66, m.setNext sync (m.sync sync).prev, .tau)
  | .l66 => some (.wait sync .l73, m.setList (some sync), .registered sync)
  | .l68 => m.waitSyncList.map fun head =>
      (.wait sync .l69, m.setPrev sync (m.sync head).prev, .tau)
  | .l69 => (m.sync sync).prev.map fun last =>
      (.wait sync .l70, m.setNext last (some sync), .tau)
  | .l70 => some (.wait sync .l71, m.setNext sync m.waitSyncList, .tau)
  | .l71 => m.waitSyncList.map fun head =>
      (.wait sync .l73, m.setPrev head (some sync), .registered sync)
  | .l73 => some (.wait sync .l82, m.unlockList, .tau)
  | .l82 => some (.wait sync (if some sync ≠ m.waitSyncList then .l82n else .l98), m, .tau)
  | .l82n => some (.wait sync (if max ≤ m.numThreadInProgress then .l83 else .l98), m, .tau)
  | .l83 => some (.wait sync .l83w, m.sleep sync t, .tau)
  | .l83w =>
      if t ∉ (m.sync sync).condition ∧ (m.sync sync).lock = none then
        some (.wait sync .l91, m.lock sync t, .tau)
      else none
  | .l91 => some (.wait sync (if (m.sync sync).count ≤ 0 then .l92 else .l82), m, .tau)
  | .l92 => some (.wait sync .l109, m.unlock sync, .tau)
  | .l98 => some (.wait sync .l100, m.unlock sync, .tau)
  | .l100 => some (.wait sync .l101, m.addInProgress 1, .tau)
  | .l101 => some (.wait sync (if 0 < (m.sync sync).count then .l103 else .l105), m, .tau)
  | .l103 => some (.wait sync .l101, m, .tau)
  | .l105 => some (.wait sync .l109, m.addInProgress (-1), .tau)
  | .l109 => if m.waitSyncLock = none then some (.wait sync .l110, m.lockList t, .tau) else none
  | .l110 => (m.sync sync).prev.map fun prev =>
      (.wait sync .l111, m.setNext prev (m.sync sync).next, .tau)
  | .l111 => (m.sync sync).next.map fun next =>
      (.wait sync .l113, m.setPrev next (m.sync sync).prev, .removed sync)
  | .l113 => some (.wait sync (if some sync = m.waitSyncList then .l114 else .l119), m, .tau)
  | .l114 => some (.wait sync .l115,
      m.setList (if some sync = (m.sync sync).next then none else (m.sync sync).next), .tau)
  | .l115 => some (.wait sync (if m.waitSyncList ≠ none then .l36 else .l119), m, .tau)
  | .l36 => m.waitSyncList.bind fun who =>
      if (m.sync who).lock = none then some (.wait sync .l37, m.lock who t, .tau) else none
  | .l37 => m.waitSyncList.map fun who => (.wait sync .l38, m.signal who, .tau)
  | .l38 => m.waitSyncList.map fun who => (.wait sync .l119, m.unlock who, .tau)
  | .l119 => some (.wait sync .l121, m.unlockList, .tau)
  | .l121 => some (.back sync (m.result sync), m, .returned sync (m.result sync))

/-- `WAIT_SYNC_RELEASE(sync)`. -/
def waitSyncRelease (sync : Sid) (m : Mem) : ReleasePc → Frame × Mem × Event
  | .l34 => (.release sync (if (m.sync sync).signaling then .l34 else .l40), m, .tau)
  | .l40 => (.release sync .l41, m, .condDestroyed sync)
  | .l41 => (.out, m, .lockDestroyed sync)

/-! ## The program -/

/-- A call of an update or of the global wakeup, by a thread outside the wait or from inside its
`progress()`. -/
inductive Call
  | idle
  | update (sync : Sid) (updates status : ℤ) (pc : UpdatePc)
  | wakeup (status : ℤ) (pc : WakeupPc)
  deriving DecidableEq, Repr

structure Thread where
  frame : Frame
  call : Call
  deriving DecidableEq, Repr

/-- What a thread can do next. -/
inductive Act
  /-- `WAIT_SYNC_INIT(sync, c)` on fresh storage. -/
  | init (sync : Sid) (c : ℤ)
  /-- Call `ompi_sync_wait_mt` on the sync just initialised. -/
  | wait
  /-- `WAIT_SYNC_RELEASE` of the sync waited on. -/
  | release
  /-- Call `wait_sync_update(sync, updates, status)`. -/
  | update (sync : Sid) (updates status : ℤ)
  /-- Call `threads_base_wait_sync_global_wakeup_mt(status)`. -/
  | wakeup (status : ℤ)
  /-- Wake from `thread_internal_cond_wait` without a signal. -/
  | spurious
  /-- Execute the next line. -/
  | run
  deriving DecidableEq, Repr

/-- Where a thread may call an update or a wakeup: `progress()` included. -/
def Frame.mayCall : Frame → Bool
  | .out | .ready _ | .back _ _ | .wait _ .l103 => true
  | _ => false

/-- The next line of a thread: of the call it is in, else of its own wait or release. -/
def runLine (max : ℤ) (t : Tid) (m : Mem) : Thread → Option (Thread × Mem × Event)
  | ⟨frame, .update sync updates status pc⟩ =>
      (waitSyncUpdate t sync updates status m pc).map fun r =>
        (⟨frame, r.1.elim .idle (.update sync updates status)⟩, r.2.1, r.2.2)
  | ⟨frame, .wakeup status pc⟩ =>
      (globalWakeupMt t status m pc).map fun r =>
        (⟨frame, r.1.elim .idle (.wakeup status)⟩, r.2.1, r.2.2)
  | ⟨.wait sync pc, .idle⟩ =>
      (ompiSyncWaitMt max t sync m pc).map fun r => (⟨r.1, .idle⟩, r.2.1, r.2.2)
  | ⟨.release sync pc, .idle⟩ =>
      let r := waitSyncRelease sync m pc
      some (⟨r.1, .idle⟩, r.2.1, r.2.2)
  | _ => none

/-- One action of one thread. -/
def exec (max : ℤ) (t : Tid) (a : Act) (th : Thread) (m : Mem) : Option (Thread × Mem × Event) :=
  match a with
  | .init sync c =>
      if th = ⟨.out, .idle⟩ ∧ (m.sync sync).owner = none then
        some (⟨.ready sync, .idle⟩, m.waitSyncInit sync t c, .inited sync c)
      else none
  | .wait =>
      match th with
      | ⟨.ready sync, .idle⟩ => some (⟨.wait sync .l47, .idle⟩, m, .tau)
      | _ => none
  | .release =>
      match th with
      | ⟨.back sync _, .idle⟩ => some (⟨.release sync .l34, .idle⟩, m, .tau)
      | _ => none
  | .update sync updates status =>
      if th.call = .idle ∧ th.frame.mayCall ∧ (m.sync sync).owner ≠ none then
        some (⟨th.frame, .update sync updates status .l110⟩, m, .tau)
      else none
  | .wakeup status =>
      if th.call = .idle ∧ th.frame.mayCall then
        some (⟨th.frame, .wakeup status .l17⟩, m, .tau)
      else none
  | .spurious =>
      match th with
      | ⟨.wait sync .l83w, .idle⟩ =>
          if t ∈ (m.sync sync).condition then
            some (⟨.wait sync .l83w, .idle⟩, m.wake sync t, .tau)
          else none
      | _ => none
  | .run => runLine max t m th

/-- **The wait-sync module** as a program, with `max_thread_in_progress = max` and integer
counts… -/
def waitSync (max : ℤ) : Program Tid Thread Mem Act Event := ⟨exec max⟩

/-- **…and with the counts in `int32_t`s.**  The test of line 111 is made on the sum itself: of two
`int`s it is 0 if and only if what is kept of it is. -/
def intWaitSync (max : ℤ) : Program Tid Thread Mem Act Event := (waitSync max).stored Mem.ints

/-- A state of it. -/
abbrev St := State Tid Thread Mem

/-- Nobody has started anything. -/
def start : St := ⟨fun _ => ⟨.out, .idle⟩, .init⟩

end Libult.WaitSync
