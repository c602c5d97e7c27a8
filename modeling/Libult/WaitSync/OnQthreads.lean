import Libult.WaitSync.Monitored

/-!
# WaitSync/OnQthreads — the wait-sync module over the code of the qthreads backend

The lines of `wait_sync.h` and `wait_sync.c`, where each call of `thread_internal_mutex_lock`,
`…_unlock`, `thread_internal_cond_wait` and `…_signal` is the code of `threads_qthreads_mutex.h`,
line by line.  Every sync has a mutex and a condition variable of its own (`backend`); what a `Sync`
has of them is not looked at.

    l83 ─call─▸ l108 ● … l116 ─▸ l118 … l125 ● ─return─▸ l91
    l53 ─call─▸ l147 ● … l157 ─return─▸ l54
-/

namespace Libult.WaitSync

open Interleaving Program Qthreads

/-! ## The calls of the backend -/

/-- What the module calls of the backend. -/
inductive Prim
  | lock -- thread_internal_mutex_lock(&sync->lock);
  | unlock -- thread_internal_mutex_unlock(&sync->lock);
  | wait -- thread_internal_cond_wait(&sync->condition, &sync->lock);
  | signal -- thread_internal_cond_signal(&sync->condition);
  deriving DecidableEq, Repr

/-- What a line of an update calls, and the line after. -/
def UpdatePc.prim : UpdatePc → Option (Prim × UpdatePc)
  | .l52 => some (.lock, .l53)
  | .l53 => some (.signal, .l54)
  | .l54 => some (.unlock, .l55)
  | _ => none

/-- What a line of the wait on `X` calls, on which sync, and the line after. -/
def WaitPc.prim (X : Sid) (head : Option Sid) : WaitPc → Option (Prim × Sid × WaitPc)
  | .l52 => some (.lock, X, .l57)
  | .l58 => some (.unlock, X, .l59)
  | .l83 => some (.wait, X, .l91)
  | .l92 => some (.unlock, X, .l109)
  | .l98 => some (.unlock, X, .l100)
  | .l36 => head.map fun who => (.lock, who, .l37)
  | .l37 => head.map fun who => (.signal, who, .l38)
  | .l38 => head.map fun who => (.unlock, who, .l119)
  | _ => none

/-- What a thread is about to call, on which sync, and where it goes on. -/
def Thread.prim (head : Option Sid) : Thread → Option (Prim × Sid × Thread)
  | ⟨f, .update S u st pc⟩ => pc.prim.map fun r => (r.1, S, ⟨f, .update S u st r.2⟩)
  | ⟨f, .wakeup st (.l24 S pc)⟩ => pc.prim.map fun r => (r.1, S, ⟨f, .wakeup st (.l24 S r.2)⟩)
  | ⟨.wait X pc, .idle⟩ => (pc.prim X head).map fun r => (r.1, r.2.1, ⟨.wait X r.2.2, .idle⟩)
  | _ => none

/-- What such a line shows. -/
def UpdatePc.shows (S : Sid) : UpdatePc → Event
  | .l52 => .sigLock S
  | .l53 => .sigSignal S
  | .l54 => .sigUnlock S
  | _ => .tau

def Thread.shows (th : Thread) : Event :=
  match th.call with
  | .update S _ _ pc | .wakeup _ (.l24 S pc) => pc.shows S
  | _ => .tau

/-- The function of the backend that is called; the record of a wait is at `frame`. -/
def Prim.act (frame : ℕ) (S : Sid) : Prim → Qthreads.Act
  | .lock => .lock S
  | .unlock => .unlock S
  | .wait => .wait frame S
  | .signal => .signal

/-- `thread_internal_cond_init` and `thread_internal_mutex_init` of `WAIT_SYNC_INIT`. -/
def initBackend (S : Sid) (m : Qthreads.Mem) : Qthreads.Mem :=
  { m with
    m_lock := none
    m_waiter_head := none
    m_waiter_tail := none
    mutex := Function.update m.mutex S none }

/-! ## The program -/

namespace OnQthreads

/-- A call of the backend in progress. -/
structure Entered where
  sync : Sid
  loc : Qthreads.Loc
  /-- Where the thread goes on. -/
  next : Thread
  deriving DecidableEq, Repr

/-- Where a thread is in the module, and in the backend. -/
structure Loc where
  thread : Thread
  entered : Option Entered
  deriving DecidableEq, Repr

structure Mem where
  syncs : WaitSync.Mem
  /-- The mutex and the condition variable of every sync. -/
  backend : Sid → Qthreads.Mem

/-- What the line of the module shows, and the line of the backend. -/
structure Event where
  shown : WaitSync.Event
  line : Option (Sid × Qthreads.Event Addr)
  deriving DecidableEq, Repr

/-- What a thread can do next. -/
inductive Act
  /-- What is no call of the backend. -/
  | own (a : WaitSync.Act)
  /-- Call the backend. -/
  | call (frame : ℕ)
  /-- Execute a line of the backend. -/
  | line
  /-- Use the stack for something else. -/
  | scribble (sync : Sid) (frame : ℕ) (r : Waiter)
  deriving DecidableEq, Repr

/-- A thread that has come to `l` of a call on `S`, or is back from it. -/
def Loc.goes (th next : Thread) (S : Sid) (l : Qthreads.Loc) : Loc :=
  if l = .idle then ⟨next, none⟩ else ⟨th, some ⟨S, l, next⟩⟩

/-- One action in the backend of `S`. -/
def inBackend (t : Tid) (th next : Thread) (S : Sid) (b : Qthreads.Act) (l : Qthreads.Loc)
    (m : Mem) : Option (Loc × Mem × Event) :=
  (Qthreads.exec t b l (m.backend S)).map fun r =>
    (.goes th next S r.1, { m with backend := Function.update m.backend S r.2.1 },
      ⟨th.shows, some (S, r.2.2)⟩)

/-- `WAIT_SYNC_INIT` initialises the backend of its sync. -/
def Mem.after (m : Mem) (syncs : WaitSync.Mem) : WaitSync.Act → Mem
  | .init S _ => ⟨syncs, Function.update m.backend S (initBackend S (m.backend S))⟩
  | _ => ⟨syncs, m.backend⟩

/-- One action of one thread. -/
def exec (max : ℤ) (t : Tid) (a : Act) (l : Loc) (m : Mem) : Option (Loc × Mem × Event) :=
  match a, l with
  | .own a, ⟨th, none⟩ =>
      if a ≠ .spurious ∧ (a = .run → th.prim m.syncs.waitSyncList = none) then
        (WaitSync.exec max t a th m.syncs).map fun r =>
          (⟨r.1, none⟩, m.after r.2.1 a, ⟨r.2.2, none⟩)
      else none
  | .call k, ⟨th, none⟩ =>
      (th.prim m.syncs.waitSyncList).bind fun r =>
        inBackend t th r.2.2 r.2.1 (r.1.act k r.2.1) .idle m
  | .line, ⟨th, some c⟩ => inBackend t th c.next c.sync .run c.loc m
  | .scribble S k r, ⟨th, none⟩ => inBackend t th th S (.scribble k r) .idle m
  | _, _ => none

/-- **The wait-sync module on the qthreads backend** as a program. -/
def onQthreads (max : ℤ) : Program Tid Loc Mem Act Event := ⟨exec max⟩

/-- A state of it. -/
abbrev St := State Tid Loc Mem

/-- Nobody has started anything, the stacks hold anything. -/
def start (waiter : Sid → Addr → Waiter) : St :=
  ⟨fun _ => ⟨⟨.out, .idle⟩, none⟩, .init, fun S => .condInit (waiter S)⟩

end OnQthreads

end Libult.WaitSync
