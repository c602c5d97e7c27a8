import Libult.Interleaving.Program
import Mathlib.Data.Option.Basic

/-!
# Tsd/Key — tracked keys of thread-specific data, one line a step

Locations are named after the lines of `impl/base/tsd.c`, those of `tsd_tracked_key_get` after
`tsd.h`.  The slots are POSIX thread-specific data: `pthread_exit` clears a slot that is not NULL
and calls the key's destructor with what it held, unless the key has been deleted.  The list is a
list; what a stale `next` leads to is anything (`stale`).  An item is named by its number in the
order of allocation, so a use of it after its release shows.  The key's destructor ends its mutex,
then its list and the key; whoever uses one of them later goes on with what the memory holds, and
the state says that it is no more.

    set ─▸ slot ─┐                  ┌─ exit:  slot cleared, unlink, user_destructor, release
                 ├─▸ item ─ list ───┤
    get ◂─ slot ─┘                  └─ drain: unlink, user_destructor, release
-/

namespace Libult.Tsd

open Interleaving

/-- A thread. -/
abbrev Tid := ℕ

/-- A `tsd_list_item_t`. -/
abbrev Iid := ℕ

/-- A `void *`; NULL is `none`. -/
abbrev Ptr := Option ℕ

/-- A `tsd_destructor_t`. -/
abbrev Fid := ℕ

/-- The fields of a `tsd_list_item_t`: whether `tracked_key` is the key, and `data`. -/
structure Item where
  tracked_key : Bool
  data : Ptr
  deriving DecidableEq, Repr

/-- The memory the threads share, the slots and the items included. -/
structure Mem where
  /-- The thread that holds `key->mutex`. -/
  mutex : Option Tid
  tsd_list : List Iid
  user_destructor : Option Fid
  /-- `tsd_key_delete` has been called. -/
  deleted : Bool
  /-- `key->mutex` has been destructed… -/
  mutexEnded : Bool
  /-- …and `key->tsd_list`, the last thing the key's destructor does: the key is no more. -/
  ended : Bool
  slot : Tid → Option Iid
  item : Iid → Item
  /-- How many items have been allocated. -/
  fresh : ℕ

/-- What a step shows. -/
inductive Event
  | tau
  | appended (tsd : Iid)
  | unlinked (tsd : Iid)
  /-- `user_destructor` is called with the data of the item. -/
  | called (f : Fid) (tsd : Iid) (p : Ptr)
  | released (tsd : Iid)
  /-- A field of the item, or its link, is read; a field is written. -/
  | read (tsd : Iid)
  | written (tsd : Iid)
  /-- A set returns, with success or an error; a get returns `p`, read from the item if any. -/
  | set (t : Tid) (p : Ptr)
  | failed (t : Tid)
  | got (t : Tid) (tsd : Option Iid) (p : Ptr)
  /-- A thread exits. -/
  | exited (t : Tid)
  deriving DecidableEq, Repr

namespace Mem

variable (m : Mem) (t : Tid) (i : Iid)

/-- `tsd_tracked_key_constructor`. -/
def construct (item : Iid → Item) : Mem :=
  ⟨none, [], none, false, false, false, fun _ => none, item, 0⟩

/-- `mutex_lock(&key->mutex)`, once it is free. -/
def lock : Mem := { m with mutex := some t }

/-- `mutex_unlock(&key->mutex)`. -/
def unlock : Mem := { m with mutex := none }

/-- `list_append(&key->tsd_list, &tsd->super)`. -/
def append : Mem := { m with tsd_list := m.tsd_list ++ [i] }

/-- `list_remove_item(&key->tsd_list, &tsd->super)`. -/
def remove : Mem := { m with tsd_list := m.tsd_list.erase i }

/-- `tsd_set(key->key, tsd)`, and the clearing of the slot at thread exit. -/
def setSlot (o : Option Iid) : Mem := { m with slot := Function.update m.slot t o }

/-- An item is written. -/
def setItem (r : Item) : Mem := { m with item := Function.update m.item i r }

/-- `OBJ_NEW(tsd_list_item_t)`. -/
def alloc : Mem := { m with fresh := m.fresh + 1 }

/-- `OBJ_DESTRUCT(&key->mutex)`. -/
def destructMutex : Mem := { m with mutexEnded := true }

/-- `OBJ_DESTRUCT(&key->tsd_list)`, and the end of the key. -/
def destructList : Mem := { m with ended := true }

end Mem

/-- The item after `i` in the list. -/
def listNext (i : Iid) : List Iid → Option Iid
  | [] => none
  | a :: l => if a = i then l.head? else listNext i l

/-! ## `tsd_tracked_key_set` and `tsd_tracked_key_get` -/

/-- Locations of `tsd_tracked_key_set`. -/
inductive SetPc
  | l53 -- tsd_get(key->key, (void **) &tsd);
  | l55 (tsd : Option Iid) -- if (NULL == tsd)
  | l56 -- tsd = OBJ_NEW(tsd_list_item_t);
  | l61 (tsd : Iid) -- mutex_lock(&key->mutex);
  | l62 (tsd : Iid) -- list_append(&key->tsd_list, &tsd->super);
  | l63 (tsd : Iid) -- mutex_unlock(&key->mutex);
  | l66 (tsd : Iid) -- tsd->data = p;
  | l67 (tsd : Iid) -- tsd->tracked_key = key;
  | l69 (tsd : Iid) -- return tsd_set(key->key, (void *) tsd);
  deriving DecidableEq, Repr

/-- `tsd_tracked_key_set(key, p)`; `none` for the next location is its return. -/
def trackedKeySet (t : Tid) (p : Ptr) (m : Mem) : SetPc → Option (Option SetPc × Mem × Event)
  | .l53 => some (some (.l55 (m.slot t)), m, .tau)
  | .l55 none => some (some .l56, m, .tau)
  | .l55 (some tsd) => some (some (.l66 tsd), m, .tau)
  | .l56 => some (some (.l61 m.fresh), m.alloc, .tau)
  | .l61 tsd => if m.mutex = none then some (some (.l62 tsd), m.lock t, .tau) else none
  | .l62 tsd => some (some (.l63 tsd), m.append tsd, .appended tsd)
  | .l63 tsd => some (some (.l66 tsd), m.unlock, .tau)
  | .l66 tsd => some (some (.l67 tsd), m.setItem tsd { m.item tsd with data := p }, .written tsd)
  | .l67 tsd =>
      some (some (.l69 tsd), m.setItem tsd { m.item tsd with tracked_key := true }, .written tsd)
  | .l69 tsd => some (none, m.setSlot t (some tsd), .set t p)

/-- …where something fails: `OBJ_NEW` finds no memory, `tsd_set` returns an error. -/
def trackedKeySetFail (t : Tid) (m : Mem) : SetPc → Option (Option SetPc × Mem × Event)
  | .l56 | .l69 _ => some (none, m, .failed t)
  | _ => none

/-- Locations of `tsd_tracked_key_get`. -/
inductive GetPc
  | l114 -- tsd_get(key->key, (void **) &tsd);
  | l115 (tsd : Option Iid) -- if (NULL != tsd) *p = tsd->data; return SUCCESS;
  deriving DecidableEq, Repr

/-- `tsd_tracked_key_get(key, &p)`. -/
def trackedKeyGet (t : Tid) (m : Mem) : GetPc → Option GetPc × Mem × Event
  | .l114 => (some (.l115 (m.slot t)), m, .tau)
  | .l115 none => (none, m, .got t none none)
  | .l115 (some tsd) => (none, m, .got t (some tsd) (m.item tsd).data)

/-! ## `_tracked_destructor` -/

/-- Locations of `_tracked_destructor`. -/
inductive ExitPc
  | l7 (arg : Option Iid) -- if (NULL == arg) return;
  | l12 (tsd : Iid) -- key = tsd->tracked_key;
  | l14 (tsd : Iid) -- mutex_lock(&key->mutex);
  | l15 (tsd : Iid) -- list_remove_item(&key->tsd_list, &tsd->super);
  | l16 (tsd : Iid) -- mutex_unlock(&key->mutex);
  | l18 (tsd : Iid) -- if (NULL != key->user_destructor)
  | l19 (tsd : Iid) -- key->user_destructor(tsd->data);
  | l21 (tsd : Iid) -- OBJ_RELEASE(tsd);
  deriving DecidableEq, Repr

/-- `_tracked_destructor(arg)`; `none` for the next location is its return. -/
def trackedDestructor (t : Tid) (m : Mem) : ExitPc → Option (Option ExitPc × Mem × Event)
  | .l7 none => some (none, m, .tau)
  | .l7 (some tsd) => some (some (.l12 tsd), m, .tau)
  | .l12 tsd => if (m.item tsd).tracked_key then some (some (.l14 tsd), m, .read tsd) else none
  | .l14 tsd => if m.mutex = none then some (some (.l15 tsd), m.lock t, .tau) else none
  | .l15 tsd => some (some (.l16 tsd), m.remove tsd, .unlinked tsd)
  | .l16 tsd => some (some (.l18 tsd), m.unlock, .tau)
  | .l18 tsd => some (some (if m.user_destructor ≠ none then .l19 tsd else .l21 tsd), m, .tau)
  | .l19 tsd =>
      m.user_destructor.map fun f => (some (.l21 tsd), m, .called f tsd (m.item tsd).data)
  | .l21 tsd => some (none, m, .released tsd)

/-! ## `tsd_tracked_key_destructor` -/

/-- Locations of `tsd_tracked_key_destructor`.  Line 37 is the start of `LIST_FOREACH_SAFE`, `l37n`
its increment: `tsd = next`, `next = tsd->next`. -/
inductive DestroyPc
  | l36 -- tsd_key_delete(key->key);
  | l37 -- LIST_FOREACH_SAFE (tsd, next, &key->tsd_list, tsd_list_item_t)
  | l38 (tsd : Iid) (next : Option Iid) -- list_remove_item(&key->tsd_list, &tsd->super);
  | l39 (tsd : Iid) (next : Option Iid) -- if (NULL != key->user_destructor)
  | l40 (tsd : Iid) (next : Option Iid) -- key->user_destructor(tsd->data);
  | l42 (tsd : Iid) (next : Option Iid) -- OBJ_RELEASE(tsd);
  | l37n (next : Option Iid)
  | l44 -- OBJ_DESTRUCT(&key->mutex);
  | l45 -- OBJ_DESTRUCT(&key->tsd_list);
  deriving DecidableEq, Repr

/-- The loop takes an item, or ends. -/
def DestroyPc.take (l : List Iid) : Option Iid → DestroyPc × Event
  | none => (.l44, .tau)
  | some tsd => (.l38 tsd (listNext tsd l), .read tsd)

/-- `tsd_tracked_key_destructor(key)`; `none` for the next location is its return. -/
def trackedKeyDestructor (m : Mem) : DestroyPc → Option (Option DestroyPc × Mem × Event)
  | .l36 => some (some .l37, { m with deleted := true }, .tau)
  | .l37 =>
      let r := DestroyPc.take m.tsd_list m.tsd_list.head?
      some (some r.1, m, r.2)
  | .l38 tsd next => some (some (.l39 tsd next), m.remove tsd, .unlinked tsd)
  | .l39 tsd next =>
      some (some (if m.user_destructor ≠ none then .l40 tsd next else .l42 tsd next), m, .tau)
  | .l40 tsd next =>
      m.user_destructor.map fun f => (some (.l42 tsd next), m, .called f tsd (m.item tsd).data)
  | .l42 tsd next => some (some (.l37n next), m, .released tsd)
  | .l37n next =>
      let r := DestroyPc.take m.tsd_list next
      if ∀ tsd ∈ next, tsd ∈ m.tsd_list then some (some r.1, m, r.2) else none
  | .l44 => some (some .l45, m.destructMutex, .tau)
  | .l45 => some (none, m.destructList, .tau)

/-- …where `next` is no longer in the list: its link leads anywhere. -/
def trackedKeyDestructorStale (o : Option Iid) (m : Mem) :
    DestroyPc → Option (Option DestroyPc × Mem × Event)
  | .l37n (some tsd) => if tsd ∈ m.tsd_list then none else some (some (.l38 tsd o), m, .read tsd)
  | _ => none

/-! ## The program -/

/-- Where a thread is. -/
inductive Loc
  | idle
  | set (p : Ptr) (pc : SetPc)
  | get (pc : GetPc)
  /-- At its exit, in the key's destructor. -/
  | exiting (pc : ExitPc)
  | destroying (pc : DestroyPc)
  | dead
  deriving DecidableEq, Repr

/-- What a thread can do next. -/
inductive Act
  | set (p : Ptr)
  | get
  | exit
  /-- `tsd_tracked_key_set_destructor`. -/
  | setDestructor (f : Fid)
  | destroy
  /-- Execute the line it is at; have it fail; follow a stale link. -/
  | run
  | fail
  | stale (o : Option Iid)
  deriving DecidableEq, Repr

/-- POSIX: what thread exit does with the slot. -/
def threadExit (t : Tid) (m : Mem) : Loc × Mem :=
  match m.slot t, m.deleted with
  | some tsd, false => (.exiting (.l7 (some tsd)), m.setSlot t none)
  | _, _ => (.dead, m)

/-- Execute the line it is at. -/
def runLine (t : Tid) (m : Mem) : Loc → Option (Loc × Mem × Event)
  | .set p pc => (trackedKeySet t p m pc).map fun r => (r.1.elim .idle (.set p), r.2)
  | .get pc =>
      let r := trackedKeyGet t m pc
      some (r.1.elim .idle .get, r.2)
  | .exiting pc => (trackedDestructor t m pc).map fun r => (r.1.elim .dead .exiting, r.2)
  | .destroying pc => (trackedKeyDestructor m pc).map fun r => (r.1.elim .idle .destroying, r.2)
  | .idle | .dead => none

/-- One action of one thread. -/
def exec (t : Tid) (a : Act) (l : Loc) (m : Mem) : Option (Loc × Mem × Event) :=
  match a, l with
  | .set p, .idle => some (.set p .l53, m, .tau)
  | .get, .idle => some (.get .l114, m, .tau)
  | .exit, .idle =>
      let r := threadExit t m
      some (r.1, r.2, .exited t)
  | .setDestructor f, .idle => some (.idle, { m with user_destructor := some f }, .tau)
  | .destroy, .idle => some (.destroying .l36, m, .tau)
  | .run, l => runLine t m l
  | .fail, .set p pc => (trackedKeySetFail t m pc).map fun r => (r.1.elim .idle (.set p), r.2)
  | .stale o, .destroying pc =>
      (trackedKeyDestructorStale o m pc).map fun r => (r.1.elim .idle .destroying, r.2)
  | _, _ => none

/-- **A tracked key** as a program. -/
def trackedKey : Program Tid Loc Mem Act Event := ⟨exec⟩

/-- A state of it. -/
abbrev St := State Tid Loc Mem

/-- The key constructed, storage holding anything. -/
def start (item : Iid → Item) : St := ⟨fun _ => .idle, .construct item⟩

/-! ## The ways a thread moves -/

/-- **Every step**, line by line. -/
inductive Moves (t : Tid) : Act → Loc → Mem → Loc → Mem → Event → Prop
  | callSet {m : Mem} {p : Ptr} : Moves t (.set p) .idle m (.set p .l53) m .tau
  | callGet {m : Mem} : Moves t .get .idle m (.get .l114) m .tau
  | callback {m : Mem} {tsd : Iid} : m.slot t = some tsd → m.deleted = false →
      Moves t .exit .idle m (.exiting (.l7 (some tsd))) (m.setSlot t none) (.exited t)
  | die {m : Mem} : m.slot t = none ∨ m.deleted = true →
      Moves t .exit .idle m .dead m (.exited t)
  | setDestructor {m : Mem} {f : Fid} :
      Moves t (.setDestructor f) .idle m .idle { m with user_destructor := some f } .tau
  | callDestroy {m : Mem} : Moves t .destroy .idle m (.destroying .l36) m .tau
  -- `tsd_tracked_key_set`
  | set53 {m : Mem} {p : Ptr} : Moves t .run (.set p .l53) m (.set p (.l55 (m.slot t))) m .tau
  | set55null {m : Mem} {p : Ptr} : Moves t .run (.set p (.l55 none)) m (.set p .l56) m .tau
  | set55 {m : Mem} {p : Ptr} {tsd : Iid} :
      Moves t .run (.set p (.l55 (some tsd))) m (.set p (.l66 tsd)) m .tau
  | set56 {m : Mem} {p : Ptr} : Moves t .run (.set p .l56) m (.set p (.l61 m.fresh)) m.alloc .tau
  | set61 {m : Mem} {p : Ptr} {tsd : Iid} : m.mutex = none →
      Moves t .run (.set p (.l61 tsd)) m (.set p (.l62 tsd)) (m.lock t) .tau
  | set62 {m : Mem} {p : Ptr} {tsd : Iid} :
      Moves t .run (.set p (.l62 tsd)) m (.set p (.l63 tsd)) (m.append tsd) (.appended tsd)
  | set63 {m : Mem} {p : Ptr} {tsd : Iid} :
      Moves t .run (.set p (.l63 tsd)) m (.set p (.l66 tsd)) m.unlock .tau
  | set66 {m : Mem} {p : Ptr} {tsd : Iid} : Moves t .run (.set p (.l66 tsd)) m (.set p (.l67 tsd))
      (m.setItem tsd { m.item tsd with data := p }) (.written tsd)
  | set67 {m : Mem} {p : Ptr} {tsd : Iid} : Moves t .run (.set p (.l67 tsd)) m (.set p (.l69 tsd))
      (m.setItem tsd { m.item tsd with tracked_key := true }) (.written tsd)
  | set69 {m : Mem} {p : Ptr} {tsd : Iid} :
      Moves t .run (.set p (.l69 tsd)) m .idle (m.setSlot t (some tsd)) (.set t p)
  | fail56 {m : Mem} {p : Ptr} : Moves t .fail (.set p .l56) m .idle m (.failed t)
  | fail69 {m : Mem} {p : Ptr} {tsd : Iid} :
      Moves t .fail (.set p (.l69 tsd)) m .idle m (.failed t)
  -- `tsd_tracked_key_get`
  | get114 {m : Mem} : Moves t .run (.get .l114) m (.get (.l115 (m.slot t))) m .tau
  | get115null {m : Mem} : Moves t .run (.get (.l115 none)) m .idle m (.got t none none)
  | get115 {m : Mem} {tsd : Iid} : Moves t .run (.get (.l115 (some tsd))) m .idle m
      (.got t (some tsd) (m.item tsd).data)
  -- `_tracked_destructor`
  | exit7null {m : Mem} : Moves t .run (.exiting (.l7 none)) m .dead m .tau
  | exit7 {m : Mem} {tsd : Iid} :
      Moves t .run (.exiting (.l7 (some tsd))) m (.exiting (.l12 tsd)) m .tau
  | exit12 {m : Mem} {tsd : Iid} : (m.item tsd).tracked_key = true →
      Moves t .run (.exiting (.l12 tsd)) m (.exiting (.l14 tsd)) m (.read tsd)
  | exit14 {m : Mem} {tsd : Iid} : m.mutex = none →
      Moves t .run (.exiting (.l14 tsd)) m (.exiting (.l15 tsd)) (m.lock t) .tau
  | exit15 {m : Mem} {tsd : Iid} :
      Moves t .run (.exiting (.l15 tsd)) m (.exiting (.l16 tsd)) (m.remove tsd) (.unlinked tsd)
  | exit16 {m : Mem} {tsd : Iid} :
      Moves t .run (.exiting (.l16 tsd)) m (.exiting (.l18 tsd)) m.unlock .tau
  | exit18 {m : Mem} {tsd : Iid} : m.user_destructor ≠ none →
      Moves t .run (.exiting (.l18 tsd)) m (.exiting (.l19 tsd)) m .tau
  | exit18null {m : Mem} {tsd : Iid} : m.user_destructor = none →
      Moves t .run (.exiting (.l18 tsd)) m (.exiting (.l21 tsd)) m .tau
  | exit19 {m : Mem} {tsd : Iid} {f : Fid} : m.user_destructor = some f →
      Moves t .run (.exiting (.l19 tsd)) m (.exiting (.l21 tsd)) m
        (.called f tsd (m.item tsd).data)
  | exit21 {m : Mem} {tsd : Iid} : Moves t .run (.exiting (.l21 tsd)) m .dead m (.released tsd)
  -- `tsd_tracked_key_destructor`
  | destroy36 {m : Mem} :
      Moves t .run (.destroying .l36) m (.destroying .l37) { m with deleted := true } .tau
  | destroy37null {m : Mem} : m.tsd_list = [] →
      Moves t .run (.destroying .l37) m (.destroying .l44) m .tau
  | destroy37 {m : Mem} {tsd : Iid} : m.tsd_list.head? = some tsd →
      Moves t .run (.destroying .l37) m (.destroying (.l38 tsd (listNext tsd m.tsd_list))) m
        (.read tsd)
  | destroy38 {m : Mem} {tsd : Iid} {next : Option Iid} :
      Moves t .run (.destroying (.l38 tsd next)) m (.destroying (.l39 tsd next)) (m.remove tsd)
        (.unlinked tsd)
  | destroy39 {m : Mem} {tsd : Iid} {next : Option Iid} : m.user_destructor ≠ none →
      Moves t .run (.destroying (.l39 tsd next)) m (.destroying (.l40 tsd next)) m .tau
  | destroy39null {m : Mem} {tsd : Iid} {next : Option Iid} : m.user_destructor = none →
      Moves t .run (.destroying (.l39 tsd next)) m (.destroying (.l42 tsd next)) m .tau
  | destroy40 {m : Mem} {tsd : Iid} {next : Option Iid} {f : Fid} : m.user_destructor = some f →
      Moves t .run (.destroying (.l40 tsd next)) m (.destroying (.l42 tsd next)) m
        (.called f tsd (m.item tsd).data)
  | destroy42 {m : Mem} {tsd : Iid} {next : Option Iid} :
      Moves t .run (.destroying (.l42 tsd next)) m (.destroying (.l37n next)) m (.released tsd)
  | destroy37nnull {m : Mem} : Moves t .run (.destroying (.l37n none)) m (.destroying .l44) m .tau
  | destroy37n {m : Mem} {tsd : Iid} : tsd ∈ m.tsd_list →
      Moves t .run (.destroying (.l37n (some tsd))) m
        (.destroying (.l38 tsd (listNext tsd m.tsd_list))) m (.read tsd)
  | destroy44 {m : Mem} :
      Moves t .run (.destroying .l44) m (.destroying .l45) m.destructMutex .tau
  | destroy45 {m : Mem} : Moves t .run (.destroying .l45) m .idle m.destructList .tau
  | stale {m : Mem} {o : Option Iid} {tsd : Iid} : tsd ∉ m.tsd_list →
      Moves t (.stale o) (.destroying (.l37n (some tsd))) m (.destroying (.l38 tsd o)) m (.read tsd)

section Moves

variable {t : Tid} {m m' : Mem} {e : Event}

theorem threadExit_moves :
    Moves t .exit .idle m (threadExit t m).1 (threadExit t m).2 (.exited t) := by
  unfold threadExit
  split
  · exact .callback ‹_› ‹_›
  · rename_i hnot
    refine .die ?_
    by_contra h
    obtain ⟨hslot, hdel⟩ := not_or.mp h
    obtain ⟨tsd, htsd⟩ := Option.ne_none_iff_exists'.mp hslot
    exact hnot tsd htsd (Bool.not_eq_true _ ▸ hdel)

theorem trackedKeySet_moves {p : Ptr} {pc : SetPc} {pc' : Option SetPc}
    (hl : trackedKeySet t p m pc = some (pc', m', e)) :
    Moves t .run (.set p pc) m (pc'.elim .idle (.set p)) m' e := by
  unfold trackedKeySet at hl
  split at hl <;> simp only [Option.ite_none_right_eq_some, Option.some.injEq, Prod.mk.injEq] at hl
  case h_5 =>
    obtain ⟨hm, rfl, rfl, rfl⟩ := hl
    exact .set61 hm
  all_goals
    obtain ⟨rfl, rfl, rfl⟩ := hl
    constructor

theorem trackedKeySetFail_moves {p : Ptr} {pc : SetPc} {pc' : Option SetPc}
    (hl : trackedKeySetFail t m pc = some (pc', m', e)) :
    Moves t .fail (.set p pc) m (pc'.elim .idle (.set p)) m' e := by
  unfold trackedKeySetFail at hl
  split at hl <;> simp only [Option.some.injEq, Prod.mk.injEq, reduceCtorEq] at hl
  all_goals
    obtain ⟨rfl, rfl, rfl⟩ := hl
    constructor

theorem trackedKeyGet_moves (pc : GetPc) :
    Moves t .run (.get pc) m ((trackedKeyGet t m pc).1.elim .idle .get) (trackedKeyGet t m pc).2.1
      (trackedKeyGet t m pc).2.2 := by
  unfold trackedKeyGet
  split <;> constructor

theorem trackedDestructor_moves {pc : ExitPc} {pc' : Option ExitPc}
    (hl : trackedDestructor t m pc = some (pc', m', e)) :
    Moves t .run (.exiting pc) m (pc'.elim .dead .exiting) m' e := by
  unfold trackedDestructor at hl
  split at hl <;> simp only [Option.ite_none_right_eq_some, Option.map_eq_some_iff,
    Option.some.injEq, Prod.mk.injEq] at hl
  case h_3 | h_4 =>
    obtain ⟨hm, rfl, rfl, rfl⟩ := hl
    constructor
    exact hm
  case h_7 =>
    obtain ⟨rfl, rfl, rfl⟩ := hl
    split
    · exact .exit18 ‹_›
    · exact .exit18null (not_not.mp ‹_›)
  case h_8 =>
    obtain ⟨f, hf, rfl, rfl, rfl⟩ := hl
    exact .exit19 hf
  all_goals
    obtain ⟨rfl, rfl, rfl⟩ := hl
    constructor

theorem trackedKeyDestructor_moves {pc : DestroyPc} {pc' : Option DestroyPc}
    (hl : trackedKeyDestructor m pc = some (pc', m', e)) :
    Moves t .run (.destroying pc) m (pc'.elim .idle .destroying) m' e := by
  unfold trackedKeyDestructor at hl
  split at hl <;> simp only [Option.ite_none_right_eq_some, Option.map_eq_some_iff,
    Option.some.injEq, Prod.mk.injEq] at hl
  case h_2 =>
    obtain ⟨rfl, rfl, rfl⟩ := hl
    cases hh : m.tsd_list.head? with
    | none => exact .destroy37null (List.head?_eq_none_iff.mp hh)
    | some tsd => exact .destroy37 hh
  case h_4 =>
    obtain ⟨rfl, rfl, rfl⟩ := hl
    split
    · exact .destroy39 ‹_›
    · exact .destroy39null (not_not.mp ‹_›)
  case h_5 =>
    obtain ⟨f, hf, rfl, rfl, rfl⟩ := hl
    exact .destroy40 hf
  case h_7 next =>
    obtain ⟨hmem, rfl, rfl, rfl⟩ := hl
    cases next with
    | none => exact .destroy37nnull
    | some tsd => exact .destroy37n (hmem tsd rfl)
  all_goals
    obtain ⟨rfl, rfl, rfl⟩ := hl
    constructor

theorem trackedKeyDestructorStale_moves {o : Option Iid} {pc : DestroyPc} {pc' : Option DestroyPc}
    (hl : trackedKeyDestructorStale o m pc = some (pc', m', e)) :
    Moves t (.stale o) (.destroying pc) m (pc'.elim .idle .destroying) m' e := by
  unfold trackedKeyDestructorStale at hl
  split at hl <;> simp only [Option.ite_none_left_eq_some, Option.some.injEq, Prod.mk.injEq,
    reduceCtorEq] at hl
  obtain ⟨hm, rfl, rfl, rfl⟩ := hl
  exact .stale hm

theorem moves_of_runLine {l l' : Loc} (h : runLine t m l = some (l', m', e)) :
    Moves t .run l m l' m' e := by
  cases l with
  | idle | dead => cases h
  | get pc =>
    simp only [runLine, Option.some.injEq, Prod.mk.injEq] at h
    obtain ⟨rfl, hr⟩ := h
    have := trackedKeyGet_moves (t := t) (m := m) pc
    rwa [hr] at this
  | set p pc =>
    obtain ⟨⟨pc', r⟩, hl, hr⟩ := Option.map_eq_some_iff.mp h
    obtain ⟨rfl, rfl⟩ := Prod.mk.injEq .. ▸ hr
    exact trackedKeySet_moves hl
  | exiting pc =>
    obtain ⟨⟨pc', r⟩, hl, hr⟩ := Option.map_eq_some_iff.mp h
    obtain ⟨rfl, rfl⟩ := Prod.mk.injEq .. ▸ hr
    exact trackedDestructor_moves hl
  | destroying pc =>
    obtain ⟨⟨pc', r⟩, hl, hr⟩ := Option.map_eq_some_iff.mp h
    obtain ⟨rfl, rfl⟩ := Prod.mk.injEq .. ▸ hr
    exact trackedKeyDestructor_moves hl

theorem moves_of_exec {a : Act} {l l' : Loc} (h : exec t a l m = some (l', m', e)) :
    Moves t a l m l' m' e := by
  unfold exec at h
  split at h
  case h_6 => exact moves_of_runLine h
  all_goals simp only [Option.some.injEq, Prod.mk.injEq, Option.map_eq_some_iff, Prod.exists,
    reduceCtorEq] at h
  case h_3 =>
    obtain ⟨rfl, rfl, rfl⟩ := h
    exact threadExit_moves
  case h_7 =>
    obtain ⟨pc', m₁, e₁, hl, rfl, rfl, rfl⟩ := h
    exact trackedKeySetFail_moves hl
  case h_8 =>
    obtain ⟨pc', m₁, e₁, hl, rfl, rfl, rfl⟩ := h
    exact trackedKeyDestructorStale_moves hl
  all_goals
    obtain ⟨rfl, rfl, rfl⟩ := h
    constructor

end Moves

end Libult.Tsd
