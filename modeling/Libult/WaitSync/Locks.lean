import Libult.WaitSync.Steps

/-!
# WaitSync/Locks — who holds what, and what a step may do to the others

Two facts carry every proof about the module.  `Held` is a thread's own view: the locks are held
exactly where its location says.  `Guarantee` is what its step may do to everybody else: it takes
and gives back locks for itself alone and touches the list only under `wait_sync_lock`.  `Held`
survives the others' guarantees, so `Locked` holds in every reachable state.
-/

namespace Libult.WaitSync

open Interleaving

/-! ## Which location holds which lock -/

/-- The lines of `wait_sync_update` that hold the sync's lock. -/
def UpdatePc.locked : UpdatePc → Bool
  | .l53 | .l54 => true
  | _ => false

/-- The lines of the wait that hold its own `sync->lock`. -/
def WaitPc.locked : WaitPc → Bool
  | .l57 | .l58 | .l63 | .l64 | .l65 | .l65n | .l66 | .l68 | .l69 | .l70 | .l71 | .l73
  | .l82 | .l82n | .l83 | .l91 | .l92 | .l98 => true
  | _ => false

/-- The lines of the wait that hold the lock of the new head. -/
def WaitPc.passing : WaitPc → Bool
  | .l37 | .l38 => true
  | _ => false

/-- The lines of the wait that hold `wait_sync_lock`. -/
def WaitPc.listLocked : WaitPc → Bool
  | .l64 | .l65 | .l65n | .l66 | .l68 | .l69 | .l70 | .l71 | .l73
  | .l110 | .l111 | .l113 | .l114 | .l115 | .l36 | .l37 | .l38 | .l119 => true
  | _ => false

/-- The lines of the global wakeup that hold `wait_sync_lock`: all but the first. -/
def WakeupPc.listLocked : WakeupPc → Bool
  | .l17 => false
  | _ => true

def Frame.listLocked : Frame → Bool
  | .wait _ pc => pc.listLocked
  | _ => false

def Call.listLocked : Call → Bool
  | .wakeup _ pc => pc.listLocked
  | _ => false

/-- The thread is inside a `wait_sync_lock` critical section. -/
def Thread.listLocked (th : Thread) : Bool := th.frame.listLocked || th.call.listLocked

/-- The sync of a thread's own wait. -/
def Frame.sync : Frame → Option Sid
  | .out => none
  | .ready S | .wait S _ | .back S _ | .release S _ => some S

/-- The sync a call is updating. -/
def Call.target : Call → Option Sid
  | .update S _ _ _ | .wakeup _ (.l24 S _) | .wakeup _ (.l25 S) | .wakeup _ (.l18n S) => some S
  | _ => none

/-- The lock a frame holds, when the list head is `head`. -/
def Frame.holds (head : Option Sid) (S : Sid) : Frame → Prop
  | .wait S' pc => pc.locked = true ∧ S' = S ∨ pc.passing = true ∧ head = some S
  | _ => False

/-- The lock a call holds. -/
def Call.holds (S : Sid) : Call → Prop
  | .update S' _ _ pc | .wakeup _ (.l24 S' pc) => pc.locked = true ∧ S' = S
  | _ => False

/-- The sync lock a thread holds, when the list head is `head`. -/
def Thread.holds (head : Option Sid) (S : Sid) (th : Thread) : Prop :=
  th.frame.holds head S ∨ th.call.holds S

/-! ## The invariant of one thread -/

/-- The links and the head only ever name initialised syncs. -/
structure Named (m : Mem) : Prop where
  list : ∀ X, m.waitSyncList = some X → (m.sync X).owner ≠ none
  next : ∀ S X, (m.sync S).next = some X → (m.sync X).owner ≠ none
  prev : ∀ S X, (m.sync S).prev = some X → (m.sync X).owner ≠ none

/-- **A thread's own view**: the locks are held exactly where its location says, and it alone
sleeps in its own sync. -/
structure Held (t : Tid) (th : Thread) (m : Mem) : Prop where
  nested : th.call ≠ .idle → th.frame.mayCall = true
  own : ∀ S, th.frame.sync = some S → (m.sync S).owner = some t
  target : ∀ S, th.call.target = some S → (m.sync S).owner ≠ none
  list : m.waitSyncLock = some t ↔ th.listLocked = true
  lock : ∀ S, (m.sync S).lock = some t ↔ th.holds m.waitSyncList S
  sleep : ∀ S, th.frame.sync = some S → (m.sync S).condition = [] ∨
    (m.sync S).condition = [t] ∧ th.frame = .wait S .l83w

/-! ## What one thread's step may do to the others -/

/-- **The guarantee of a step by `t`**: it takes and gives back locks for itself alone, writes the
list and its links only under `wait_sync_lock`, and wakes others only under their lock. -/
structure Guarantee (t : Tid) (m m' : Mem) : Prop where
  listLock : m'.waitSyncLock = m.waitSyncLock ∨
    m.waitSyncLock = none ∧ m'.waitSyncLock = some t ∨
    m.waitSyncLock = some t ∧ m'.waitSyncLock = none
  list : m.waitSyncLock ≠ some t → m'.waitSyncList = m.waitSyncList
  links : m.waitSyncLock ≠ some t → ∀ S, (m.sync S).owner ≠ none →
    (m'.sync S).next = (m.sync S).next ∧ (m'.sync S).prev = (m.sync S).prev
  owner : ∀ S, (m.sync S).owner ≠ none → (m'.sync S).owner = (m.sync S).owner
  lock : ∀ S, (m'.sync S).lock = (m.sync S).lock ∨
    (m.sync S).lock = none ∧ (m'.sync S).lock = some t ∨
    (m.sync S).lock = some t ∧ (m'.sync S).lock = none
  sleep : ∀ S, (m.sync S).owner ≠ none → (m.sync S).owner ≠ some t →
    (m'.sync S).condition = (m.sync S).condition ∨
    (m.sync S).lock = some t ∧ (m'.sync S).condition = (m.sync S).condition.tail

theorem Guarantee.refl (t : Tid) (m : Mem) : Guarantee t m m where
  listLock := .inl rfl
  list _ := rfl
  links _ _ _ := ⟨rfl, rfl⟩
  owner _ _ := rfl
  lock _ := .inl rfl
  sleep _ _ _ := .inl rfl

theorem WaitPc.listLocked_of_passing {pc : WaitPc} (h : pc.passing = true) :
    pc.listLocked = true := by
  cases pc <;> first | rfl | exact absurd h (by decide)

/-- Only a thread under `wait_sync_lock` holds a lock by way of the head. -/
theorem Thread.holds_congr {th : Thread} {h h' : Option Sid} (S : Sid)
    (hh : th.listLocked = true → h = h') : th.holds h S ↔ th.holds h' S := by
  obtain ⟨f, c⟩ := th
  cases f with
  | wait S' pc =>
    by_cases hp : pc.passing = true
    · rw [hh (by simp [listLocked, Frame.listLocked, pc.listLocked_of_passing hp])]
    · simp [holds, Frame.holds, hp]
  | _ => rfl

/-- **Held survives the others' steps.** -/
theorem Held.stable {t t' : Tid} {th : Thread} {m m' : Mem} (h : Held t th m)
    (g : Guarantee t' m m') (hne : t ≠ t') : Held t th m' where
  nested := h.nested
  own S hS := by rw [g.owner S (by simp [h.own S hS]), h.own S hS]
  target S hS := by rw [g.owner S (h.target S hS)]; exact h.target S hS
  list := by
    rw [← h.list]
    rcases g.listLock with h' | ⟨h₁, h₂⟩ | ⟨h₁, h₂⟩ <;> simp [*, hne.symm]
  lock S := by
    have key : th.holds m'.waitSyncList S ↔ th.holds m.waitSyncList S :=
      th.holds_congr S fun hl => g.list (by rw [h.list.mpr hl]; simpa using hne)
    rw [key, ← h.lock]
    rcases g.lock S with h' | ⟨h₁, h₂⟩ | ⟨h₁, h₂⟩ <;> simp [*, hne.symm]
  sleep S hS := by
    have ho := h.own S hS
    have hs := h.sleep S hS
    rcases g.sleep S (by simp [ho]) (by simpa [ho] using hne) with h' | ⟨-, h'⟩
    · rwa [h']
    · refine .inl ?_
      rcases hs with hs | ⟨hs, -⟩ <;> simp [h', hs]

/-! ## The operations give the guarantee -/

section Operations

variable {t : Tid} {m : Mem} {S : Sid}

theorem Guarantee.modify {f : Sync → Sync}
    (owner : (m.sync S).owner ≠ none → (f (m.sync S)).owner = (m.sync S).owner)
    (links : m.waitSyncLock ≠ some t → (m.sync S).owner ≠ none →
      (f (m.sync S)).next = (m.sync S).next ∧ (f (m.sync S)).prev = (m.sync S).prev)
    (lock : (f (m.sync S)).lock = (m.sync S).lock ∨
      (m.sync S).lock = none ∧ (f (m.sync S)).lock = some t ∨
      (m.sync S).lock = some t ∧ (f (m.sync S)).lock = none)
    (sleep : (m.sync S).owner ≠ none → (m.sync S).owner ≠ some t →
      (f (m.sync S)).condition = (m.sync S).condition ∨
      (m.sync S).lock = some t ∧ (f (m.sync S)).condition = (m.sync S).condition.tail) :
    Guarantee t m (m.modify S f) where
  listLock := .inl rfl
  list _ := rfl
  links hl X hX := by
    by_cases h : X = S
    · subst h; simpa using links hl hX
    · simp [h]
  owner X hX := by
    by_cases h : X = S
    · subst h; simpa using owner hX
    · simp [h]
  lock X := by
    by_cases h : X = S
    · subst h; simpa using lock
    · simp [h]
  sleep X hX ht := by
    by_cases h : X = S
    · subst h; simpa using sleep hX ht
    · simp [h]

theorem Guarantee.setCount (v : ℤ) : Guarantee t m (m.setCount S v) :=
  .modify (fun _ => rfl) (fun _ _ => ⟨rfl, rfl⟩) (.inl rfl) (fun _ _ => .inl rfl)

theorem Guarantee.setStatus (v : ℤ) : Guarantee t m (m.setStatus S v) :=
  .modify (fun _ => rfl) (fun _ _ => ⟨rfl, rfl⟩) (.inl rfl) (fun _ _ => .inl rfl)

theorem Guarantee.clearSignaling : Guarantee t m (m.clearSignaling S) :=
  .modify (fun _ => rfl) (fun _ _ => ⟨rfl, rfl⟩) (.inl rfl) (fun _ _ => .inl rfl)

theorem Guarantee.setNext {v : Option Sid} (h : m.waitSyncLock = some t) :
    Guarantee t m (m.setNext S v) :=
  .modify (fun _ => rfl) (fun hl => absurd h hl) (.inl rfl) (fun _ _ => .inl rfl)

theorem Guarantee.setPrev {v : Option Sid} (h : m.waitSyncLock = some t) :
    Guarantee t m (m.setPrev S v) :=
  .modify (fun _ => rfl) (fun hl => absurd h hl) (.inl rfl) (fun _ _ => .inl rfl)

theorem Guarantee.lock' (h : (m.sync S).lock = none) : Guarantee t m (m.lock S t) :=
  .modify (fun _ => rfl) (fun _ _ => ⟨rfl, rfl⟩) (.inr (.inl ⟨h, rfl⟩)) (fun _ _ => .inl rfl)

theorem Guarantee.unlock (h : (m.sync S).lock = some t) : Guarantee t m (m.unlock S) :=
  .modify (fun _ => rfl) (fun _ _ => ⟨rfl, rfl⟩) (.inr (.inr ⟨h, rfl⟩)) (fun _ _ => .inl rfl)

theorem Guarantee.sleep' (h : (m.sync S).lock = some t) (ho : (m.sync S).owner = some t) :
    Guarantee t m (m.sleep S t) :=
  .modify (fun _ => rfl) (fun _ _ => ⟨rfl, rfl⟩) (.inr (.inr ⟨h, rfl⟩)) (fun _ ht => absurd ho ht)

theorem Guarantee.signal (h : (m.sync S).lock = some t) : Guarantee t m (m.signal S) :=
  .modify (fun _ => rfl) (fun _ _ => ⟨rfl, rfl⟩) (.inl rfl) (fun _ _ => .inr ⟨h, rfl⟩)

theorem Guarantee.wake (ho : (m.sync S).owner = some t) : Guarantee t m (m.wake S t) :=
  .modify (fun _ => rfl) (fun _ _ => ⟨rfl, rfl⟩) (.inl rfl) (fun _ ht => absurd ho ht)

theorem Guarantee.waitSyncInit {c : ℤ} (ho : (m.sync S).owner = none)
    (hl : (m.sync S).lock = none) : Guarantee t m (m.waitSyncInit S t c) :=
  .modify (fun h => absurd ho h) (fun _ h => absurd ho h) (.inl hl.symm) (fun h => absurd ho h)

theorem Guarantee.lockList (h : m.waitSyncLock = none) : Guarantee t m (m.lockList t) :=
  { Guarantee.refl t m with listLock := .inr (.inl ⟨h, rfl⟩) }

theorem Guarantee.unlockList (h : m.waitSyncLock = some t) : Guarantee t m m.unlockList :=
  { Guarantee.refl t m with listLock := .inr (.inr ⟨h, rfl⟩) }

theorem Guarantee.setList {v : Option Sid} (h : m.waitSyncLock = some t) :
    Guarantee t m (m.setList v) :=
  { Guarantee.refl t m with list := fun hl => absurd h hl }

theorem Guarantee.addInProgress (d : ℤ) : Guarantee t m (m.addInProgress d) :=
  { Guarantee.refl t m with }

end Operations

/-! ## Every line gives the guarantee -/

theorem waitSyncUpdate_guarantee {t : Tid} {S : Sid} {u st : ℤ} {m m' : Mem} {pc : UpdatePc}
    {pc' : Option UpdatePc} {e : Event} (hl : pc.locked = true → (m.sync S).lock = some t)
    (h : waitSyncUpdate t S u st m pc = some (pc', m', e)) : Guarantee t m m' := by
  cases pc <;> simp only [waitSyncUpdate, Option.ite_none_right_eq_some, Option.some.injEq,
    Prod.mk.injEq] at h
  case l110 => obtain ⟨-, rfl, -⟩ := h; exact .refl ..
  case l111 => obtain ⟨-, rfl, -⟩ := h; exact .setCount _
  case l116 => obtain ⟨-, rfl, -⟩ := h; exact .setStatus _
  case l118 => obtain ⟨-, rfl, -⟩ := h; exact .setCount _
  case l52 => obtain ⟨hf, -, rfl, -⟩ := h; exact .lock' hf
  case l53 => obtain ⟨-, rfl, -⟩ := h; exact .signal (hl rfl)
  case l54 => obtain ⟨-, rfl, -⟩ := h; exact .unlock (hl rfl)
  case l55 => obtain ⟨-, rfl, -⟩ := h; exact .clearSignaling

theorem globalWakeupMt_guarantee {t : Tid} {st : ℤ} {m m' : Mem} {pc : WakeupPc}
    {pc' : Option WakeupPc} {e : Event} (hl : pc.listLocked = true → m.waitSyncLock = some t)
    (hs : ∀ S upc, pc = .l24 S upc → upc.locked = true → (m.sync S).lock = some t)
    (h : globalWakeupMt t st m pc = some (pc', m', e)) : Guarantee t m m' := by
  cases pc with
  | l24 S upc =>
    obtain ⟨⟨upc', m₁, e₁⟩, hu, hr⟩ := Option.map_eq_some_iff.mp h
    obtain ⟨-, rfl, -⟩ : _ = pc' ∧ _ = m' ∧ _ = e := by simpa using hr
    exact waitSyncUpdate_guarantee (hs S upc rfl) hu
  | l17 =>
    simp only [globalWakeupMt, Option.ite_none_right_eq_some, Option.some.injEq,
      Prod.mk.injEq] at h
    obtain ⟨hf, -, rfl, -⟩ := h
    exact .lockList hf
  | l29 =>
    simp only [globalWakeupMt, Option.some.injEq, Prod.mk.injEq] at h
    obtain ⟨-, rfl, -⟩ := h
    exact .unlockList (hl rfl)
  | l18 | l25 S | l18n S =>
    simp only [globalWakeupMt, Option.some.injEq, Prod.mk.injEq] at h
    obtain ⟨-, rfl, -⟩ := h
    exact .refl ..

theorem ompiSyncWaitMt_guarantee {max : ℤ} {t : Tid} {S : Sid} {m m' : Mem} {pc : WaitPc}
    {f : Frame} {e : Event} (ho : (m.sync S).owner = some t)
    (hs : pc.locked = true → (m.sync S).lock = some t)
    (hl : pc.listLocked = true → m.waitSyncLock = some t)
    (hp : pc.passing = true → ∀ X, m.waitSyncList = some X → (m.sync X).lock = some t)
    (h : ompiSyncWaitMt max t S m pc = some (f, m', e)) : Guarantee t m m' := by
  cases pc <;> simp only [ompiSyncWaitMt, Option.ite_none_right_eq_some, Option.some.injEq,
    Option.map_eq_some_iff, Option.bind_eq_some_iff, Prod.mk.injEq] at h
  case l52 => obtain ⟨hf, -, rfl, -⟩ := h; exact .lock' hf
  case l83w => obtain ⟨⟨-, hf⟩, -, rfl, -⟩ := h; exact .lock' hf
  case l63 | l109 => obtain ⟨hf, -, rfl, -⟩ := h; exact .lockList hf
  case l73 | l119 => obtain ⟨-, rfl, -⟩ := h; exact .unlockList (hl rfl)
  case l58 | l92 | l98 => obtain ⟨-, rfl, -⟩ := h; exact .unlock (hs rfl)
  case l65 => obtain ⟨-, rfl, -⟩ := h; exact .setPrev (hl rfl)
  case l65n | l70 => obtain ⟨-, rfl, -⟩ := h; exact .setNext (hl rfl)
  case l66 | l114 => obtain ⟨-, rfl, -⟩ := h; exact .setList (hl rfl)
  case l68 | l71 | l111 => obtain ⟨X, -, -, rfl, -⟩ := h; exact .setPrev (hl rfl)
  case l69 | l110 => obtain ⟨X, -, -, rfl, -⟩ := h; exact .setNext (hl rfl)
  case l83 => obtain ⟨-, rfl, -⟩ := h; exact .sleep' (hs rfl) ho
  case l100 | l105 => obtain ⟨-, rfl, -⟩ := h; exact .addInProgress _
  case l36 => obtain ⟨X, -, hf, -, rfl, -⟩ := h; exact .lock' hf
  case l37 => obtain ⟨X, hX, -, rfl, -⟩ := h; exact .signal (hp rfl X hX)
  case l38 => obtain ⟨X, hX, -, rfl, -⟩ := h; exact .unlock (hp rfl X hX)
  all_goals obtain ⟨-, rfl, -⟩ := h; exact .refl ..

theorem waitSyncRelease_mem {S : Sid} {m m' : Mem} {pc : ReleasePc} {f : Frame} {e : Event}
    (h : waitSyncRelease S m pc = (f, m', e)) : m' = m := by
  cases pc <;> exact (Prod.mk.inj (Prod.mk.inj h).2).1.symm

/-- **Every step gives its guarantee.** -/
theorem moves_guarantee {max : ℤ} {t : Tid} {a : Act} {th th' : Thread} {m m' : Mem} {e : Event}
    (hl : ∀ S, (m.sync S).lock ≠ none → (m.sync S).owner ≠ none) (hh : Held t th m)
    (h : Moves max t a th m th' m' e) : Guarantee t m m' := by
  cases h with
  | init ho => exact .waitSyncInit ho (by by_contra hc; exact hl _ hc ho)
  | callWait | callRelease | callUpdate | callWakeup => exact .refl ..
  | spurious => exact .wake (hh.own _ rfl)
  | update h =>
    exact waitSyncUpdate_guarantee (fun hp => (hh.lock _).mpr (.inr ⟨hp, rfl⟩)) h
  | wakeup h =>
    refine globalWakeupMt_guarantee (fun hp => hh.list.mpr ?_) (fun S upc hpc hp => ?_) h
    · simp [Thread.listLocked, Call.listLocked, hp]
    · subst hpc
      exact (hh.lock _).mpr (.inr ⟨hp, rfl⟩)
  | wait h =>
    refine ompiSyncWaitMt_guarantee (hh.own _ rfl)
      (fun hp => (hh.lock _).mpr (.inl (.inl ⟨hp, rfl⟩))) (fun hp => hh.list.mpr ?_)
      (fun hp X hX => (hh.lock _).mpr (.inl (.inr ⟨hp, hX⟩))) h
    simp [Thread.listLocked, Frame.listLocked, hp]
  | release h => exact waitSyncRelease_mem h ▸ .refl ..

/-! ## A thread in its wait keeps its own view -/

/-- `Held` for a thread in its wait, field by field of its location. -/
structure HeldAt (t : Tid) (S : Sid) (m : Mem) (pc : WaitPc) : Prop where
  own : (m.sync S).owner = some t
  list : m.waitSyncLock = some t ↔ pc.listLocked = true
  lock : ∀ X, (m.sync X).lock = some t ↔
      pc.locked = true ∧ S = X ∨ pc.passing = true ∧ m.waitSyncList = some X
  sleep : (m.sync S).condition = [] ∨ (m.sync S).condition = [t] ∧ pc = .l83w

section HeldAt

variable {t : Tid} {S : Sid} {m m' : Mem} {pc pc' : WaitPc}

theorem heldAt_iff : HeldAt t S m pc ↔ Held t ⟨.wait S pc, .idle⟩ m where
  mp h :=
    { nested := fun hc => absurd rfl hc
      own := fun X hX => by cases hX; exact h.own
      target := fun X hX => by cases hX
      list := by simpa [Thread.listLocked, Frame.listLocked, Call.listLocked] using h.list
      lock := fun X => by simpa [Thread.holds, Frame.holds, Call.holds] using h.lock X
      sleep := fun X hX => by cases hX; simpa using h.sleep }
  mpr h :=
    { own := h.own S rfl
      list := by simpa [Thread.listLocked, Frame.listLocked, Call.listLocked] using h.list
      lock := fun X => by simpa [Thread.holds, Frame.holds, Call.holds] using h.lock X
      sleep := by simpa using h.sleep S rfl }

/-- The two memories agree on who owns, holds and sleeps in what. -/
structure Mem.SameLocks (m m' : Mem) : Prop where
  list : m'.waitSyncLock = m.waitSyncLock
  owner : ∀ X, (m'.sync X).owner = (m.sync X).owner
  lock : ∀ X, (m'.sync X).lock = (m.sync X).lock
  condition : ∀ X, (m'.sync X).condition = (m.sync X).condition

/-- A line that takes and gives back nothing. -/
theorem HeldAt.goto (h : HeldAt t S m pc) (same : m.SameLocks m') (hs : pc'.locked = pc.locked)
    (hl : pc'.listLocked = pc.listLocked) (hp : pc.passing = false) (hp' : pc'.passing = false)
    (hw : pc ≠ .l83w) : HeldAt t S m' pc' where
  own := (same.owner S).trans h.own
  list := by rw [same.list, hl, h.list]
  lock X := by rw [same.lock, hs, h.lock, hp, hp']; simp
  sleep := .inl ((same.condition S).trans (h.sleep.resolve_right fun hc => hw hc.2))

theorem Mem.SameLocks.refl (m : Mem) : m.SameLocks m :=
  ⟨rfl, fun _ => rfl, fun _ => rfl, fun _ => rfl⟩

theorem Mem.SameLocks.modify {X : Sid} {f : Sync → Sync}
    (owner : (f (m.sync X)).owner = (m.sync X).owner) (lock : (f (m.sync X)).lock = (m.sync X).lock)
    (condition : (f (m.sync X)).condition = (m.sync X).condition) :
    m.SameLocks (m.modify X f) where
  list := rfl
  owner Y := by by_cases h : Y = X <;> simp [h, owner]
  lock Y := by by_cases h : Y = X <;> simp [h, lock]
  condition Y := by by_cases h : Y = X <;> simp [h, condition]

/-- A line that takes its own lock. -/
theorem HeldAt.acquire (h : HeldAt t S m pc) (hs : pc'.locked = true)
    (hl : pc'.listLocked = pc.listLocked) (hp : pc.passing = false) (hp' : pc'.passing = false)
    (hw : t ∉ (m.sync S).condition) : HeldAt t S (m.lock S t) pc' where
  own := by simpa [Mem.lock] using h.own
  list := by rw [hl, ← h.list]; rfl
  lock X := by
    have := h.lock X
    by_cases hX : X = S
    · subst hX; simp [Mem.lock, hs]
    · simp [Mem.lock, hX, Ne.symm hX, this, hp, hp']
  sleep := .inl <| by
    rcases h.sleep with hc | ⟨hc, -⟩
    · simpa [Mem.lock] using hc
    · simp [hc] at hw

/-- A line that gives its own lock back; `l83` falls asleep with it. -/
theorem HeldAt.release (h : HeldAt t S m pc) (f : Sync → Sync) (hs : pc'.locked = false)
    (hl : pc'.listLocked = pc.listLocked) (hp : pc.passing = false) (hp' : pc'.passing = false)
    (owner : (f (m.sync S)).owner = (m.sync S).owner)
    (lock : (f (m.sync S)).lock = none)
    (sleep : (f (m.sync S)).condition = [] ∨ (f (m.sync S)).condition = [t] ∧ pc' = .l83w) :
    HeldAt t S (m.modify S f) pc' where
  own := by simpa [owner] using h.own
  list := by rw [hl, ← h.list]; rfl
  lock X := by
    have := h.lock X
    by_cases hX : X = S
    · subst hX; simp [lock, hs, hp']
    · simp [hX, Ne.symm hX, this, hp, hp']
  sleep := by simpa using sleep

/-- A line that takes `wait_sync_lock`. -/
theorem HeldAt.lockList (h : HeldAt t S m pc) (hs : pc'.locked = pc.locked)
    (hl : pc'.listLocked = true) (hp : pc.passing = false) (hp' : pc'.passing = false)
    (hw : pc ≠ .l83w) : HeldAt t S (m.lockList t) pc' where
  own := h.own
  list := by simp [Mem.lockList, hl]
  lock X := (h.lock X).trans (by simp [hs, hp, hp'])
  sleep := .inl (h.sleep.resolve_right fun hc => hw hc.2)

/-- A line that gives `wait_sync_lock` back. -/
theorem HeldAt.unlockList (h : HeldAt t S m pc) (hs : pc'.locked = pc.locked)
    (hl : pc'.listLocked = false) (hp : pc.passing = false) (hp' : pc'.passing = false)
    (hw : pc ≠ .l83w) : HeldAt t S m.unlockList pc' where
  own := h.own
  list := by simp [Mem.unlockList, hl]
  lock X := (h.lock X).trans (by simp [hs, hp, hp'])
  sleep := .inl (h.sleep.resolve_right fun hc => hw hc.2)

/-- A line that returns. -/
theorem HeldAt.back (h : HeldAt t S m pc) (hs : pc.locked = false) (hl : pc.listLocked = false)
    (hp : pc.passing = false) (hw : pc ≠ .l83w) (rc : Rc) : Held t ⟨.back S rc, .idle⟩ m where
  nested hc := absurd rfl hc
  own X hX := by cases hX; exact h.own
  target X hX := by cases hX
  list := by simp [h.list, hl, Thread.listLocked, Frame.listLocked, Call.listLocked]
  lock X := by simp [h.lock, hs, hp, Thread.holds, Frame.holds, Call.holds]
  sleep X hX := by cases hX; exact .inl (h.sleep.resolve_right fun hc => hw hc.2)

end HeldAt

theorem ompiSyncWaitMt_held {max : ℤ} {t : Tid} {S : Sid} {m m' : Mem} {pc : WaitPc}
    {f : Frame} {e : Event} (hh : Held t ⟨.wait S pc, .idle⟩ m)
    (h : ompiSyncWaitMt max t S m pc = some (f, m', e)) : Held t ⟨f, .idle⟩ m' := by
  have ha : HeldAt t S m pc := heldAt_iff.mpr hh
  cases pc <;> simp only [ompiSyncWaitMt, Option.ite_none_right_eq_some, Option.some.injEq,
    Option.map_eq_some_iff, Option.bind_eq_some_iff, Prod.mk.injEq] at h
  case l48 | l59 | l121 =>
    obtain ⟨rfl, rfl, -⟩ := h
    exact ha.back rfl rfl rfl (by simp) _
  case l52 =>
    obtain ⟨-, rfl, rfl, -⟩ := h
    refine heldAt_iff.mp (ha.acquire rfl rfl rfl rfl ?_)
    simp [ha.sleep.resolve_right (by simp)]
  case l83w =>
    obtain ⟨⟨hw, -⟩, rfl, rfl, -⟩ := h
    exact heldAt_iff.mp (ha.acquire rfl rfl rfl rfl hw)
  case l58 | l92 | l98 =>
    obtain ⟨rfl, rfl, -⟩ := h
    exact heldAt_iff.mp (ha.release (fun s => { s with lock := none }) rfl rfl rfl rfl rfl rfl
      (.inl (ha.sleep.resolve_right (by simp))))
  case l83 =>
    obtain ⟨rfl, rfl, -⟩ := h
    refine heldAt_iff.mp (ha.release
      (fun s => { s with lock := none, condition := s.condition ++ [t] })
      rfl rfl rfl rfl rfl rfl (.inr ⟨?_, rfl⟩))
    simp [ha.sleep.resolve_right (by simp)]
  case l63 | l109 =>
    obtain ⟨-, rfl, rfl, -⟩ := h
    exact heldAt_iff.mp (ha.lockList rfl rfl rfl rfl (by simp))
  case l73 | l119 =>
    obtain ⟨rfl, rfl, -⟩ := h
    exact heldAt_iff.mp (ha.unlockList rfl rfl rfl rfl (by simp))
  case l65 | l65n | l70 =>
    obtain ⟨rfl, rfl, -⟩ := h
    exact heldAt_iff.mp (ha.goto (.modify rfl rfl rfl) rfl rfl rfl rfl (by simp))
  case l68 | l69 | l71 | l110 | l111 =>
    obtain ⟨X, -, rfl, rfl, -⟩ := h
    exact heldAt_iff.mp (ha.goto (.modify rfl rfl rfl) rfl rfl rfl rfl (by simp))
  case l66 | l114 | l100 | l105 =>
    obtain ⟨rfl, rfl, -⟩ := h
    exact heldAt_iff.mp (ha.goto ⟨rfl, fun _ => rfl, fun _ => rfl, fun _ => rfl⟩
      rfl rfl rfl rfl (by simp))
  case l103 =>
    obtain ⟨rfl, rfl, -⟩ := h
    exact heldAt_iff.mp (ha.goto (.refl m) rfl rfl rfl rfl (by simp))
  case l36 =>
    obtain ⟨X, hX, -, rfl, rfl, -⟩ := h
    refine heldAt_iff.mp ⟨?_, ha.list, fun Y => ?_, ?_⟩
    · by_cases hS : S = X <;> simp [Mem.lock, hS, ← ha.own]
    · have := ha.lock Y
      by_cases hY : Y = X
      · subst hY; simp [Mem.lock, WaitPc.passing, hX]
      · simp [Mem.lock, hY, this, WaitPc.locked, WaitPc.passing, hX, Ne.symm hY]
    · by_cases hS : S = X <;> simpa [Mem.lock, hS] using ha.sleep
  case l37 =>
    obtain ⟨X, hX, rfl, rfl, -⟩ := h
    refine heldAt_iff.mp ⟨?_, ha.list, fun Y => ?_, .inl ?_⟩
    · by_cases hS : S = X <;> simp [Mem.signal, hS, ← ha.own]
    · refine Iff.trans ?_ (ha.lock Y)
      by_cases hY : Y = X
      · subst hY; simp [Mem.signal]
      · simp [Mem.signal, hY]
    · have := ha.sleep.resolve_right (by simp)
      by_cases hS : S = X <;> simp_all [Mem.signal]
  case l38 =>
    obtain ⟨X, hX, rfl, rfl, -⟩ := h
    refine heldAt_iff.mp ⟨?_, ha.list, fun Y => ?_, ?_⟩
    · by_cases hS : S = X <;> simp [Mem.unlock, hS, ← ha.own]
    · have := ha.lock Y
      by_cases hY : Y = X
      · subst hY; simp [Mem.unlock, WaitPc.locked, WaitPc.passing]
      · simp [Mem.unlock, hY, this, WaitPc.locked, WaitPc.passing, hX, Ne.symm hY]
    · by_cases hS : S = X <;> simpa [Mem.unlock, hS] using ha.sleep
  -- The tests: memory is only read, and both branches hold what the test held.
  all_goals
    obtain ⟨rfl, rfl, -⟩ := h
    split <;> exact heldAt_iff.mp (ha.goto (.refl m) rfl rfl rfl rfl (by simp))

/-! ## …and so does a thread in a call -/

section Call

variable {t : Tid} {m m' : Mem} {f : Frame}

/-- Inside the wait only `progress()` calls. -/
theorem Frame.eq_of_mayCall {S : Sid} {pc : WaitPc} (hf : (Frame.wait S pc).mayCall = true) :
    pc = .l103 := by
  cases pc <;> first | rfl | exact absurd hf Bool.false_ne_true

theorem Frame.not_holds_of_mayCall (hf : f.mayCall = true) (h : Option Sid) (S : Sid) :
    ¬ f.holds h S := by
  cases f with
  | wait S' pc =>
    obtain rfl := eq_of_mayCall hf
    simp [holds, WaitPc.locked, WaitPc.passing]
  | _ => exact id

theorem Frame.listLocked_of_mayCall (hf : f.mayCall = true) : f.listLocked = false := by
  cases f with
  | wait S' pc => obtain rfl := eq_of_mayCall hf; rfl
  | _ => rfl

/-- A thread that may call sleeps nowhere. -/
theorem Held.awake {c : Call} (h : Held t ⟨f, c⟩ m) (hf : f.mayCall = true) {S : Sid}
    (hS : f.sync = some S) : (m.sync S).condition = [] := by
  refine (h.sleep S hS).resolve_right fun hc => ?_
  obtain rfl : f = _ := hc.2
  exact absurd hf Bool.false_ne_true

/-- `Held` of a thread in a call, from what the call holds. -/
theorem Held.of_call {c : Call} (hf : f.mayCall = true)
    (own : ∀ S, f.sync = some S → (m.sync S).owner = some t)
    (target : ∀ S, c.target = some S → (m.sync S).owner ≠ none)
    (list : m.waitSyncLock = some t ↔ c.listLocked = true)
    (lock : ∀ S, (m.sync S).lock = some t ↔ c.holds S)
    (sleep : ∀ S, f.sync = some S → (m.sync S).condition = []) : Held t ⟨f, c⟩ m where
  nested _ := hf
  own := own
  target := target
  list := by simpa [Thread.listLocked, f.listLocked_of_mayCall hf] using list
  lock S := by simpa [Thread.holds, f.not_holds_of_mayCall hf] using lock S
  sleep S hS := .inl (sleep S hS)

theorem Held.call_list {c : Call} (h : Held t ⟨f, c⟩ m) (hf : f.mayCall = true) :
    m.waitSyncLock = some t ↔ c.listLocked = true := by
  simpa [Thread.listLocked, f.listLocked_of_mayCall hf] using h.list

theorem Held.call_lock {c : Call} (h : Held t ⟨f, c⟩ m) (hf : f.mayCall = true) (S : Sid) :
    (m.sync S).lock = some t ↔ c.holds S := by
  simpa [Thread.holds, f.not_holds_of_mayCall hf] using h.lock S

/-- What an update leaves as it was, whichever line of it runs. -/
theorem waitSyncUpdate_frame {S : Sid} {u st : ℤ} {pc : UpdatePc} {pc' : Option UpdatePc}
    {e : Event} (h : waitSyncUpdate t S u st m pc = some (pc', m', e)) :
    m'.waitSyncLock = m.waitSyncLock ∧ m'.waitSyncList = m.waitSyncList ∧
      (∀ X, (m'.sync X).owner = (m.sync X).owner ∧ (m'.sync X).next = (m.sync X).next ∧
        (m'.sync X).prev = (m.sync X).prev) ∧
      (∀ X, (m.sync X).condition = [] → (m'.sync X).condition = []) ∧
      ∀ X, X ≠ S → m'.sync X = m.sync X := by
  cases pc <;> simp only [waitSyncUpdate, Option.ite_none_right_eq_some, Option.some.injEq,
    Prod.mk.injEq] at h
  case l110 => obtain ⟨-, rfl, -⟩ := h; simp
  case l52 =>
    obtain ⟨-, -, rfl, -⟩ := h
    refine ⟨rfl, rfl, fun X => ?_, fun X hX => ?_, fun X hX => ?_⟩ <;>
      by_cases hS : X = S <;> simp_all [Mem.lock]
  all_goals
    obtain ⟨-, rfl, -⟩ := h
    refine ⟨rfl, rfl, fun X => ?_, fun X hX => ?_, fun X hX => ?_⟩ <;>
      by_cases hS : X = S <;>
      simp_all [Mem.setCount, Mem.setStatus, Mem.signal, Mem.unlock, Mem.clearSignaling]

/-- The lock an update holds goes with its location. -/
theorem waitSyncUpdate_lock {S : Sid} {u st : ℤ} {pc : UpdatePc} {pc' : Option UpdatePc}
    {e : Event} (hl : ∀ X, (m.sync X).lock = some t ↔ pc.locked = true ∧ S = X)
    (h : waitSyncUpdate t S u st m pc = some (pc', m', e)) (X : Sid) :
    (m'.sync X).lock = some t ↔ (pc'.elim false UpdatePc.locked) = true ∧ S = X := by
  have hX := hl X
  cases pc <;> simp only [waitSyncUpdate, Option.ite_none_right_eq_some, Option.some.injEq,
    Prod.mk.injEq] at h
  case l110 => obtain ⟨rfl, rfl, -⟩ := h; split <;> simpa [UpdatePc.locked] using hX
  case l52 =>
    obtain ⟨-, rfl, rfl, -⟩ := h
    by_cases hS : X = S
    · simp [Mem.lock, hS, UpdatePc.locked]
    · simpa [Mem.lock, hS, Ne.symm hS, UpdatePc.locked] using hX
  case l54 =>
    obtain ⟨rfl, rfl, -⟩ := h
    by_cases hS : X = S
    · simp [Mem.unlock, hS, UpdatePc.locked]
    · simpa [Mem.unlock, hS, Ne.symm hS, UpdatePc.locked] using hX
  case l111 =>
    obtain ⟨rfl, rfl, -⟩ := h
    by_cases hS : X = S <;> split <;> simp_all [Mem.setCount, UpdatePc.locked]
  all_goals
    obtain ⟨rfl, rfl, -⟩ := h
    by_cases hS : X = S <;>
      simp_all [Mem.setStatus, Mem.setCount, Mem.signal, Mem.clearSignaling, UpdatePc.locked]

theorem waitSyncUpdate_held {S : Sid} {u st : ℤ} {pc : UpdatePc} {pc' : Option UpdatePc}
    {e : Event} (hh : Held t ⟨f, .update S u st pc⟩ m)
    (h : waitSyncUpdate t S u st m pc = some (pc', m', e)) :
    Held t ⟨f, pc'.elim .idle (.update S u st)⟩ m' := by
  have hf : f.mayCall = true := hh.nested (by simp)
  obtain ⟨hl, -, ho, hc, -⟩ := waitSyncUpdate_frame h
  have lock := waitSyncUpdate_lock (hh.call_lock hf) h
  refine .of_call hf (fun X hX => ?_) (fun X hX => ?_) ?_ (fun X => ?_) (fun X hX => ?_)
  · rw [(ho X).1, hh.own X hX]
  · rw [(ho X).1]
    refine hh.target X ?_
    cases pc' with
    | none => cases hX
    | some pc' => exact hX
  · rw [hl, hh.call_list hf]
    cases pc' <;> simp [Call.listLocked]
  · rw [lock X]
    cases pc' <;> simp [Call.holds]
  · exact hc X (hh.awake hf hX)

theorem WakeupPc.target_next {st : ℤ} {o : Option Sid} {S : Sid}
    (h : (Call.wakeup st (WakeupPc.next o).1).target = some S) : o = some S := by
  cases o with
  | none => cases h
  | some X => exact h

theorem globalWakeupMt_held {st : ℤ} {pc : WakeupPc} {pc' : Option WakeupPc} {e : Event}
    (hn : Named m) (hh : Held t ⟨f, .wakeup st pc⟩ m)
    (h : globalWakeupMt t st m pc = some (pc', m', e)) :
    Held t ⟨f, pc'.elim .idle (.wakeup st)⟩ m' := by
  have hf : f.mayCall = true := hh.nested (by simp)
  have list := hh.call_list hf
  have lock := hh.call_lock hf
  have awake : ∀ S, f.sync = some S → (m.sync S).condition = [] := fun S => hh.awake hf
  cases pc with
  | l24 S upc =>
    obtain ⟨⟨upc', m₁, e₁⟩, hu, hr⟩ := Option.map_eq_some_iff.mp h
    obtain ⟨rfl, rfl, rfl⟩ : _ = pc' ∧ _ = m' ∧ _ = e := by simpa using hr
    obtain ⟨hl, -, ho, hc, -⟩ := waitSyncUpdate_frame hu
    have lock' := waitSyncUpdate_lock lock hu
    refine .of_call hf (fun X hX => ?_) (fun X hX => ?_) ?_ (fun X => ?_) (fun X hX => ?_)
    · rw [(ho X).1, hh.own X hX]
    · rw [(ho X).1]
      refine hh.target X ?_
      cases upc' <;> simpa [Call.target] using hX
    · rw [hl, list]
      cases upc' <;> simp [Call.listLocked, WakeupPc.listLocked]
    · rw [lock' X]
      cases upc' <;> simp [Call.holds]
    · exact hc X (awake X hX)
  | l17 =>
    simp only [globalWakeupMt, Option.ite_none_right_eq_some, Option.some.injEq,
      Prod.mk.injEq] at h
    obtain ⟨-, rfl, rfl, -⟩ := h
    refine .of_call hf hh.own (fun X hX => by cases hX) ?_ lock awake
    simp [Mem.lockList, Call.listLocked, WakeupPc.listLocked]
  | l29 =>
    simp only [globalWakeupMt, Option.some.injEq, Prod.mk.injEq] at h
    obtain ⟨rfl, rfl, -⟩ := h
    refine .of_call hf hh.own (fun X hX => by cases hX) ?_ lock awake
    simp [Mem.unlockList, Call.listLocked]
  | l18 =>
    simp only [globalWakeupMt, Option.some.injEq, Prod.mk.injEq] at h
    obtain ⟨rfl, rfl, -⟩ := h
    refine .of_call hf hh.own (fun X hX => hn.list X (WakeupPc.target_next hX)) ?_ (fun X => ?_)
      awake
    · rw [list]
      cases m.waitSyncList <;> simp [Call.listLocked, WakeupPc.listLocked, WakeupPc.next]
    · rw [lock X]
      cases m.waitSyncList <;> simp [Call.holds, WakeupPc.next, UpdatePc.locked]
  | l18n S =>
    simp only [globalWakeupMt, Option.some.injEq, Prod.mk.injEq] at h
    obtain ⟨rfl, rfl, -⟩ := h
    refine .of_call hf hh.own (fun X hX => hn.next S X (WakeupPc.target_next hX)) ?_ (fun X => ?_)
      awake
    · rw [list]
      cases (m.sync S).next <;> simp [Call.listLocked, WakeupPc.listLocked, WakeupPc.next]
    · rw [lock X]
      cases (m.sync S).next <;> simp [Call.holds, WakeupPc.next, UpdatePc.locked]
  | l25 S =>
    simp only [globalWakeupMt, Option.some.injEq, Prod.mk.injEq] at h
    obtain ⟨rfl, rfl, -⟩ := h
    refine .of_call hf hh.own (fun X hX => hh.target X ?_) ?_ (fun X => ?_) awake
    · revert hX
      simp only [Option.elim]
      split <;> intro hX
      · cases hX
      · exact hX
    · rw [list]
      simp only [Option.elim]
      split <;> simp [Call.listLocked, WakeupPc.listLocked]
    · rw [lock X]
      simp only [Option.elim]
      split <;> simp [Call.holds]

end Call

/-- `Held` of a thread that holds nothing. -/
theorem Held.of_idle {t : Tid} {m : Mem} {f : Frame} (hf : ∀ h S, ¬ f.holds h S)
    (hl : f.listLocked = false) (own : ∀ S, f.sync = some S → (m.sync S).owner = some t)
    (list : m.waitSyncLock ≠ some t) (lock : ∀ S, (m.sync S).lock ≠ some t)
    (sleep : ∀ S, f.sync = some S → (m.sync S).condition = []) : Held t ⟨f, .idle⟩ m where
  nested h := absurd rfl h
  own := own
  target S hS := by cases hS
  list := by simp [list, Thread.listLocked, hl, Call.listLocked]
  lock S := by simp [lock, Thread.holds, hf, Call.holds]
  sleep S hS := .inl (sleep S hS)

/-- A thread at such a place holds nothing. -/
theorem Held.idle {t : Tid} {m : Mem} {f : Frame} (h : Held t ⟨f, .idle⟩ m)
    (hf : ∀ h S, ¬ f.holds h S) (hl : f.listLocked = false) :
    m.waitSyncLock ≠ some t ∧ ∀ S, (m.sync S).lock ≠ some t := by
  refine ⟨fun hc => ?_, fun S hc => ?_⟩
  · have := h.list.mp hc
    simp [Thread.listLocked, hl, Call.listLocked] at this
  · rcases (h.lock S).mp hc with h' | h'
    exacts [hf _ _ h', h']

/-- **Every step keeps the mover's own view.** -/
theorem moves_held {max : ℤ} {t : Tid} {a : Act} {th th' : Thread} {m m' : Mem} {e : Event}
    (hn : Named m) (hh : Held t th m) (h : Moves max t a th m th' m' e) : Held t th' m' := by
  cases h with
  | update h => exact waitSyncUpdate_held hh h
  | wakeup h => exact globalWakeupMt_held hn hh h
  | wait h => exact ompiSyncWaitMt_held hh h
  | callUpdate hf ho =>
    refine .of_call hf hh.own (fun X hX => by cases hX; exact ho) (hh.call_list hf)
      (fun X => (hh.call_lock hf X).trans ?_) (fun X => hh.awake hf)
    simp [Call.holds, UpdatePc.locked]
  | callWakeup hf =>
    exact .of_call hf hh.own (fun X hX => by cases hX) (hh.call_list hf) (hh.call_lock hf)
      (fun X => hh.awake hf)
  | callWait =>
    obtain ⟨hl, hs⟩ := hh.idle (fun _ _ => id) rfl
    refine .of_idle (fun _ _ => ?_) rfl hh.own hl hs (fun X => hh.awake rfl)
    simp [Frame.holds, WaitPc.locked, WaitPc.passing]
  | callRelease =>
    obtain ⟨hl, hs⟩ := hh.idle (fun _ _ => id) rfl
    exact .of_idle (fun _ _ => id) rfl hh.own hl hs (fun X => hh.awake rfl)
  | @spurious _ S hs =>
    obtain ⟨own, list, lock, sleep⟩ := heldAt_iff.mpr hh
    refine heldAt_iff.mp ⟨?_, list, fun X => ?_, .inl ?_⟩
    · simpa [Mem.wake] using own
    · refine Iff.trans ?_ (lock X)
      by_cases hX : X = S <;> simp [Mem.wake, hX]
    · rcases sleep with hc | ⟨hc, -⟩ <;> simp [Mem.wake, hc]
  | @release _ _ f S pc _ h =>
    obtain ⟨hl, hs⟩ := hh.idle (fun _ _ => id) rfl
    have hc : (m.sync S).condition = [] := (hh.sleep S rfl).resolve_right (by simp)
    cases pc <;> simp only [waitSyncRelease, Prod.mk.injEq] at h <;> obtain ⟨rfl, rfl, -⟩ := h
    case l41 => exact .of_idle (fun _ _ => id) rfl (fun X hX => by cases hX) hl hs
                  (fun X hX => by cases hX)
    all_goals exact .of_idle (fun _ _ => id) rfl (fun X hX => by cases hX; exact hh.own S rfl) hl hs
                (fun X hX => by cases hX; exact hc)
  | @init _ S c ho =>
    obtain ⟨hl, hs⟩ := hh.idle (fun _ _ => id) rfl
    refine .of_idle (fun _ _ => id) rfl (fun X hX => ?_) hl (fun X => ?_) (fun X hX => ?_)
    · cases hX; simp [Mem.waitSyncInit]
    · by_cases hX : X = S <;> simp [Mem.waitSyncInit, hX, hs]
    · cases hX; simp [Mem.waitSyncInit]

/-! ## The names stay initialised -/

/-- A call holds only the lock of its target. -/
theorem Call.target_of_holds {c : Call} {S : Sid} (h : c.holds S) : c.target = some S :=
  match c, h with
  | .update .., ⟨_, rfl⟩ => rfl
  | .wakeup _ (.l24 ..), ⟨_, rfl⟩ => rfl

/-- What a thread holds is its own, its target's or the head's. -/
theorem Held.named_lock {t : Tid} {th : Thread} {m : Mem} (h : Held t th m)
    (list : ∀ X, m.waitSyncList = some X → (m.sync X).owner ≠ none) {S : Sid}
    (hl : (m.sync S).lock = some t) : (m.sync S).owner ≠ none := by
  rcases (h.lock S).mp hl with hf | hc
  · obtain ⟨f, c⟩ := th
    cases f <;> simp only [Frame.holds] at hf
    rcases hf with ⟨-, rfl⟩ | ⟨-, hX⟩
    · simp [h.own _ rfl]
    · exact list S hX
  · exact h.target S (Call.target_of_holds hc)

section Named

variable {m : Mem} {S : Sid}

theorem Named.modify (hn : Named m) {f : Sync → Sync}
    (owner : (m.sync S).owner ≠ none → (f (m.sync S)).owner ≠ none)
    (next : ∀ X, (f (m.sync S)).next = some X → (m.sync X).owner ≠ none)
    (prev : ∀ X, (f (m.sync S)).prev = some X → (m.sync X).owner ≠ none) :
    Named (m.modify S f) := by
  have keep : ∀ X, (m.sync X).owner ≠ none → ((m.modify S f).sync X).owner ≠ none := fun X hX => by
    by_cases h : X = S
    · subst h; simpa using owner hX
    · simpa [h] using hX
  refine ⟨fun X h => keep X (hn.list X h), fun Y X h => keep X ?_, fun Y X h => keep X ?_⟩
  · by_cases hY : Y = S
    · subst hY; exact next X (by simpa using h)
    · exact hn.next Y X (by simpa [hY] using h)
  · by_cases hY : Y = S
    · subst hY; exact prev X (by simpa using h)
    · exact hn.prev Y X (by simpa [hY] using h)

theorem Named.setNext (hn : Named m) {v : Option Sid}
    (hv : ∀ X, v = some X → (m.sync X).owner ≠ none) : Named (m.setNext S v) :=
  hn.modify id hv (hn.prev S)

theorem Named.setPrev (hn : Named m) {v : Option Sid}
    (hv : ∀ X, v = some X → (m.sync X).owner ≠ none) : Named (m.setPrev S v) :=
  hn.modify id (hn.next S) hv

theorem Named.setList (hn : Named m) {v : Option Sid}
    (hv : ∀ X, v = some X → (m.sync X).owner ≠ none) : Named (m.setList v) :=
  ⟨hv, hn.next, hn.prev⟩

/-- A step that writes neither the links, the head nor an owner. -/
theorem Named.frame {m' : Mem} (hn : Named m) (list : m'.waitSyncList = m.waitSyncList)
    (links : ∀ X, (m'.sync X).owner = (m.sync X).owner ∧ (m'.sync X).next = (m.sync X).next ∧
      (m'.sync X).prev = (m.sync X).prev) : Named m' where
  list X h := by rw [(links X).1]; exact hn.list X (list ▸ h)
  next S X h := by rw [(links X).1]; exact hn.next S X ((links S).2.1 ▸ h)
  prev S X h := by rw [(links X).1]; exact hn.prev S X ((links S).2.2 ▸ h)

theorem Named.same (hn : Named m) {f : Sync → Sync} (owner : ∀ s, (f s).owner = s.owner)
    (next : ∀ s, (f s).next = s.next) (prev : ∀ s, (f s).prev = s.prev) : Named (m.modify S f) :=
  hn.modify (fun h => by rwa [owner]) (by simpa [next] using hn.next S)
    (by simpa [prev] using hn.prev S)

end Named

theorem ompiSyncWaitMt_named {max : ℤ} {t : Tid} {S : Sid} {m m' : Mem} {pc : WaitPc}
    {f : Frame} {e : Event} (hn : Named m) (own : (m.sync S).owner = some t)
    (h : ompiSyncWaitMt max t S m pc = some (f, m', e)) : Named m' := by
  have self : ∀ X, some S = some X → (m.sync X).owner ≠ none := fun X hX => by
    cases hX; simp [own]
  cases pc <;> simp only [ompiSyncWaitMt, Option.ite_none_right_eq_some, Option.some.injEq,
    Option.map_eq_some_iff, Option.bind_eq_some_iff, Prod.mk.injEq] at h
  case l52 | l83w =>
    obtain ⟨-, -, rfl, -⟩ := h
    exact hn.same (fun _ => rfl) (fun _ => rfl) fun _ => rfl
  case l58 | l83 | l92 | l98 =>
    obtain ⟨-, rfl, -⟩ := h
    exact hn.same (fun _ => rfl) (fun _ => rfl) fun _ => rfl
  case l36 =>
    obtain ⟨X, -, -, -, rfl, -⟩ := h
    exact hn.same (fun _ => rfl) (fun _ => rfl) fun _ => rfl
  case l37 | l38 =>
    obtain ⟨X, -, -, rfl, -⟩ := h
    exact hn.same (fun _ => rfl) (fun _ => rfl) fun _ => rfl
  case l63 | l109 => obtain ⟨-, -, rfl, -⟩ := h; exact ⟨hn.list, hn.next, hn.prev⟩
  case l73 | l100 | l105 | l119 => obtain ⟨-, rfl, -⟩ := h; exact ⟨hn.list, hn.next, hn.prev⟩
  case l65 => obtain ⟨-, rfl, -⟩ := h; exact hn.setPrev self
  case l65n => obtain ⟨-, rfl, -⟩ := h; exact hn.setNext (hn.prev S)
  case l66 => obtain ⟨-, rfl, -⟩ := h; exact hn.setList self
  case l68 => obtain ⟨X, -, -, rfl, -⟩ := h; exact hn.setPrev (hn.prev X)
  case l69 => obtain ⟨X, -, -, rfl, -⟩ := h; exact hn.setNext self
  case l70 => obtain ⟨-, rfl, -⟩ := h; exact hn.setNext hn.list
  case l71 => obtain ⟨X, -, -, rfl, -⟩ := h; exact hn.setPrev self
  case l110 => obtain ⟨X, -, -, rfl, -⟩ := h; exact hn.setNext (hn.next S)
  case l111 => obtain ⟨X, -, -, rfl, -⟩ := h; exact hn.setPrev (hn.prev S)
  case l114 =>
    obtain ⟨-, rfl, -⟩ := h
    refine hn.setList fun X hX => ?_
    split at hX
    · cases hX
    · exact hn.next S X hX
  all_goals obtain ⟨-, rfl, -⟩ := h; exact hn

theorem globalWakeupMt_frame {t : Tid} {st : ℤ} {m m' : Mem} {pc : WakeupPc}
    {pc' : Option WakeupPc} {e : Event} (h : globalWakeupMt t st m pc = some (pc', m', e)) :
    m'.waitSyncList = m.waitSyncList ∧ ∀ X, (m'.sync X).owner = (m.sync X).owner ∧
      (m'.sync X).next = (m.sync X).next ∧ (m'.sync X).prev = (m.sync X).prev := by
  cases pc with
  | l24 S upc =>
    obtain ⟨⟨upc', m₁, e₁⟩, hu, hr⟩ := Option.map_eq_some_iff.mp h
    obtain ⟨rfl, rfl, rfl⟩ : _ = pc' ∧ _ = m' ∧ _ = e := by simpa using hr
    exact ⟨(waitSyncUpdate_frame hu).2.1, (waitSyncUpdate_frame hu).2.2.1⟩
  | l17 =>
    simp only [globalWakeupMt, Option.ite_none_right_eq_some, Option.some.injEq,
      Prod.mk.injEq] at h
    obtain ⟨-, -, rfl, -⟩ := h
    exact ⟨rfl, fun _ => ⟨rfl, rfl, rfl⟩⟩
  | l18 | l18n S | l25 S | l29 =>
    simp only [globalWakeupMt, Option.some.injEq, Prod.mk.injEq] at h
    obtain ⟨-, rfl, -⟩ := h
    exact ⟨rfl, fun _ => ⟨rfl, rfl, rfl⟩⟩

/-- **Every step keeps the names initialised.** -/
theorem moves_named {max : ℤ} {t : Tid} {a : Act} {th th' : Thread} {m m' : Mem} {e : Event}
    (hn : Named m) (hh : Held t th m) (h : Moves max t a th m th' m' e) : Named m' := by
  cases h with
  | init ho => exact hn.modify (fun h => absurd ho h) (by simp) (by simp)
  | callWait | callRelease | callUpdate | callWakeup => exact hn
  | spurious => exact hn.same (fun _ => rfl) (fun _ => rfl) fun _ => rfl
  | update h => exact hn.frame (waitSyncUpdate_frame h).2.1 (waitSyncUpdate_frame h).2.2.1
  | wakeup h => exact hn.frame (globalWakeupMt_frame h).1 (globalWakeupMt_frame h).2
  | wait h => exact ompiSyncWaitMt_named hn (hh.own _ rfl) h
  | release h => exact waitSyncRelease_mem h ▸ hn

/-! ## The lock invariant of every run -/

/-- **The lock invariant.** -/
structure Locked (s : St) : Prop where
  named : Named s.mem
  held : ∀ t, Held t (s.loc t) s.mem

theorem Locked.owner_of_lock {s : St} (h : Locked s) (S : Sid)
    (hS : (s.mem.sync S).lock ≠ none) : (s.mem.sync S).owner ≠ none := by
  obtain ⟨t, ht⟩ := Option.ne_none_iff_exists'.mp hS
  exact (h.held t).named_lock h.named.list ht

theorem start_locked : Locked start where
  named := ⟨by simp [start, Mem.init], by simp [start, Mem.init, Sync.blank],
    by simp [start, Mem.init, Sync.blank]⟩
  held t := .of_idle (fun _ _ => id) rfl (fun S hS => by cases hS) (by simp [start, Mem.init])
    (fun S => by simp [start, Mem.init, Sync.blank]) (fun S hS => by cases hS)

/-- **One step keeps the lock invariant.** -/
theorem Locked.step {max : ℤ} {s : St} {t : Tid} {a : Act} {l : Thread} {m : Mem} {e : Event}
    (h : Locked s) (hm : Moves max t a (s.loc t) s.mem l m e) : Locked (s.move t l m) := by
  have hg := moves_guarantee h.owner_of_lock (h.held t) hm
  refine ⟨moves_named h.named (h.held t) hm, ?_⟩
  exact (State.forall_move s t l m (A := fun t th => Held t th m)).mpr
    ⟨moves_held h.named (h.held t) hm, fun t' hne => (h.held t').stable hg hne⟩

/-- **A run keeps the lock invariant.** -/
theorem locked_of_path {max : ℤ} {s : St} {π : List (Transition Tid Thread Mem Act Event)}
    (hp : (waitSync max).Path start π s) : Locked s :=
  hp.invariant (fun _ => Locked) (fun _ _ _ => True)
    (fun _ _ _ _ _ _ _ h _ hx => h.step (moves_of_exec hx)) (fun _ _ => trivial) start_locked

end Libult.WaitSync
