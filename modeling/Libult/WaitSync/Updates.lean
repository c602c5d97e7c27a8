import Libult.WaitSync.Locks

/-!
# WaitSync/Updates — only an update touches count, status and signaling

A step is a line of `wait_sync_update`, run for a direct call or by the global wakeup, or it
initialises a sync, or it is **quiet**: every sync keeps its count, its status and its flag.  So
each fact about counts and statuses is checked on the eight lines of the update.
-/

namespace Libult.WaitSync

open Interleaving

/-- The sync whose count, status or flag an event is about. -/
def Event.tallied : Event → Option Sid
  | .inited S _ | .applied S _ _ | .stored S _ | .swapped S | .sigLock S | .sigSignal S
  | .sigUnlock S | .sigCleared S => some S
  | _ => none

/-- An event of the thread's own initialisation, wait or release. -/
def Event.own : Event → Bool
  | .inited _ _ | .registered _ | .removed _ | .returned _ _ | .condDestroyed _
  | .lockDestroyed _ => true
  | _ => false

/-- The update a call is executing: its sync, size, status and location. -/
def Call.updating : Call → Option (Sid × ℤ × ℤ × UpdatePc)
  | .update S u st pc => some (S, u, st, pc)
  | .wakeup st (.l24 S pc) => some (S, 0, st, pc)
  | _ => none

theorem Call.holds_iff {c : Call} {S : Sid} :
    c.holds S ↔ ∃ u st pc, c.updating = some (S, u, st, pc) ∧ pc.locked = true := by
  cases c with
  | idle => simp [holds, updating]
  | update S' u st pc =>
    simp only [holds, updating, Option.some.injEq, Prod.mk.injEq]
    constructor
    · rintro ⟨hp, rfl⟩
      exact ⟨u, st, pc, ⟨rfl, rfl, rfl, rfl⟩, hp⟩
    · rintro ⟨_, _, _, ⟨rfl, rfl, rfl, rfl⟩, hp⟩
      exact ⟨hp, rfl⟩
  | wakeup st pc =>
    cases pc with
    | l24 S' pc =>
      simp only [holds, updating, Option.some.injEq, Prod.mk.injEq]
      constructor
      · rintro ⟨hp, rfl⟩
        exact ⟨0, st, pc, ⟨rfl, rfl, rfl, rfl⟩, hp⟩
      · rintro ⟨_, _, _, ⟨rfl, rfl, rfl, rfl⟩, hp⟩
        exact ⟨hp, rfl⟩
    | _ => simp [holds, updating]

theorem Call.target_of_updating {c : Call} {S : Sid} {u st : ℤ} {pc : UpdatePc}
    (h : c.updating = some (S, u, st, pc)) : c.target = some S := by
  cases c with
  | idle => cases h
  | update => cases h; rfl
  | wakeup st pc =>
    cases pc with
    | l24 => cases h; rfl
    | _ => cases h

/-- A step that is neither an update's nor an initialisation. -/
structure Quiet (m m' : Mem) (e : Event) : Prop where
  event : e.tallied = none
  owner : ∀ S, (m'.sync S).owner = (m.sync S).owner
  count : ∀ S, (m'.sync S).count = (m.sync S).count
  status : ∀ S, (m'.sync S).status = (m.sync S).status
  signaling : ∀ S, (m'.sync S).signaling = (m.sync S).signaling

theorem Quiet.of_sync {m m' : Mem} {e : Event} (he : e.tallied = none) (h : m'.sync = m.sync) :
    Quiet m m' e :=
  ⟨he, fun _ => by rw [h], fun _ => by rw [h], fun _ => by rw [h], fun _ => by rw [h]⟩

theorem Quiet.modify {m : Mem} {e : Event} {S : Sid} {f : Sync → Sync} (he : e.tallied = none)
    (ho : (f (m.sync S)).owner = (m.sync S).owner) (hc : (f (m.sync S)).count = (m.sync S).count)
    (hs : (f (m.sync S)).status = (m.sync S).status)
    (hg : (f (m.sync S)).signaling = (m.sync S).signaling) : Quiet m (m.modify S f) e where
  event := he
  owner X := by by_cases hS : X = S <;> simp [hS, ho]
  count X := by by_cases hS : X = S <;> simp [hS, hc]
  status X := by by_cases hS : X = S <;> simp [hS, hs]
  signaling X := by by_cases hS : X = S <;> simp [hS, hg]

/-- An update's line is an event of its sync, or of none. -/
theorem waitSyncUpdate_event {t : Tid} {S : Sid} {u st : ℤ} {m m' : Mem} {pc : UpdatePc}
    {pc' : Option UpdatePc} {e : Event} (h : waitSyncUpdate t S u st m pc = some (pc', m', e)) :
    e.own = false ∧ (e.tallied = none ∨ e.tallied = some S) := by
  cases pc <;> simp only [waitSyncUpdate, Option.ite_none_right_eq_some, Option.some.injEq,
    Prod.mk.injEq] at h
  case l110 => obtain ⟨-, -, rfl⟩ := h; exact ⟨rfl, .inl rfl⟩
  case l52 => obtain ⟨-, -, -, rfl⟩ := h; exact ⟨rfl, .inr rfl⟩
  all_goals obtain ⟨-, -, rfl⟩ := h; exact ⟨rfl, .inr rfl⟩

theorem globalWakeupMt_event {t : Tid} {st : ℤ} {m m' : Mem} {pc : WakeupPc}
    {pc' : Option WakeupPc} {e : Event} (h : globalWakeupMt t st m pc = some (pc', m', e)) :
    e.own = false := by
  cases pc with
  | l24 S upc =>
    obtain ⟨⟨upc', m₁, e₁⟩, hu, hr⟩ := Option.map_eq_some_iff.mp h
    obtain ⟨-, -, rfl⟩ : _ = pc' ∧ _ = m' ∧ _ = e := by simpa using hr
    exact (waitSyncUpdate_event hu).1
  | l17 =>
    simp only [globalWakeupMt, Option.ite_none_right_eq_some, Option.some.injEq,
      Prod.mk.injEq] at h
    obtain ⟨-, -, -, rfl⟩ := h
    rfl
  | l18 =>
    simp only [globalWakeupMt, Option.some.injEq, Prod.mk.injEq] at h
    obtain ⟨-, -, rfl⟩ := h
    cases m.waitSyncList <;> rfl
  | l18n S =>
    simp only [globalWakeupMt, Option.some.injEq, Prod.mk.injEq] at h
    obtain ⟨-, -, rfl⟩ := h
    cases (m.sync S).next <;> rfl
  | l25 S | l29 =>
    simp only [globalWakeupMt, Option.some.injEq, Prod.mk.injEq] at h
    obtain ⟨-, -, rfl⟩ := h
    rfl

/-- **The wait stays with its sync** until it is back, and destroys nothing. -/
theorem ompiSyncWaitMt_stays {max : ℤ} {t : Tid} {S : Sid} {m m' : Mem} {pc : WaitPc}
    {f : Frame} {e : Event} (h : ompiSyncWaitMt max t S m pc = some (f, m', e)) :
    ((∃ pc', f = .wait S pc') ∨ ∃ rc, f = .back S rc) ∧
      ∀ X, e ≠ .condDestroyed X ∧ e ≠ .lockDestroyed X := by
  cases pc <;> simp only [ompiSyncWaitMt, Option.ite_none_right_eq_some, Option.some.injEq,
    Option.map_eq_some_iff, Option.bind_eq_some_iff, Prod.mk.injEq] at h
  case l48 | l59 | l121 => obtain ⟨rfl, -, rfl⟩ := h; exact ⟨.inr ⟨_, rfl⟩, by simp⟩
  case l52 | l63 | l83w | l109 =>
    obtain ⟨-, rfl, -, rfl⟩ := h
    exact ⟨.inl ⟨_, rfl⟩, by simp⟩
  case l68 | l69 | l71 | l110 | l111 | l37 | l38 =>
    obtain ⟨_, -, rfl, -, rfl⟩ := h
    exact ⟨.inl ⟨_, rfl⟩, by simp⟩
  case l36 =>
    obtain ⟨_, -, -, rfl, -, rfl⟩ := h
    exact ⟨.inl ⟨_, rfl⟩, by simp⟩
  all_goals
    obtain ⟨rfl, -, rfl⟩ := h
    exact ⟨.inl ⟨_, rfl⟩, by simp⟩

theorem ompiSyncWaitMt_sync {max : ℤ} {t : Tid} {S : Sid} {m m' : Mem} {pc : WaitPc}
    {f : Frame} {e : Event} (h : ompiSyncWaitMt max t S m pc = some (f, m', e)) :
    f.sync = some S := by
  rcases (ompiSyncWaitMt_stays h).1 with ⟨pc', rfl⟩ | ⟨rc, rfl⟩ <;> rfl

theorem ompiSyncWaitMt_quiet {max : ℤ} {t : Tid} {S : Sid} {m m' : Mem} {pc : WaitPc}
    {f : Frame} {e : Event} (h : ompiSyncWaitMt max t S m pc = some (f, m', e)) :
    Quiet m m' e := by
  cases pc <;> simp only [ompiSyncWaitMt, Option.ite_none_right_eq_some, Option.some.injEq,
    Option.map_eq_some_iff, Option.bind_eq_some_iff, Prod.mk.injEq] at h
  case l52 | l83w => obtain ⟨-, -, rfl, rfl⟩ := h; exact .modify rfl rfl rfl rfl rfl
  case l58 | l65 | l65n | l70 | l83 | l92 | l98 =>
    obtain ⟨-, rfl, rfl⟩ := h
    exact .modify rfl rfl rfl rfl rfl
  case l68 | l69 | l71 | l110 | l111 | l37 | l38 =>
    obtain ⟨X, -, -, rfl, rfl⟩ := h
    exact .modify rfl rfl rfl rfl rfl
  case l36 => obtain ⟨X, -, -, -, rfl, rfl⟩ := h; exact .modify rfl rfl rfl rfl rfl
  case l63 | l109 => obtain ⟨-, -, rfl, rfl⟩ := h; exact .of_sync rfl rfl
  all_goals obtain ⟨-, rfl, rfl⟩ := h; exact .of_sync rfl rfl

/-- The update a thread is in the middle of moves only at its own lines. -/
structure QuietMove (a : Act) (th th' : Thread) (m m' : Mem) (e : Event) : Prop
    extends Quiet m m' e where
  before : th.call.updating = none
  after : ∀ S u st pc, th'.call.updating = some (S, u, st, pc) →
    pc = .l110 ∧ (u = 0 ∨ a = .update S u st)

theorem QuietMove.of_idle {a : Act} {th th' : Thread} {m m' : Mem} {e : Event} (q : Quiet m m' e)
    (before : th.call.updating = none) (after : th'.call.updating = none) :
    QuietMove a th th' m m' e :=
  { q with before, after := fun _ _ _ _ h => by simp [after] at h }

theorem wakeupNext_quiet (o : Option Sid) (st : ℤ) :
    (WakeupPc.next o).2.tallied = none ∧ ∀ S u st' pc,
      (Call.wakeup st (WakeupPc.next o).1).updating = some (S, u, st', pc) →
        u = 0 ∧ pc = .l110 := by
  cases o with
  | none => exact ⟨rfl, fun _ _ _ _ h => by cases h⟩
  | some X => exact ⟨rfl, fun _ _ _ _ h => by cases h; exact ⟨rfl, rfl⟩⟩

/-- **A step is a line of an update, an initialisation or quiet.** -/
theorem moves_update_or_quiet {max : ℤ} {t : Tid} {a : Act} {th th' : Thread} {m m' : Mem}
    {e : Event} (h : Moves max t a th m th' m' e) :
    (∃ S u st pc pc', th.call.updating = some (S, u, st, pc) ∧
      waitSyncUpdate t S u st m pc = some (pc', m', e) ∧ th'.frame = th.frame ∧
      th'.call.updating = pc'.map fun p => (S, u, st, p)) ∨
    (∃ S c, th = ⟨.out, .idle⟩ ∧ th' = ⟨.ready S, .idle⟩ ∧ (m.sync S).owner = none ∧
      m' = m.waitSyncInit S t c ∧ e = .inited S c) ∨
    QuietMove a th th' m m' e := by
  cases h with
  | @update _ _ f S u st pc pc' _ h =>
    refine .inl ⟨S, u, st, pc, pc', rfl, h, rfl, ?_⟩
    cases pc' <;> rfl
  | @wakeup _ _ f st pc pc' _ h =>
    cases pc with
    | l24 S upc =>
      obtain ⟨⟨upc', m₁, e₁⟩, hu, hr⟩ := Option.map_eq_some_iff.mp h
      obtain ⟨rfl, rfl, rfl⟩ : _ = pc' ∧ _ = m' ∧ _ = e := by simpa using hr
      refine .inl ⟨S, 0, st, upc, upc', rfl, hu, rfl, ?_⟩
      cases upc' <;> rfl
    | l17 =>
      simp only [globalWakeupMt, Option.ite_none_right_eq_some, Option.some.injEq,
        Prod.mk.injEq] at h
      obtain ⟨-, rfl, rfl, rfl⟩ := h
      exact .inr (.inr (.of_idle (.of_sync rfl rfl) rfl rfl))
    | l29 =>
      simp only [globalWakeupMt, Option.some.injEq, Prod.mk.injEq] at h
      obtain ⟨rfl, rfl, rfl⟩ := h
      exact .inr (.inr (.of_idle (.of_sync rfl rfl) rfl rfl))
    | l25 S =>
      simp only [globalWakeupMt, Option.some.injEq, Prod.mk.injEq] at h
      obtain ⟨rfl, rfl, rfl⟩ := h
      refine .inr (.inr ⟨.of_sync rfl rfl, rfl, fun _ _ _ _ h => ?_⟩)
      simp only [Option.elim] at h
      split at h <;> cases h
    | l18 | l18n S =>
      simp only [globalWakeupMt, Option.some.injEq, Prod.mk.injEq] at h
      obtain ⟨rfl, rfl, rfl⟩ := h
      exact .inr (.inr ⟨.of_sync (wakeupNext_quiet _ st).1 rfl, rfl,
        fun _ _ _ _ h => ((wakeupNext_quiet _ st).2 _ _ _ _ h).symm.imp_right .inl⟩)
  | wait h => exact .inr (.inr (.of_idle (ompiSyncWaitMt_quiet h) rfl rfl))
  | @release _ _ f S pc _ h =>
    refine .inr (.inr (.of_idle (.of_sync ?_ (by rw [waitSyncRelease_mem h])) rfl rfl))
    cases pc <;> obtain ⟨-, -, rfl⟩ := Prod.mk.injEq .. ▸ Prod.mk.injEq .. ▸ h <;> rfl
  | init ho => exact .inr (.inl ⟨_, _, rfl, rfl, ho, rfl, rfl⟩)
  | spurious => exact .inr (.inr (.of_idle (.modify rfl rfl rfl rfl rfl) rfl rfl))
  | callUpdate =>
    refine .inr (.inr ⟨.of_sync rfl rfl, rfl, fun _ _ _ _ h => ?_⟩)
    cases h
    exact ⟨rfl, .inr rfl⟩
  | callWait | callRelease | callWakeup =>
    exact .inr (.inr (.of_idle (.of_sync rfl rfl) rfl rfl))

end Libult.WaitSync
