import Libult.WaitSync.Stranded

/-!
# WaitSync/Release — when nobody uses a sync after its release

`WAIT_SYNC_RELEASE` destroys the lock and the condition once `signaling` is false, and a signaller
stores that as its last act.  With two signallers in flight the first one to finish opens the way
for the owner while the second has yet to take the lock.  A completing decrement cannot bring this
about: it finds the count above zero, so nobody has signalled and nobody is about to.  An error
update can, and so can a global wakeup — unless they enter `WAIT_SYNC_SIGNAL` when nobody is in
their way (`Orderly`).

    decrement   count → 0 ┄┄┄┄┄┄┄┄┄┄┄┄┄┄┄┄┄┄┄┄┄┄┄┄┄┄┄┄┄┄┄┄┄┄┄┄┄┄┄┄┄▸ lock   (destroyed)
    error                   swap, lock, signal, unlock, signaling := false
    owner                                                              return, destroy
-/

namespace Libult.WaitSync

open Interleaving Program

/-! ## The property -/

/-- The uses `WAIT_SYNC_SIGNAL` makes of a sync's lock and condition. -/
def Event.uses (S : Sid) (e : Event) : Prop := e = .sigLock S ∨ e = .sigSignal S ∨ e = .sigUnlock S

def Event.destroys (S : Sid) (e : Event) : Prop := e = .condDestroyed S ∨ e = .lockDestroyed S

instance (S : Sid) (e : Event) : Decidable (e.uses S) := by unfold Event.uses; infer_instance

instance (S : Sid) (e : Event) : Decidable (e.destroys S) := by unfold Event.destroys; infer_instance

/-- **No use of a released sync**: in a history, latest first, no use follows a destruction. -/
def ReleaseSafe (S : Sid) (h : List Event) : Prop :=
  h.Pairwise fun e e' => e.uses S → ¬ e'.destroys S

instance (S : Sid) (h : List Event) : Decidable (ReleaseSafe S h) := by
  unfold ReleaseSafe; infer_instance

/-! ## The condition -/

/-- The lines of `WAIT_SYNC_SIGNAL` that use the lock and the condition. -/
def UpdatePc.using : UpdatePc → Bool
  | .l52 | .l53 | .l54 => true
  | _ => false

/-- The update is about to enter `WAIT_SYNC_SIGNAL`, and not because it completes the count: it is
an error update about to swap, or a decrement by nothing that finds the count at zero. -/
def UpdatePc.interferes (count u : ℤ) (pc : UpdatePc) : Prop :=
  pc = .l118 ∨ pc = .l111 ∧ u = 0 ∧ count = 0

instance (count u : ℤ) (pc : UpdatePc) : Decidable (pc.interferes count u) := by
  unfold UpdatePc.interferes; infer_instance

/-- **The signallers of `S` keep out of each other's way.**  A direct error update (or decrement by
nothing) enters `WAIT_SYNC_SIGNAL` while the flag is up and nobody else is inside; one of the global
wakeup enters it while no direct update is about to lock.  Completing decrements are free. -/
def Orderly (S : Sid) (s : St) (t : Tid) : Act → Prop
  | .run => match (s.loc t).call with
    | .update S' u _ pc => S' = S → pc.interferes (s.mem.sync S).count u →
        (s.mem.sync S).signaling = true ∧ ∀ t' u' st' pc', t' ≠ t →
          (s.loc t').call.updating = some (S, u', st', pc') → pc'.zeroed = false
    | .wakeup _ (.l24 S' pc) => S' = S → pc.interferes (s.mem.sync S).count 0 →
        ∀ t' u' st', (s.loc t').call ≠ .update S u' st' .l52
    | _ => True
  | _ => True

/-- Whoever does not interfere is orderly. -/
theorem orderly_of_not_interferes {S : Sid} {s : St} {t : Tid} {a : Act}
    (h : ∀ q ∈ (s.loc t).call.updating, ¬ q.2.2.2.interferes (s.mem.sync q.1).count q.2.1) :
    Orderly S s t a := by
  cases a with
  | run => ?_
  | _ => trivial
  simp only [Orderly]
  split
  · rename_i S' u st pc hc
    rintro rfl hi
    exact absurd hi (h (S', u, st, pc) (by rw [hc]; rfl))
  · rename_i st S' pc hc
    rintro rfl hi
    exact absurd hi (h (S', 0, st, pc) (by rw [hc]; rfl))
  · trivial

/-- A call of `wait_sync_update` by anyone but the global wakeup. -/
def Call.direct : Call → Bool
  | .update .. => true
  | _ => false

theorem Call.eq_update {c : Call} {S : Sid} {u st : ℤ} {pc : UpdatePc} (hd : c.direct = true)
    (h : c.updating = some (S, u, st, pc)) : c = .update S u st pc := by
  cases c <;> first | exact absurd hd Bool.false_ne_true | skip
  cases h
  rfl

theorem Call.eq_wakeup {c : Call} {S : Sid} {u st : ℤ} {pc : UpdatePc} (hd : c.direct = false)
    (h : c.updating = some (S, u, st, pc)) : u = 0 ∧ c = .wakeup st (.l24 S pc) := by
  cases c with
  | idle => cases h
  | update => cases hd
  | wakeup st pc =>
    cases pc <;> cases h
    exact ⟨rfl, rfl⟩

/-! ## What a step does to the flag -/

section Moves

variable {max : ℤ} {t : Tid} {a : Act} {th th' : Thread} {m m' : Mem} {e : Event} {S : Sid}
  {u st : ℤ}

/-- The flag changes when a signaller takes it down. -/
theorem moves_signaling (h : Moves max t a th m th' m' e) (ho : (m.sync S).owner ≠ none) :
    (m'.sync S).signaling = (m.sync S).signaling ∨
    (m'.sync S).signaling = false ∧ e = .sigCleared S ∧
      ∃ u st, th.call.updating = some (S, u, st, .l55) := by
  rcases moves_update_or_quiet h with ⟨X, u, st, pc, pc', hc, hl, -, -⟩ |
      ⟨X, c, -, -, hX, rfl, -⟩ | hq
  · by_cases hX : S = X
    · subst hX
      cases pc <;> simp only [waitSyncUpdate, Option.ite_none_right_eq_some, Option.some.injEq,
        Prod.mk.injEq] at hl
      case l55 =>
        obtain ⟨-, rfl, rfl⟩ := hl
        exact .inr ⟨by simp [Mem.clearSignaling], rfl, u, st, hc⟩
      case l52 => obtain ⟨-, -, rfl, -⟩ := hl; exact .inl (by simp [Mem.lock])
      all_goals
        obtain ⟨-, rfl, -⟩ := hl
        exact .inl (by simp [Mem.setCount, Mem.setStatus, Mem.signal, Mem.unlock])
    · exact .inl (by rw [(waitSyncUpdate_frame hl).2.2.2.2 S hX])
  · refine .inl ?_
    have : S ≠ X := fun hS => ho (hS ▸ hX)
    simp [Mem.waitSyncInit, this]
  · exact .inl (hq.signaling S)

/-- **A thread inside `WAIT_SYNC_SIGNAL`** was there a line before, or has just entered it. -/
theorem waitSyncUpdate_zeroed {pc pc' : UpdatePc}
    (h : waitSyncUpdate t S u st m pc = some (some pc', m', e)) (hp : pc'.zeroed = true) :
    pc' = .l52 ∧ (pc = .l118 ∨ pc = .l111 ∧ (m.sync S).count = u) ∨
    pc = .l52 ∧ pc' = .l53 ∧ (m.sync S).lock = none ∨ pc = .l53 ∧ pc' = .l54 ∨
    pc = .l54 ∧ pc' = .l55 := by
  cases pc <;> simp only [waitSyncUpdate, Option.ite_none_right_eq_some, Option.some.injEq,
    Prod.mk.injEq, reduceCtorEq, false_and] at h
  case l110 =>
    obtain ⟨rfl, -⟩ := h
    split at hp <;> exact absurd hp Bool.false_ne_true
  case l111 =>
    obtain ⟨hpc, -⟩ := h
    split at hpc <;> cases hpc
    exact .inl ⟨rfl, .inr ⟨rfl, by omega⟩⟩
  case l116 => obtain ⟨rfl, -⟩ := h; exact absurd hp Bool.false_ne_true
  case l118 => obtain ⟨rfl, -⟩ := h; exact .inl ⟨rfl, .inl rfl⟩
  case l52 => obtain ⟨hl, rfl, -⟩ := h; exact .inr (.inl ⟨rfl, rfl, hl⟩)
  case l53 => obtain ⟨rfl, -⟩ := h; exact .inr (.inr (.inl ⟨rfl, rfl⟩))
  case l54 => obtain ⟨rfl, -⟩ := h; exact .inr (.inr (.inr ⟨rfl, rfl⟩))

/-- …and it is the same call. -/
theorem moves_zeroed {pc' : UpdatePc} (h : Moves max t a th m th' m' e)
    (hu : th'.call.updating = some (S, u, st, pc')) (hp : pc'.zeroed = true) :
    a = .run ∧ th'.call.direct = th.call.direct ∧
      ∃ pc, th.call.updating = some (S, u, st, pc) ∧
        waitSyncUpdate t S u st m pc = some (some pc', m', e) := by
  cases h with
  | init | callWait | callRelease | callWakeup | spurious | wait | release => cases hu
  | callUpdate => cases hu; cases hp
  | @update _ _ f X u₀ st₀ pc pc₁ _ h =>
    cases pc₁ with
    | none => cases hu
    | some pc₁ => cases hu; exact ⟨rfl, rfl, pc, rfl, h⟩
  | @wakeup _ _ f st₀ pc pc₁ _ h =>
    cases pc with
    | l24 X upc =>
      obtain ⟨⟨upc', m₁, e₁⟩, hl, hr⟩ := Option.map_eq_some_iff.mp h
      obtain ⟨rfl, rfl, rfl⟩ : _ = pc₁ ∧ _ = m' ∧ _ = e := by simpa using hr
      cases upc' with
      | none => cases hu
      | some upc' => cases hu; exact ⟨rfl, rfl, upc, rfl, hl⟩
    | l17 =>
      simp only [globalWakeupMt, Option.ite_none_right_eq_some, Option.some.injEq,
        Prod.mk.injEq] at h
      obtain ⟨-, rfl, -⟩ := h
      cases hu
    | l29 =>
      simp only [globalWakeupMt, Option.some.injEq, Prod.mk.injEq] at h
      obtain ⟨rfl, -⟩ := h
      cases hu
    | l25 X =>
      simp only [globalWakeupMt, Option.some.injEq, Prod.mk.injEq] at h
      obtain ⟨rfl, -⟩ := h
      simp only [Option.elim] at hu
      split at hu <;> cases hu
    | l18 | l18n X =>
      simp only [globalWakeupMt, Option.some.injEq, Prod.mk.injEq] at h
      obtain ⟨rfl, -⟩ := h
      obtain ⟨-, rfl⟩ := (wakeupNext_quiet _ st₀).2 _ _ _ _ hu
      cases hp

/-- A thread of `S` stays one: only an initialisation makes one. -/
theorem moves_sync (h : Moves max t a th m th' m' e) (ho : (m.sync S).owner ≠ none)
    (hS : th'.frame.sync = some S) : th.frame.sync = some S := by
  cases h with
  | init hn => cases hS; exact absurd hn ho
  | release h => rename_i pc; cases pc <;> cases h <;> first | exact hS | cases hS
  | wait h => exact (ompiSyncWaitMt_sync h).symm.trans hS
  | _ => exact hS

/-- The way to the destructions is past the flag. -/
theorem moves_release {pc' : ReleasePc} (hh : Held t th m) (h : Moves max t a th m th' m' e)
    (hf : th'.frame = .release S pc') (hp : pc' ≠ .l34) :
    m' = m ∧ (th.frame = .release S .l34 ∧ (m.sync S).signaling = false ∨
      th.frame = .release S .l40) := by
  cases h with
  | init | callWait | spurious => cases hf
  | callRelease => cases hf; exact absurd rfl hp
  | callUpdate hm | callWakeup hm =>
    obtain rfl : _ = Frame.release S pc' := hf
    cases hm
  | update | wakeup =>
    obtain rfl : _ = Frame.release S pc' := hf
    exact absurd (hh.nested (by simp)) Bool.false_ne_true
  | @wait _ _ f X pc _ h =>
    obtain rfl : f = .release S pc' := hf
    rcases (ompiSyncWaitMt_stays h).1 with ⟨_, hc⟩ | ⟨_, hc⟩ <;> cases hc
  | @release _ _ f X pc _ h =>
    obtain rfl : f = .release S pc' := hf
    cases pc <;> simp only [waitSyncRelease, Prod.mk.injEq, Frame.release.injEq, reduceCtorEq,
      false_and] at h
    · obtain ⟨⟨rfl, hpc⟩, rfl, -⟩ := h
      refine ⟨rfl, .inl ⟨rfl, ?_⟩⟩
      split at hpc
      · exact absurd hpc.symm hp
      · exact Bool.not_eq_true _ ▸ ‹_›
    · obtain ⟨⟨rfl, -⟩, rfl, -⟩ := h
      exact ⟨rfl, .inr rfl⟩

/-- The destructions are the owner's. -/
theorem moves_destroys (h : Moves max t a th m th' m' e) (he : e.destroys S) :
    m' = m ∧ ∃ pc, th.frame = .release S pc ∧ pc ≠ .l34 ∧
      (th'.frame.sync = some S → th'.frame = .release S .l41) := by
  cases h with
  | @release _ _ f X pc _ h =>
    cases pc <;> simp only [waitSyncRelease, Prod.mk.injEq] at h <;> obtain ⟨rfl, rfl, rfl⟩ := h
    · rcases he with he | he <;> cases he
    · rcases he with he | he <;> cases he
      exact ⟨rfl, .l40, rfl, by simp, fun _ => rfl⟩
    · rcases he with he | he <;> cases he
      exact ⟨rfl, .l41, rfl, by simp, fun h => by cases h⟩
  | update h =>
    rcases he with rfl | rfl <;> cases (waitSyncUpdate_event h).1
  | wakeup h => rcases he with rfl | rfl <;> cases globalWakeupMt_event h
  | wait h =>
    obtain ⟨hc, hl⟩ := (ompiSyncWaitMt_stays h).2 S
    exact absurd he (not_or.mpr ⟨hc, hl⟩)
  | init | callWait | callRelease | callUpdate | callWakeup | spurious =>
    rcases he with he | he <;> cases he

/-- After the last destruction the thread is done with its sync. -/
theorem moves_end (hh : Held t th m) (h : Moves max t a th m th' m' e)
    (hf : th.frame = .release S .l41) : th'.frame = .out := by
  cases h with
  | init | callWait | callRelease | spurious | wait => cases hf
  | callUpdate hm | callWakeup hm =>
    obtain rfl : _ = Frame.release S .l41 := hf
    cases hm
  | update | wakeup =>
    obtain rfl : _ = Frame.release S .l41 := hf
    exact absurd (hh.nested (by simp)) Bool.false_ne_true
  | release h =>
    cases hf
    cases h
    rfl

/-- A sync gets its owner by its initialisation. -/
theorem moves_owner (h : Moves max t a th m th' m' e) (ho : (m.sync S).owner = none)
    (ho' : (m'.sync S).owner ≠ none) : ∃ c, e = .inited S c ∧ m' = m.waitSyncInit S t c := by
  rcases moves_update_or_quiet h with ⟨X, u, st, pc, pc', -, hl, -, -⟩ |
      ⟨X, c, -, -, -, rfl, rfl⟩ | hq
  · exact absurd (((waitSyncUpdate_frame hl).2.2.1 S).1.trans ho) ho'
  · by_cases hX : S = X
    · exact ⟨c, by rw [hX], by rw [hX]⟩
    · exact absurd (by simpa [Mem.waitSyncInit, hX] using ho) ho'
  · exact absurd ((hq.owner S).trans ho) ho'

end Moves

/-! ## The owner's side

The flag goes down once.  Past the release loop it is down, and what has been destroyed has no
waiter any more. -/

/-- `S` is initialised with work to wait for. -/
def Positive (S : Sid) (h : List Event) : Prop := ∀ c, .inited S c ∈ h → 0 < c

theorem Positive.of_cons {S : Sid} {e : Event} {h : List Event} (hc : Positive S (e :: h)) :
    Positive S h := fun c hm => hc c (List.mem_cons_of_mem _ hm)

/-- **The record of a release.** -/
structure Released (S : Sid) (h : List Event) (s : St) : Prop where
  down : ∀ t pc, (s.loc t).frame = .release S pc → pc ≠ .l34 → (s.mem.sync S).signaling = false
  gone : ∀ e ∈ h, e.destroys S → (s.mem.sync S).owner ≠ none ∧
    (s.mem.sync S).signaling = false ∧
    ∀ t, (s.loc t).frame.sync = some S → (s.loc t).frame = .release S .l41
  cleared : (s.mem.sync S).owner ≠ none → Positive S h → (s.mem.sync S).signaling = false →
    .sigCleared S ∈ h

theorem start_released (S : Sid) : Released S [] start := 
  ⟨fun _ _ h => (by cases h), by simp, fun h => absurd rfl h⟩

section Step

variable {max : ℤ} {h : List Event} {s : St} {t : Tid} {a : Act} {l : Thread} {m : Mem} {e : Event}
  {S : Sid}

/-- A flag that is down stays down. -/
theorem moves_down (hm : Moves max t a (s.loc t) s.mem l m e) (ho : (s.mem.sync S).owner ≠ none)
    (hd : (s.mem.sync S).signaling = false) : (m.sync S).signaling = false := by
  rcases moves_signaling hm ho with hs | ⟨hs, -⟩
  exacts [hs.trans hd, hs]

/-- **One step keeps the record of a release.** -/
theorem Released.step (hs : Locked s) (r : Released S h s)
    (hm : Moves max t a (s.loc t) s.mem l m e) : Released S (e :: h) (s.move t l m) := by
  have hg := moves_guarantee hs.owner_of_lock (hs.held t) hm
  have owner : ∀ t' f, (s.loc t').frame = f → f.sync = some S → (s.mem.sync S).owner ≠ none :=
    fun t' f hf hS => by simp [(hs.held t').own S (hf ▸ hS)]
  refine ⟨fun t' pc hf hp => ?_, fun e' he' hd => ?_, fun ho' hc hd => ?_⟩
  · by_cases ht : t' = t
    · subst ht
      rw [State.move_loc_self] at hf
      obtain ⟨rfl, hpre⟩ := moves_release (hs.held t') hm hf hp
      rcases hpre with ⟨-, hd⟩ | hf'
      · exact hd
      · exact r.down t' .l40 hf' (by simp)
    · rw [State.move_loc_of_ne _ _ _ _ ht] at hf
      exact moves_down hm (owner t' _ hf rfl) (r.down t' pc hf hp)
  · rcases List.mem_cons.mp he' with rfl | he'
    · obtain ⟨rfl, pc, hf, hpc, hnext⟩ := moves_destroys hm hd
      refine ⟨owner t _ hf rfl, r.down t pc hf hpc, fun t' hS => ?_⟩
      by_cases ht : t' = t
      · subst ht
        rw [State.move_loc_self] at hS ⊢
        exact hnext hS
      · rw [State.move_loc_of_ne _ _ _ _ ht] at hS
        have := ((hs.held t').own S hS).symm.trans ((hs.held t).own S (by rw [hf]; rfl))
        exact absurd (Option.some.inj this) ht
    · obtain ⟨ho, hdown, hout⟩ := r.gone e' he' hd
      refine ⟨by rw [State.move_mem, hg.owner S ho]; exact ho, moves_down hm ho hdown,
        fun t' hS => ?_⟩
      by_cases ht : t' = t
      · subst ht
        rw [State.move_loc_self] at hS ⊢
        rw [moves_end (hs.held t') hm (hout t' (moves_sync hm ho hS))] at hS
        cases hS
      · rw [State.move_loc_of_ne _ _ _ _ ht] at hS ⊢
        exact hout t' hS
  · rw [State.move_mem] at ho' hd
    by_cases ho : (s.mem.sync S).owner = none
    · -- the step has just initialised the sync, with its flag up
      obtain ⟨c, rfl, rfl⟩ := moves_owner hm ho ho'
      have := hc c List.mem_cons_self
      simp only [Mem.waitSyncInit, Mem.sync_modify, if_pos, decide_eq_false_iff_not] at hd
      omega
    · rcases moves_signaling hm ho with hsame | ⟨-, rfl, -⟩
      · exact List.mem_cons_of_mem _ (r.cleared ho hc.of_cons (hsame.symm.trans hd))
      · exact List.mem_cons_self

/-- A flag that is down belongs to a complete sync. -/
theorem Released.count_of_down (i : Tally h s) (r : Released S h s) (hc : Positive S h)
    (ho : (s.mem.sync S).owner ≠ none) (hd : (s.mem.sync S).signaling = false) :
    (s.mem.sync S).count ≤ 0 :=
  (i.recorded S).signal ((i.recorded S).finish (.inr (r.cleared ho hc hd)))

end Step

/-! ## The signallers' side -/

/-- **A direct signaller is alone**: while it uses the lock and the condition the flag is up, and
whoever else is inside waits behind it for the lock. -/
def Alone (S : Sid) (s : St) : Prop :=
  ∀ t u st pc, (s.loc t).call = .update S u st pc → pc.using = true →
    (s.mem.sync S).signaling = true ∧
    ∀ t' u' st' pc', t' ≠ t → (s.loc t').call.updating = some (S, u', st', pc') →
      pc'.zeroed = true → pc ≠ .l52 ∧ pc' = .l52

theorem UpdatePc.zeroed_of_using {pc : UpdatePc} (h : pc.using = true) : pc.zeroed = true := by
  cases pc <;> first | rfl | exact absurd h Bool.false_ne_true

section Step

variable {max : ℤ} {h : List Event} {s : St} {t : Tid} {a : Act} {l : Thread} {m : Mem} {e : Event}
  {S : Sid} {u st : ℤ} {pc : UpdatePc}

/-- **Whoever enters directly finds the flag up and nobody inside.** -/
theorem enters_alone (i : Tally h s) (r : Released S h s) (hc : Positive S h)
    (ho : (s.mem.sync S).owner ≠ none) (hO : Orderly S s t .run)
    (hu : (s.loc t).call = .update S u st pc)
    (hpc : pc = .l118 ∨ pc = .l111 ∧ (s.mem.sync S).count = u) :
    (s.mem.sync S).signaling = true ∧ ∀ t' u' st' pc', t' ≠ t →
      (s.loc t').call.updating = some (S, u', st', pc') → pc'.zeroed = false := by
  have hup : (s.loc t).call.updating = some (S, u, st, pc) := by rw [hu]; rfl
  by_cases hint : pc.interferes (s.mem.sync S).count u
  · simp only [Orderly, hu, forall_const] at hO
    exact hO hint
  · -- a decrement that completes the count: until now it was above zero
    have hpos : 0 < (s.mem.sync S).count := by
      have hnonneg := (i.updating t S u st pc hup).nonneg
      rcases hpc with rfl | ⟨rfl, hcount⟩
      · exact absurd (.inl rfl) hint
      · by_contra hle
        exact hint (.inr ⟨rfl, by omega, by omega⟩)
    refine ⟨?_, fun t' u' st' pc' _ hu' => ?_⟩
    · by_contra hd
      have := r.count_of_down i hc ho (Bool.not_eq_true _ ▸ hd)
      omega
    · refine Bool.not_eq_true _ ▸ fun hz => ?_
      have := (i.updating t' S u' st' pc' hu').zeroed hz
      omega

/-- The signaller itself moves: it has just entered, or it was alone a line before. -/
theorem Alone.step_self (i : Tally h s) (r : Released S h s) (hc : Positive S h) (al : Alone S s)
    (ho : (s.mem.sync S).owner ≠ none) (hO : Orderly S s t .run) {pc' : UpdatePc}
    (hu : (s.loc t).call = .update S u st pc)
    (hl : waitSyncUpdate t S u st s.mem pc = some (some pc', m, e)) (hp : pc'.using = true) :
    (s.mem.sync S).signaling = true ∧ ∀ t₁ u₁ st₁ pc₁, t₁ ≠ t →
      (s.loc t₁).call.updating = some (S, u₁, st₁, pc₁) → pc₁.zeroed = true →
      pc' ≠ .l52 ∧ pc₁ = .l52 := by
  rcases waitSyncUpdate_zeroed hl (UpdatePc.zeroed_of_using hp) with ⟨rfl, henter⟩ | ⟨rfl, rfl, -⟩ |
      ⟨rfl, rfl⟩ | ⟨rfl, rfl⟩
  · obtain ⟨hup, hnone⟩ := enters_alone i r hc ho hO hu henter
    refine ⟨hup, fun t₁ u₁ st₁ pc₁ hne hu₁ hz => ?_⟩
    exact absurd hz (by simp [hnone t₁ u₁ st₁ pc₁ hne hu₁])
  · obtain ⟨hup, hnone⟩ := al t u st _ hu rfl
    exact ⟨hup, fun t₁ u₁ st₁ pc₁ hne hu₁ hz => absurd rfl (hnone t₁ u₁ st₁ pc₁ hne hu₁ hz).1⟩
  · obtain ⟨hup, hnone⟩ := al t u st _ hu rfl
    exact ⟨hup, fun t₁ u₁ st₁ pc₁ hne hu₁ hz => ⟨by simp, (hnone t₁ u₁ st₁ pc₁ hne hu₁ hz).2⟩⟩
  · cases hp

/-- Another thread moves inside: it has just come, and waits for the lock that the signaller has. -/
theorem Alone.behind (hs : Locked s) (i : Tally h s) (r : Released S h s) (hc : Positive S h)
    (al : Alone S s) (hO : Orderly S s t .run) {t₁ : Tid} {u₁ st₁ : ℤ} {pc₁ pc' : UpdatePc}
    (hne : t₁ ≠ t) (hc₁ : (s.loc t₁).call = .update S u₁ st₁ pc₁) (hp₁ : pc₁.using = true)
    (hu : (s.loc t).call.updating = some (S, u, st, pc))
    (hl : waitSyncUpdate t S u st s.mem pc = some (some pc', m, e)) (hz : pc'.zeroed = true) :
    pc₁ ≠ .l52 ∧ pc' = .l52 := by
  have hu₁ : (s.loc t₁).call.updating = some (S, u₁, st₁, pc₁) := by rw [hc₁]; rfl
  have hnone := (al t₁ u₁ st₁ pc₁ hc₁ hp₁).2
  rcases waitSyncUpdate_zeroed hl hz with ⟨rfl, henter⟩ | ⟨rfl, rfl, hfree⟩ | ⟨rfl, rfl⟩ |
      ⟨rfl, rfl⟩
  · refine ⟨?_, rfl⟩
    cases hdir : (s.loc t).call.direct with
    | true =>
      have ho := (hs.held t₁).target S (Call.target_of_updating hu₁)
      have := (enters_alone i r hc ho hO (Call.eq_update hdir hu) henter).2 t₁ u₁ st₁ pc₁ hne hu₁
      simp [UpdatePc.zeroed_of_using hp₁] at this
    | false =>
      obtain ⟨rfl, hw⟩ := Call.eq_wakeup hdir hu
      simp only [Orderly, hw, forall_const] at hO
      have hno := hO (henter.imp_right fun h => ⟨h.1, rfl, h.2⟩) t₁ u₁ st₁
      rintro rfl
      exact hno hc₁
  · have hpc₁ := (hnone t u st _ (Ne.symm hne) hu rfl).1
    have hlocked : pc₁.locked = true := by
      cases pc₁ <;> first | rfl | exact absurd hp₁ Bool.false_ne_true | exact absurd rfl hpc₁
    have hlock : (s.mem.sync S).lock = some t₁ :=
      ((hs.held t₁).lock S).mpr (.inr (Call.holds_iff.mpr ⟨u₁, st₁, pc₁, hu₁, hlocked⟩))
    simp [hfree] at hlock
  · cases (hnone t u st _ (Ne.symm hne) hu rfl).2
  · cases (hnone t u st _ (Ne.symm hne) hu rfl).2

/-- **One step keeps a direct signaller alone.** -/
theorem Alone.step (hs : Locked s) (i : Tally h s) (r : Released S h s) (hc : Positive S h)
    (al : Alone S s) (hO : Orderly S s t a)
    (hm : Moves max t a (s.loc t) s.mem l m e) : Alone S (s.move t l m) := by
  intro t₁ u₁ st₁ pc₁ hc₁ hp₁
  by_cases ht₁ : t₁ = t
  · subst ht₁
    rw [State.move_loc_self] at hc₁
    obtain ⟨rfl, hd, pc₀, hu₀, hl⟩ := moves_zeroed hm (S := S) (by rw [hc₁]; rfl)
      (UpdatePc.zeroed_of_using hp₁)
    have hc₀ : (s.loc t₁).call = .update S u₁ st₁ pc₀ :=
      Call.eq_update (by rw [← hd, hc₁]; rfl) hu₀
    have ho := (hs.held t₁).target S (Call.target_of_updating hu₀)
    have hsig : (m.sync S).signaling = (s.mem.sync S).signaling := by
      rcases moves_signaling hm ho with hsame | ⟨-, -, u', st', hu'⟩
      · exact hsame
      · obtain rfl : pc₀ = .l55 := by
          have := hu₀.symm.trans hu'
          simp only [Option.some.injEq, Prod.mk.injEq] at this
          exact this.2.2.2
        cases hl
    rw [State.move_mem, hsig]
    obtain ⟨hup, hnone⟩ := al.step_self i r hc ho hO hc₀ hl hp₁
    refine ⟨hup, fun t' u' st' pc' hne hu' => hnone t' u' st' pc' hne ?_⟩
    rwa [State.move_loc_of_ne _ _ _ _ hne] at hu'
  · rw [State.move_loc_of_ne _ _ _ _ ht₁] at hc₁
    have hu₁ : (s.loc t₁).call.updating = some (S, u₁, st₁, pc₁) := by rw [hc₁]; rfl
    obtain ⟨hup, hnone⟩ := al t₁ u₁ st₁ pc₁ hc₁ hp₁
    refine ⟨?_, fun t' u' st' pc' hne' hu' hz => ?_⟩
    · rcases moves_signaling hm ((hs.held t₁).target S (Call.target_of_updating hu₁)) with
        hsame | ⟨-, -, u', st', hu'⟩
      · exact hsame.trans hup
      · -- whoever clears the flag would have been behind the signaller
        cases (hnone t u' st' .l55 (Ne.symm ht₁) hu' rfl).2
    · by_cases ht' : t' = t
      · subst ht'
        rw [State.move_loc_self] at hu'
        obtain ⟨rfl, -, pc₀, hu₀, hl⟩ := moves_zeroed hm hu' hz
        exact al.behind hs i r hc hO ht₁ hc₁ hp₁ hu₀ hl hz
      · rw [State.move_loc_of_ne _ _ _ _ ht'] at hu'
        exact hnone t' u' st' pc' hne' hu' hz

/-- A use is a line of a signaller. -/
theorem moves_uses (hm : Moves max t a (s.loc t) s.mem l m e) (he : e.uses S) :
    ∃ u st pc, (s.loc t).call.updating = some (S, u, st, pc) ∧ pc.using = true := by
  have ht : e.tallied = some S := by rcases he with rfl | rfl | rfl <;> rfl
  rcases moves_update_or_quiet hm with ⟨X, u, st, pc, pc', hc, hl, -, -⟩ |
      ⟨X, c, -, -, -, -, rfl⟩ | hq
  · rcases (waitSyncUpdate_event hl).2 with hn | hn
    · simp [hn] at ht
    obtain rfl : X = S := Option.some.inj (hn.symm.trans ht)
    refine ⟨u, st, pc, hc, ?_⟩
    cases pc <;> first | rfl | skip
    all_goals
      simp only [waitSyncUpdate, Option.some.injEq, Prod.mk.injEq] at hl
      obtain ⟨-, -, rfl⟩ := hl
      rcases he with he | he | he <;> cases he
  · rcases he with he | he | he <;> cases he
  · simp [hq.event] at ht

/-- **Whoever uses the lock or the condition finds them there.** -/
theorem not_destroyed_of_uses (o : Ordered h s) (r : Released S h s)
    (al : Alone S s) (hm : Moves max t a (s.loc t) s.mem l m e) (he : e.uses S) :
    ∀ e' ∈ h, ¬ e'.destroys S := by
  intro e' he' hd
  obtain ⟨-, hdown, hout⟩ := r.gone e' he' hd
  obtain ⟨u, st, pc, hu, hp⟩ := moves_uses hm he
  by_cases hdir : (s.loc t).call.direct = true
  · have := (al t u st pc (Call.eq_update hdir hu) hp).1
    simp [hdown] at this
  · -- the global wakeup: the sync is registered, so its owner is still waiting
    obtain ⟨-, hw⟩ := Call.eq_wakeup (Bool.not_eq_true _ ▸ hdir) hu
    have hmem := ((o.view t).call (by rw [hw]; rfl)).2 S (by rw [hw]; rfl)
    obtain ⟨t', pc', hf, -⟩ := o.mem_iff_waiting.mp hmem
    cases hf.symm.trans (hout t' (by rw [hf]; rfl))

end Step

/-- The last decrement signals the waiting owner, which returns and releases. -/
def completeAndRelease : List (Tid × Act) :=
  [(0, Act.init 0 1), (0, Act.wait), (0, Act.run)] ++
  [(1, Act.update 0 1 0)] ++ List.replicate 6 (1, Act.run) ++
  List.replicate 4 (0, Act.run) ++ [(0, Act.release)] ++ List.replicate 3 (0, Act.run)

/-- Thread 1 has made the last decrement when thread 2 reports an error and signals; the owner
returns and releases; thread 1 goes on. -/
def errorOvertakes : List (Tid × Act) :=
  [(0, Act.init 0 1), (1, Act.update 0 1 0), (1, Act.run), (1, Act.run), (2, Act.update 0 1 7)] ++
  List.replicate 7 (2, Act.run) ++
  [(0, Act.wait), (0, Act.run), (0, Act.run), (0, Act.release)] ++
  List.replicate 3 (0, Act.run) ++ [(1, Act.run)]

end Libult.WaitSync
