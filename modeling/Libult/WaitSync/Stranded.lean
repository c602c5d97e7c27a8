import Libult.WaitSync.Pending

/-!
# WaitSync/Stranded — no waiter sleeps through its wake-up

A waiter is woken for two reasons: its sync is complete, or it has become the head of the list and
must make progress.  It tests for both with its own lock held and gives the lock back only by
falling asleep, so whoever signals under that lock signals either before the test or after the
sleep.

    count check ──▸ head check ──▸ asleep          lock held until the sleep
         ▲              ▲
    count ≤ 0      new head, then its lock, then the signal
-/

namespace Libult.WaitSync

open Interleaving Program

/-- The lines from the count check to the sleep, `sync->lock` held all along. -/
def WaitPc.undone : WaitPc → Bool
  | .l63 | .l64 | .l65 | .l65n | .l66 | .l68 | .l69 | .l70 | .l71 | .l73 | .l82 | .l82n | .l83 =>
      true
  | _ => false

/-- The lines between making a new head and signalling it. -/
def WaitPc.handing : WaitPc → Bool
  | .l115 | .l36 | .l37 => true
  | _ => false

/-- Asleep in `thread_internal_cond_wait` of line 83, with no signal delivered. -/
def Asleep (t : Tid) (S : Sid) (f : Frame) (m : Mem) : Prop :=
  f = .wait S .l83w ∧ t ∈ (m.sync S).condition

instance (t : Tid) (S : Sid) (f : Frame) (m : Mem) : Decidable (Asleep t S f m) := by
  unfold Asleep
  infer_instance

/-- Past the count check and not yet woken. -/
def Undone (t : Tid) (S : Sid) (f : Frame) (m : Mem) : Prop :=
  (∃ pc, f = .wait S pc ∧ pc.undone = true) ∨ Asleep t S f m

/-- Past the head check and not yet woken. -/
def Dozing (t : Tid) (S : Sid) (f : Frame) (m : Mem) : Prop :=
  f = .wait S .l82n ∨ f = .wait S .l83 ∨ Asleep t S f m

/-- **Nobody sleeps through a wake-up**: a waiter past the count check has not been signalled, and
one past the head check that is now the head is about to be. -/
structure Roused (h : List Event) (s : St) : Prop where
  undone : ∀ t S, Undone t S (s.loc t).frame s.mem → .sigSignal S ∉ h
  dozing : ∀ t S, Dozing t S (s.loc t).frame s.mem → s.mem.waitSyncList = some S →
    ∃ t' X pc, (s.loc t').frame = .wait X pc ∧ pc.handing = true

theorem WaitPc.locked_of_undone {pc : WaitPc} (h : pc.undone = true) : pc.locked = true := by
  cases pc <;> first | rfl | exact absurd h Bool.false_ne_true

theorem Dozing.undone {t : Tid} {S : Sid} {f : Frame} {m : Mem} (h : Dozing t S f m) :
    Undone t S f m := by
  rcases h with h | h | h
  exacts [.inl ⟨_, h, rfl⟩, .inl ⟨_, h, rfl⟩, .inr h]

/-- A waiter past the count check is inside no call. -/
theorem Undone.not_mayCall {t : Tid} {S : Sid} {f : Frame} {m : Mem} (h : Undone t S f m) :
    f.mayCall = false := by
  rcases h with ⟨pc, rfl, hp⟩ | ⟨rfl, -⟩
  · cases pc <;> first | rfl | exact absurd hp Bool.false_ne_true
  · rfl

/-! ## The waiter's own steps -/

section Own

variable {max : ℤ} {t : Tid} {S X : Sid} {m m' : Mem} {pc pc' : WaitPc} {f : Frame} {e : Event}

/-- The way into the stretch is a count check that failed. -/
theorem ompiSyncWaitMt_undone (h : ompiSyncWaitMt max t X m pc = some (.wait S pc', m', e))
    (hp : pc'.undone = true) : pc.undone = true ∨ 0 < (m.sync X).count := by
  cases pc <;> simp only [ompiSyncWaitMt, Option.ite_none_right_eq_some, Option.some.injEq,
    Option.map_eq_some_iff, Option.bind_eq_some_iff, Prod.mk.injEq, Frame.wait.injEq,
    reduceCtorEq, false_and] at h
  case l57 | l91 =>
    obtain ⟨⟨-, rfl⟩, -⟩ := h
    split at hp
    · exact absurd hp Bool.false_ne_true
    · exact .inr (by omega)
  case l63 | l64 | l65 | l65n | l66 | l68 | l69 | l70 | l71 | l73 | l82 | l82n | l83 =>
    exact .inl rfl
  case l47 | l101 | l113 | l115 =>
    obtain ⟨⟨-, rfl⟩, -⟩ := h
    split at hp <;> exact absurd hp Bool.false_ne_true
  case l52 | l83w | l109 => obtain ⟨-, ⟨-, rfl⟩, -⟩ := h; exact absurd hp Bool.false_ne_true
  case l110 | l111 | l37 | l38 =>
    obtain ⟨_, -, ⟨-, rfl⟩, -⟩ := h
    exact absurd hp Bool.false_ne_true
  case l36 => obtain ⟨_, -, -, ⟨-, rfl⟩, -⟩ := h; exact absurd hp Bool.false_ne_true
  all_goals obtain ⟨⟨-, rfl⟩, -⟩ := h; exact absurd hp Bool.false_ne_true

/-- The way to sleep is line 83, and the way there is line 82, with another sync at the head. -/
theorem ompiSyncWaitMt_dozing (h : ompiSyncWaitMt max t X m pc = some (.wait S pc', m', e))
    (hp : pc' = .l82n ∨ pc' = .l83 ∨ pc' = .l83w) :
    m'.waitSyncList = m.waitSyncList ∧
      (pc = .l82 ∧ m.waitSyncList ≠ some X ∨ pc = .l82n ∨ pc = .l83) := by
  cases pc <;> simp only [ompiSyncWaitMt, Option.ite_none_right_eq_some, Option.some.injEq,
    Option.map_eq_some_iff, Option.bind_eq_some_iff, Prod.mk.injEq, Frame.wait.injEq,
    reduceCtorEq, false_and] at h
  case l82 =>
    obtain ⟨⟨-, rfl⟩, rfl, -⟩ := h
    split at hp
    · exact ⟨rfl, .inl ⟨rfl, Ne.symm ‹_›⟩⟩
    · simp at hp
  case l82n => obtain ⟨⟨-, rfl⟩, rfl, -⟩ := h; exact ⟨rfl, .inr (.inl rfl)⟩
  case l83 => obtain ⟨⟨-, rfl⟩, rfl, -⟩ := h; exact ⟨rfl, .inr (.inr rfl)⟩
  case l47 | l57 | l64 | l91 | l101 | l113 | l115 =>
    obtain ⟨⟨-, rfl⟩, -⟩ := h
    split at hp <;> simp at hp
  case l52 | l63 | l83w | l109 => obtain ⟨-, ⟨-, rfl⟩, -⟩ := h; simp at hp
  case l68 | l69 | l71 | l110 | l111 | l37 | l38 => obtain ⟨_, -, ⟨-, rfl⟩, -⟩ := h; simp at hp
  case l36 => obtain ⟨_, -, -, ⟨-, rfl⟩, -⟩ := h; simp at hp
  all_goals obtain ⟨⟨-, rfl⟩, -⟩ := h; simp at hp

end Own

/-! ## Who signals, and who makes a head -/

section Others

variable {max : ℤ} {t : Tid} {a : Act} {th th' : Thread} {m m' : Mem} {e : Event} {S : Sid}

/-- A signal is sent under the sync's lock. -/
theorem moves_sigSignal (hh : Held t th m) (h : Moves max t a th m th' m' (.sigSignal S)) :
    (m.sync S).lock = some t ∧ m' = m.signal S := by
  rcases moves_update_or_quiet h with ⟨X, u, st, pc, pc', hc, hl, -, -⟩ |
      ⟨X, c, -, -, -, -, he⟩ | hq
  · cases pc <;> simp only [waitSyncUpdate, Option.ite_none_right_eq_some, Option.some.injEq,
      Prod.mk.injEq, reduceCtorEq, and_false, Event.sigSignal.injEq] at hl
    obtain ⟨-, rfl, rfl⟩ := hl
    exact ⟨(hh.lock X).mpr (.inr (Call.holds_iff.mpr ⟨u, st, _, hc, rfl⟩)), rfl⟩
  · cases he
  · cases hq.event

/-- The head changes at two lines only. -/
theorem moves_list (h : Moves max t a th m th' m' e) : m'.waitSyncList = m.waitSyncList ∨
    (∃ X, th.frame = .wait X .l66 ∧ m'.waitSyncList = some X) ∨
    ∃ X, th'.frame = .wait X .l115 := by
  cases h with
  | init | callWait | callRelease | callUpdate | callWakeup | spurious => exact .inl rfl
  | update h => exact .inl (waitSyncUpdate_frame h).2.1
  | wakeup h => exact .inl (globalWakeupMt_frame h).1
  | release h => exact .inl (by rw [waitSyncRelease_mem h])
  | @wait _ _ f X pc _ h =>
    cases pc <;> simp only [ompiSyncWaitMt, Option.ite_none_right_eq_some, Option.some.injEq,
      Option.map_eq_some_iff, Option.bind_eq_some_iff, Prod.mk.injEq] at h
    case l66 => obtain ⟨-, rfl, -⟩ := h; exact .inr (.inl ⟨X, rfl, rfl⟩)
    case l114 => obtain ⟨rfl, -⟩ := h; exact .inr (.inr ⟨X, rfl⟩)
    case l52 | l63 | l83w | l109 => obtain ⟨-, -, rfl, -⟩ := h; exact .inl rfl
    case l68 | l69 | l71 | l110 | l111 | l37 | l38 => obtain ⟨_, -, -, rfl, -⟩ := h; exact .inl rfl
    case l36 => obtain ⟨_, -, -, -, rfl, -⟩ := h; exact .inl rfl
    all_goals obtain ⟨-, rfl, -⟩ := h; exact .inl rfl

/-- Handing over ends with the signal to the head. -/
theorem moves_handing {X : Sid} {pc : WaitPc} (hh : Held t th m) (hf : th.frame = .wait X pc)
    (hp : pc.handing = true) (hS : m'.waitSyncList = some S)
    (h : Moves max t a th m th' m' e) :
    (∃ pc', th'.frame = .wait X pc' ∧ pc'.handing = true) ∨
    (m.sync S).lock = some t ∧ m' = m.signal S := by
  cases h with
  | init | callWait | callRelease | spurious | release => cases hf <;> cases hp
  | callUpdate hm | callWakeup hm =>
    obtain rfl : _ = Frame.wait X pc := hf
    obtain rfl := Frame.eq_of_mayCall hm
    cases hp
  | update | wakeup =>
    obtain rfl : _ = Frame.wait X pc := hf
    obtain rfl := Frame.eq_of_mayCall (hh.nested (by simp))
    cases hp
  | wait h =>
    cases hf
    cases pc <;> first | exact absurd hp Bool.false_ne_true | skip
    · obtain ⟨rfl, rfl, -⟩ := by
        simpa only [ompiSyncWaitMt, Option.some.injEq, Prod.mk.injEq] using h
      exact .inl ⟨.l36, by simp [hS], rfl⟩
    · simp only [ompiSyncWaitMt, Option.ite_none_right_eq_some, Option.some.injEq,
        Option.bind_eq_some_iff, Prod.mk.injEq] at h
      obtain ⟨_, -, -, rfl, -⟩ := h
      exact .inl ⟨.l37, rfl, rfl⟩
    · simp only [ompiSyncWaitMt, Option.map_eq_some_iff, Prod.mk.injEq] at h
      obtain ⟨Y, hY, -, rfl, -⟩ := h
      obtain rfl : Y = S := Option.some.inj (hY.symm.trans hS)
      exact .inr ⟨(hh.lock Y).mpr (.inl (.inr ⟨rfl, hY⟩)), rfl⟩

/-- The only steps of a waiter's own that leave it past the count check are lines of the wait. -/
theorem Undone.own_line (hh : Held t th m) (h : Moves max t a th m th' m' e)
    (hu : Undone t S th'.frame m') : ∃ pc, th = ⟨.wait S pc, .idle⟩ ∧
      ompiSyncWaitMt max t S m pc = some (th'.frame, m', e) := by
  have hf := hu.not_mayCall
  cases h with
  | init | callRelease => rcases hu with ⟨pc, hu, -⟩ | ⟨hu, -⟩ <;> cases hu
  | callWait =>
    rcases hu with ⟨pc, hu, hp⟩ | ⟨hu, -⟩ <;> cases hu
    cases hp
  | callUpdate hm | callWakeup hm => exact absurd hm (by simp [hf])
  | update | wakeup => exact absurd (hh.nested (by simp)) (by simp [hf])
  | spurious =>
    rcases hu with ⟨pc, hu, hp⟩ | ⟨hu, hc⟩ <;> cases hu
    · cases hp
    · rcases hh.sleep S rfl with hs | ⟨hs, -⟩ <;> simp [Mem.wake, hs] at hc
  | @release _ _ f X pc _ h =>
    cases pc <;> simp only [waitSyncRelease, Prod.mk.injEq] at h <;> obtain ⟨rfl, -⟩ := h <;>
      rcases hu with ⟨pc, hu, -⟩ | ⟨hu, -⟩ <;> cases hu
  | @wait _ _ f X pc _ h =>
    have hs := ompiSyncWaitMt_sync h
    obtain rfl : X = S := by
      rcases hu with ⟨pc, rfl, -⟩ | ⟨rfl, -⟩ <;> exact (Option.some.inj hs).symm
    exact ⟨pc, rfl, h⟩

/-- …and it was past the check before, or has just failed it. -/
theorem Undone.own (hh : Held t th m) (h : Moves max t a th m th' m' e)
    (hu : Undone t S th'.frame m') :
    e.tallied = none ∧ (Undone t S th.frame m ∨ 0 < (m.sync S).count) := by
  obtain ⟨pc, rfl, hl⟩ := hu.own_line hh h
  refine ⟨(ompiSyncWaitMt_quiet hl).event, ?_⟩
  rcases hu with ⟨pc', hf, hp⟩ | ⟨hf, -⟩ <;> rw [hf] at hl
  · exact (ompiSyncWaitMt_undone hl hp).imp_left fun hp => .inl ⟨pc, rfl, hp⟩
  · rcases (ompiSyncWaitMt_dozing hl (.inr (.inr rfl))).2 with ⟨rfl, -⟩ | rfl | rfl <;>
      exact .inl (.inl ⟨_, rfl, rfl⟩)

/-- A waiter that moves past the head check was past it, or the head is another. -/
theorem Dozing.own (hh : Held t th m) (h : Moves max t a th m th' m' e)
    (hd : Dozing t S th'.frame m') (hS : m'.waitSyncList = some S) :
    m.waitSyncList = some S ∧ Dozing t S th.frame m := by
  obtain ⟨pc, rfl, hl⟩ := hd.undone.own_line hh h
  have key : ∃ pc', th'.frame = .wait S pc' ∧ (pc' = .l82n ∨ pc' = .l83 ∨ pc' = .l83w) := by
    rcases hd with hf | hf | hf
    exacts [⟨_, hf, .inl rfl⟩, ⟨_, hf, .inr (.inl rfl)⟩, ⟨_, hf.1, .inr (.inr rfl)⟩]
  obtain ⟨pc', hf, hp⟩ := key
  rw [hf] at hl
  obtain ⟨hlist, ⟨-, hne⟩ | rfl | rfl⟩ := ompiSyncWaitMt_dozing hl hp
  · exact absurd (hlist.symm.trans hS) hne
  · exact ⟨hlist.symm.trans hS, .inl rfl⟩
  · exact ⟨hlist.symm.trans hS, .inr (.inl rfl)⟩

end Others

/-! ## The invariant -/

section Step

variable {max : ℤ} {h : List Event} {s : St} {t : Tid} {a : Act} {l : Thread} {m : Mem} {e : Event}

/-- **Another thread's step cannot put a waiter to sleep**, and a signal it sends wakes the one it
finds. -/
theorem Undone.of_other {t' : Tid} {S : Sid} (hs : Locked s) (hne : t' ≠ t)
    (hm : Moves max t a (s.loc t) s.mem l m e) (hu : Undone t' S (s.loc t').frame m) :
    Undone t' S (s.loc t').frame s.mem ∧
      ((s.mem.sync S).lock = some t → m ≠ s.mem.signal S) := by
  have hh := hs.held t'
  rcases hu with ⟨pc, hf, hp⟩ | ⟨hf, hc⟩
  · have hl : (s.mem.sync S).lock = some t' :=
      (hh.lock S).mpr (.inl (by rw [hf]; exact .inl ⟨pc.locked_of_undone hp, rfl⟩))
    exact ⟨.inl ⟨pc, hf, hp⟩, fun hl' => by simp [hl, hne] at hl'⟩
  · have ho := hh.own S (by rw [hf]; rfl)
    have hb := hh.sleep S (by rw [hf]; rfl)
    have hin : t' ∈ (s.mem.sync S).condition := by
      rcases (moves_guarantee hs.owner_of_lock (hs.held t) hm).sleep S (by simp [ho])
        (by simpa [ho] using hne) with h | ⟨-, h⟩
      · rwa [h] at hc
      · exact List.mem_of_mem_tail (h ▸ hc)
    refine ⟨.inr ⟨hf, hin⟩, fun _ hm' => ?_⟩
    rcases hb with hb | ⟨hb, -⟩ <;> simp [hm', Mem.signal, hb] at hc

theorem Dozing.of_other {t' : Tid} {S : Sid} (hs : Locked s) (hne : t' ≠ t)
    (hm : Moves max t a (s.loc t) s.mem l m e) (hd : Dozing t' S (s.loc t').frame m) :
    Dozing t' S (s.loc t').frame s.mem := by
  rcases hd with hf | hf | hf
  · exact .inl hf
  · exact .inr (.inl hf)
  · rcases (Undone.of_other hs hne hm (.inr hf)).1 with ⟨pc, hf', hp⟩ | hf'
    · cases hf'.symm.trans hf.1
      cases hp
    · exact .inr (.inr hf')

/-- **One step keeps everybody roused.** -/
theorem Roused.step (hs : Locked s) (hi : Tally h s) (r : Roused h s)
    (hm : Moves max t a (s.loc t) s.mem l m e) : Roused (e :: h) (s.move t l m) where
  undone t' S hu := by
    by_cases ht : t' = t
    · subst ht
      rw [State.move_loc_self, State.move_mem] at hu
      obtain ⟨he, hu⟩ := hu.own (hs.held t') hm
      have hmem : .sigSignal S ∉ h := hu.elim (r.undone t' S) fun hc hx =>
        absurd ((hi.recorded S).signal hx) (by omega)
      simp only [List.mem_cons, hmem, or_false]
      rintro rfl
      cases he
    · rw [State.move_loc_of_ne _ _ _ _ ht, State.move_mem] at hu
      obtain ⟨hu, hne⟩ := hu.of_other hs ht hm
      simp only [List.mem_cons, r.undone t' S hu, or_false]
      rintro rfl
      obtain ⟨hl, hmm⟩ := moves_sigSignal (hs.held t) hm
      exact hne hl hmm
  dozing t' S hd hS := by
    rw [State.move_mem] at hS
    have keep : ∀ t'' X pc, t'' ≠ t → (s.loc t'').frame = .wait X pc → pc.handing = true →
        ∃ t'' X pc, ((s.move t l m).loc t'').frame = .wait X pc ∧ pc.handing = true :=
      fun t'' X pc hne hf hp => ⟨t'', X, pc, by rwa [State.move_loc_of_ne _ _ _ _ hne], hp⟩
    by_cases ht : t' = t
    · subst ht
      rw [State.move_loc_self, State.move_mem] at hd
      obtain ⟨hS', hd⟩ := hd.own (hs.held t') hm hS
      obtain ⟨t'', X, pc, hf, hp⟩ := r.dozing t' S hd hS'
      refine keep t'' X pc (fun hne => ?_) hf hp
      subst hne
      rcases hd with hd | hd | hd
      · cases hf.symm.trans hd; cases hp
      · cases hf.symm.trans hd; cases hp
      · cases hf.symm.trans hd.1; cases hp
    · rw [State.move_loc_of_ne _ _ _ _ ht, State.move_mem] at hd
      have hd' := hd.of_other hs ht hm
      rcases moves_list hm with hlist | ⟨X, hf, hlist⟩ | ⟨X, hf⟩
      · obtain ⟨t'', X, pc, hf, hp⟩ := r.dozing t' S hd' (hlist ▸ hS)
        by_cases hne : t'' = t
        · subst hne
          rcases moves_handing (hs.held t'') hf hp hS hm with ⟨pc', hf', hp'⟩ | ⟨hl, hmm⟩
          · exact ⟨t'', X, pc', by rwa [State.move_loc_self], hp'⟩
          · exact absurd hmm ((hd.undone.of_other hs ht hm).2 hl)
        · exact keep t'' X pc hne hf hp
      · obtain rfl : X = S := Option.some.inj (hlist.symm.trans hS)
        have ho := (hs.held t).own X (by rw [hf]; rfl)
        have ho' : (s.mem.sync X).owner = some t' := by
          refine (hs.held t').own X ?_
          rcases hd with hd | hd | hd
          exacts [by rw [hd]; rfl, by rw [hd]; rfl, by rw [hd.1]; rfl]
        exact absurd (Option.some.inj (ho'.symm.trans ho)) ht
      · exact ⟨t, X, .l115, by rwa [State.move_loc_self], rfl⟩

end Step

theorem start_roused : Roused [] start where
  undone t S hu := by simp
  dozing t S hd hS := by cases hS

/-- **A run keeps everybody roused.** -/
theorem roused_of_path {max : ℤ} {s : St} {π : List (Transition Tid Thread Mem Act Event)}
    (hp : (waitSync max).Path start π s) (hE : Allowed NonNeg π) : Roused (events π) s :=
  (hp.invariant (fun h s => Locked s ∧ Tally h s ∧ Roused h s) NonNeg
    (fun _ _ _ _ _ _ _ hi he hx => ⟨hi.1.step (moves_of_exec hx),
      hi.2.1.step hi.1 he (moves_of_exec hx), hi.2.2.step hi.1 hi.2.1 (moves_of_exec hx)⟩)
    hE ⟨start_locked, start_tally, start_roused⟩).2.2

/-! ## No waiter is stranded -/

theorem WaitPc.listLocked_of_handing {pc : WaitPc} (h : pc.handing = true) :
    pc.listLocked = true := by
  cases pc <;> first | rfl | exact absurd h Bool.false_ne_true

/-- **No waiter is stranded.**  Whoever is asleep with no signal delivered is not the head — or the
thread that made it the head still holds `wait_sync_lock` and is about to signal it — and no update
has signalled its sync, let alone finished. -/
theorem no_waiter_stranded {max : ℤ} {s : St} {π : List (Transition Tid Thread Mem Act Event)}
    {t : Tid} {S : Sid} (hp : (waitSync max).Path start π s) (hE : Allowed NonNeg π)
    (ha : Asleep t S (s.loc t).frame s.mem) :
    (s.mem.waitSyncList = some S → ∃ t' X pc, t' ≠ t ∧ s.mem.waitSyncLock = some t' ∧
      (s.loc t').frame = .wait X pc ∧ pc.handing = true) ∧
    .sigSignal S ∉ events π ∧ .sigUnlock S ∉ events π ∧ .sigCleared S ∉ events π := by
  have r := roused_of_path hp hE
  have hs := r.undone t S (.inr ha)
  have finish := ((tally_of_path hp hE).recorded S).finish
  refine ⟨fun hS => ?_, hs, fun h => hs (finish (.inl h)), fun h => hs (finish (.inr h))⟩
  obtain ⟨t', X, pc, hf, hpc⟩ := r.dozing t S (.inr (.inr ha)) hS
  refine ⟨t', X, pc, ?_, ?_, hf, hpc⟩
  · rintro rfl
    cases hf.symm.trans ha.1
    cases hpc
  · refine ((locked_of_path hp).held t').list.mpr ?_
    simp [Thread.listLocked, hf, Frame.listLocked, pc.listLocked_of_handing hpc]

theorem no_waiter_stranded_behind :
    ∃ s π, (waitSync 1).Path start π s ∧ Asleep 1 1 (s.loc 1).frame s.mem ∧
      s.mem.waitSyncList ≠ some 1 ∧ .sigSignal 1 ∉ events π := by
  obtain ⟨s, π, hp, hE, ha, hl⟩ := exists_path_of_run (p := waitSync 1) (s := start) sleepBehind
    (P := fun s π => Allowed NonNeg π ∧ Asleep 1 1 (s.loc 1).frame s.mem ∧
      s.mem.waitSyncLock = none) (by decide)
  obtain ⟨hhead, hsig, -⟩ := no_waiter_stranded hp hE ha
  refine ⟨s, π, hp, ha, fun h => ?_, hsig⟩
  obtain ⟨t', -, -, -, ht', -⟩ := hhead h
  simp [hl] at ht'

end Libult.WaitSync
