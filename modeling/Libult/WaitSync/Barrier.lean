import Libult.WaitSync.Stranded

/-!
# WaitSync/Barrier — the wait is a sound completion barrier

`ompi_sync_wait_mt` leaves by four exits, each behind a count test of its own.  A count once at zero
stays there, whatever updates follow, so the test still holds at the return (`Done`).  What the
return reads is the status, and the history says what that means: zero, and every decrement has been
applied; not zero, and an error update has stored it.
-/

namespace Libult.WaitSync

open Interleaving Program

/-- The lines behind a count test that found the sync complete. -/
def WaitPc.done : WaitPc → Bool
  | .l48 | .l58 | .l59 | .l92 | .l105 | .l109 | .l110 | .l111 | .l113 | .l114 | .l115 | .l36 | .l37
  | .l38 | .l119 | .l121 => true
  | _ => false

/-- **Behind the test the sync is complete.** -/
def Done (s : St) : Prop :=
  ∀ t S pc, (s.loc t).frame = .wait S pc → pc.done = true → (s.mem.sync S).count ≤ 0

section Step

variable {max : ℤ} {t : Tid} {a : Act} {th th' : Thread} {m m' : Mem} {e : Event} {S : Sid}

/-- The way behind the test is the test. -/
theorem ompiSyncWaitMt_done {pc pc' : WaitPc}
    (h : ompiSyncWaitMt max t S m pc = some (.wait S pc', m', e)) (hp : pc'.done = true) :
    pc.done = true ∨ (m.sync S).count ≤ 0 := by
  cases pc <;> simp only [ompiSyncWaitMt, Option.ite_none_right_eq_some, Option.some.injEq,
    Option.map_eq_some_iff, Option.bind_eq_some_iff, Prod.mk.injEq, Frame.wait.injEq,
    reduceCtorEq, false_and] at h
  case l58 | l92 | l105 | l109 | l110 | l111 | l113 | l114 | l115 | l36 | l37 | l38 | l119 =>
    exact .inl rfl
  case l47 | l57 | l91 =>
    obtain ⟨⟨-, rfl⟩, -⟩ := h
    split at hp
    · exact .inr ‹_›
    · exact absurd hp Bool.false_ne_true
  case l101 =>
    obtain ⟨⟨-, rfl⟩, -⟩ := h
    split at hp
    · exact absurd hp Bool.false_ne_true
    · exact .inr (not_lt.mp ‹_›)
  case l64 | l82 | l82n =>
    obtain ⟨⟨-, rfl⟩, -⟩ := h
    split at hp <;> exact absurd hp Bool.false_ne_true
  case l52 | l63 | l83w => obtain ⟨-, ⟨-, rfl⟩, -⟩ := h; exact absurd hp Bool.false_ne_true
  case l68 | l69 | l71 => obtain ⟨_, -, ⟨-, rfl⟩, -⟩ := h; exact absurd hp Bool.false_ne_true
  all_goals obtain ⟨⟨-, rfl⟩, -⟩ := h; exact absurd hp Bool.false_ne_true

/-- A thread behind the test was there before, or has just passed it. -/
theorem moves_done {pc' : WaitPc} (hh : Held t th m) (h : Moves max t a th m th' m' e)
    (hf : th'.frame = .wait S pc') (hp : pc'.done = true) :
    (∃ pc, th.frame = .wait S pc ∧ pc.done = true) ∨
      (m.sync S).count ≤ 0 ∧ (m.sync S).owner = some t := by
  cases h with
  | init | callRelease => cases hf
  | callWait | spurious => cases hf; cases hp
  | release h => rename_i pc; cases pc <;> cases h <;> cases hf
  | callUpdate | callWakeup | update | wakeup => exact .inl ⟨pc', hf, hp⟩
  | @wait _ _ f X pc _ h =>
    obtain rfl : f = .wait S pc' := hf
    obtain rfl : S = X := Option.some.inj (ompiSyncWaitMt_sync h)
    rcases ompiSyncWaitMt_done h hp with hp | hc
    · exact .inl ⟨pc, rfl, hp⟩
    · exact .inr ⟨hc, hh.own S rfl⟩

/-- **The four exits**, and what they read. -/
theorem moves_returned {rc : Rc} (h : Moves max t a th m th' m' (.returned S rc)) :
    ∃ pc, th.frame = .wait S pc ∧ pc.done = true ∧ rc = m.result S := by
  cases h with
  | update h => cases (waitSyncUpdate_event h).1
  | wakeup h => cases globalWakeupMt_event h
  | @release _ _ _ X pc _ h => cases pc <;> simp [waitSyncRelease] at h
  | @wait _ _ f X pc _ h =>
    cases pc <;> simp only [ompiSyncWaitMt, Option.ite_none_right_eq_some, Option.some.injEq,
      Option.map_eq_some_iff, Option.bind_eq_some_iff, Prod.mk.injEq, reduceCtorEq, and_false,
      exists_false, Event.returned.injEq] at h
    all_goals
      obtain ⟨-, -, rfl, rfl⟩ := h
      exact ⟨_, rfl, rfl, rfl⟩

end Step

/-- **One step keeps the complete complete.** -/
theorem Done.step {max : ℤ} {h : List Event} {s : St} {t : Tid} {a : Act} {l : Thread} {m : Mem}
    {e : Event} (hs : Locked s) (i : Tally h s) (d : Done s)
    (hm : Moves max t a (s.loc t) s.mem l m e) : Done (s.move t l m) := by
  intro t' S pc' hf hp
  have settles := moves_settles (i.updating t) hm
  suffices (s.mem.sync S).count ≤ 0 ∧ (s.mem.sync S).owner ≠ none from
    settles.count S this.2 this.1
  by_cases ht : t' = t
  · subst ht
    rw [State.move_loc_self] at hf
    rcases moves_done (hs.held t') hm hf hp with ⟨pc, hf', hp'⟩ | ⟨hc, ho⟩
    · exact ⟨d t' S pc hf' hp', by simp [(hs.held t').own S (by rw [hf']; rfl)]⟩
    · exact ⟨hc, by simp [ho]⟩
  · rw [State.move_loc_of_ne _ _ _ _ ht] at hf
    exact ⟨d t' S pc' hf hp, by simp [(hs.held t').own S (by rw [hf]; rfl)]⟩

/-- **A run keeps the complete complete.** -/
theorem done_of_path {max : ℤ} {s : St} {π : List (Transition Tid Thread Mem Act Event)}
    (hp : (waitSync max).Path start π s) (hE : Allowed NonNeg π) : Done s :=
  (hp.invariant (fun h s => Locked s ∧ Tally h s ∧ Done s) NonNeg
    (fun _ _ _ _ _ _ _ hi he hx => ⟨hi.1.step (moves_of_exec hx),
      hi.2.1.step hi.1 he (moves_of_exec hx), hi.2.2.step hi.1 hi.2.1 (moves_of_exec hx)⟩)
    hE ⟨start_locked, start_tally, fun _ _ _ hf => by cases hf⟩).2.2

/-- **The completion barrier is sound.**  Whenever `ompi_sync_wait_mt(S)` returns, the count is
down; it returns `SUCCESS` only if the successful updates so far make up the initial count and no
error has been stored, and `ERROR` exactly if an error update has stored a status. -/
theorem barrier_sound {max : ℤ} {s s' : St} {π : List (Transition Tid Thread Mem Act Event)}
    {t : Tid} {a : Act} {S : Sid} {c : ℤ} {rc : Rc} (hp : (waitSync max).Path start π s)
    (hE : Allowed NonNeg π) (hc : .inited S c ∈ events π)
    (hstep : (waitSync max).step s t a = some (s', .returned S rc)) :
    (s.mem.sync S).count ≤ 0 ∧
    (rc = .SUCCESS → c ≤ total S (events π) ∧ ∀ st, .stored S st ∉ events π) ∧
    (rc = .ERROR ↔ ∃ st, st ≠ 0 ∧ .stored S st ∈ events π) := by
  obtain ⟨l, m, hexec, -⟩ := step_eq_some.mp hstep
  obtain ⟨pc, hf, hpc, rfl⟩ := moves_returned (moves_of_exec hexec)
  have hcount := done_of_path hp hE t S pc hf hpc
  have ho : (s.mem.sync S).owner ≠ none := by
    simp [((locked_of_path hp).held t).own S (by rw [hf]; rfl)]
  have r := (tally_of_path hp hE).recorded S
  have hres : s.mem.result S = .ERROR ↔ (s.mem.sync S).status ≠ 0 := by
    unfold Mem.result
    split
    · exact ⟨fun h => (by cases h), fun h => absurd (Eq.symm ‹_›) h⟩
    · exact ⟨fun _ h => ‹¬ _› h.symm, fun _ => rfl⟩
  refine ⟨hcount, fun hsucc => ?_, ?_⟩
  · have hst : (s.mem.sync S).status = 0 := by
      by_contra hne
      cases hsucc.symm.trans (hres.mpr hne)
    have hno : ∀ st, .stored S st ∉ events π := fun st hm => (r.stored ho).mpr ⟨st, hm⟩ hst
    have := r.count (fun hm => r.swapped hm hst) c hc
    exact ⟨by omega, hno⟩
  · rw [hres, r.stored ho]
    exact exists_congr fun st => ⟨fun hm => ⟨r.error st hm, hm⟩, And.right⟩

/-- Thread 0 waits for two completions, which thread 1 delivers at once. -/
def completeBoth : List (Tid × Act) :=
  [(0, Act.init 0 2), (0, Act.wait), (0, Act.run), (1, Act.update 0 2 0), (1, Act.run),
    (1, Act.run)] ++ List.replicate 3 (0, Act.run)

theorem barrier_sound_both :
    ∃ s π, (waitSync 1).Path start π s ∧ (s.mem.sync 0).count ≤ 0 ∧ 2 ≤ total 0 (events π) ∧
      ∃ s', (waitSync 1).step s 0 .run = some (s', .returned 0 .SUCCESS) := by
  obtain ⟨s, π, hp, hE, hc, hstep⟩ := exists_path_of_run (p := waitSync 1) (s := start) completeBoth
    (P := fun s π => Allowed NonNeg π ∧ .inited 0 2 ∈ events π ∧
      ((waitSync 1).step s 0 .run).map Prod.snd = some (.returned 0 .SUCCESS)) (by decide)
  obtain ⟨⟨s', e⟩, hs', rfl⟩ := Option.map_eq_some_iff.mp hstep
  obtain ⟨hcount, hsucc, -⟩ := barrier_sound hp hE hc hs'
  exact ⟨s, π, hp, hcount, (hsucc rfl).1, s', hs'⟩

end Libult.WaitSync
