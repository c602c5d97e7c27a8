import Libult.WaitSync.Code

/-!
# WaitSync/Steps — the ways a thread moves

One inversion of `exec` for every proof below: a thread starts something, or it executes one line of
one function.
-/

namespace Libult.WaitSync

open Interleaving

/-! ## The steps, function by function -/

/-- The ways a thread moves: it starts something, or it executes one line of one function. -/
inductive Moves (max : ℤ) (t : Tid) : Act → Thread → Mem → Thread → Mem → Event → Prop
  | init {m : Mem} {S : Sid} {c : ℤ} : (m.sync S).owner = none →
      Moves max t (.init S c) ⟨.out, .idle⟩ m ⟨.ready S, .idle⟩ (m.waitSyncInit S t c) (.inited S c)
  | callWait {m : Mem} {S : Sid} :
      Moves max t .wait ⟨.ready S, .idle⟩ m ⟨.wait S .l47, .idle⟩ m .tau
  | callRelease {m : Mem} {S : Sid} {rc : Rc} :
      Moves max t .release ⟨.back S rc, .idle⟩ m ⟨.release S .l34, .idle⟩ m .tau
  | callUpdate {m : Mem} {f : Frame} {S : Sid} {u st : ℤ} : f.mayCall → (m.sync S).owner ≠ none →
      Moves max t (.update S u st) ⟨f, .idle⟩ m ⟨f, .update S u st .l110⟩ m .tau
  | callWakeup {m : Mem} {f : Frame} {st : ℤ} : f.mayCall →
      Moves max t (.wakeup st) ⟨f, .idle⟩ m ⟨f, .wakeup st .l17⟩ m .tau
  | spurious {m : Mem} {S : Sid} : t ∈ (m.sync S).condition →
      Moves max t .spurious ⟨.wait S .l83w, .idle⟩ m ⟨.wait S .l83w, .idle⟩ (m.wake S t) .tau
  | update {m m' : Mem} {f : Frame} {S : Sid} {u st : ℤ} {pc : UpdatePc} {pc' : Option UpdatePc}
      {e : Event} : waitSyncUpdate t S u st m pc = some (pc', m', e) →
      Moves max t .run ⟨f, .update S u st pc⟩ m ⟨f, pc'.elim .idle (.update S u st)⟩ m' e
  | wakeup {m m' : Mem} {f : Frame} {st : ℤ} {pc : WakeupPc} {pc' : Option WakeupPc}
      {e : Event} : globalWakeupMt t st m pc = some (pc', m', e) →
      Moves max t .run ⟨f, .wakeup st pc⟩ m ⟨f, pc'.elim .idle (.wakeup st)⟩ m' e
  | wait {m m' : Mem} {f : Frame} {S : Sid} {pc : WaitPc} {e : Event} :
      ompiSyncWaitMt max t S m pc = some (f, m', e) →
      Moves max t .run ⟨.wait S pc, .idle⟩ m ⟨f, .idle⟩ m' e
  | release {m m' : Mem} {f : Frame} {S : Sid} {pc : ReleasePc} {e : Event} :
      waitSyncRelease S m pc = (f, m', e) →
      Moves max t .run ⟨.release S pc, .idle⟩ m ⟨f, .idle⟩ m' e

theorem moves_of_runLine {max : ℤ} {t : Tid} {th th' : Thread} {m m' : Mem} {e : Event}
    (h : runLine max t m th = some (th', m', e)) : Moves max t .run th m th' m' e := by
  obtain ⟨f, c⟩ := th
  cases c with
  | update S u st pc =>
    obtain ⟨⟨pc', m₁, e₁⟩, hl, hr⟩ := Option.map_eq_some_iff.mp h
    obtain ⟨rfl, rfl, rfl⟩ : _ = th' ∧ _ = m' ∧ _ = e := by simpa using hr
    exact .update hl
  | wakeup st pc =>
    obtain ⟨⟨pc', m₁, e₁⟩, hl, hr⟩ := Option.map_eq_some_iff.mp h
    obtain ⟨rfl, rfl, rfl⟩ : _ = th' ∧ _ = m' ∧ _ = e := by simpa using hr
    exact .wakeup hl
  | idle =>
    cases f with
    | wait S pc =>
      obtain ⟨⟨f', m₁, e₁⟩, hl, hr⟩ := Option.map_eq_some_iff.mp h
      obtain ⟨rfl, rfl, rfl⟩ : _ = th' ∧ _ = m' ∧ _ = e := by simpa using hr
      exact .wait hl
    | release S pc =>
      simp only [runLine, Option.some.injEq, Prod.mk.injEq] at h
      obtain ⟨rfl, rfl, rfl⟩ := h
      exact .release rfl
    | out | ready _ | back _ _ => exact absurd h (by simp [runLine])

/-- **Every step is one of these moves.** -/
theorem moves_of_exec {max : ℤ} {t : Tid} {a : Act} {th th' : Thread} {m m' : Mem} {e : Event}
    (h : exec max t a th m = some (th', m', e)) : Moves max t a th m th' m' e := by
  obtain ⟨f, c⟩ := th
  cases a with
  | run => exact moves_of_runLine h
  | init S c =>
    simp only [exec, Option.ite_none_right_eq_some, Option.some.injEq, Prod.mk.injEq,
      Thread.mk.injEq] at h
    obtain ⟨⟨⟨rfl, rfl⟩, ho⟩, rfl, rfl, rfl⟩ := h
    exact .init ho
  | update S u st =>
    simp only [exec, Option.ite_none_right_eq_some, Option.some.injEq, Prod.mk.injEq] at h
    obtain ⟨⟨rfl, hf, ho⟩, rfl, rfl, rfl⟩ := h
    exact .callUpdate hf ho
  | wakeup st =>
    simp only [exec, Option.ite_none_right_eq_some, Option.some.injEq, Prod.mk.injEq] at h
    obtain ⟨⟨rfl, hf⟩, rfl, rfl, rfl⟩ := h
    exact .callWakeup hf
  | wait =>
    simp only [exec] at h
    split at h
    · obtain ⟨rfl, rfl⟩ := Thread.mk.injEq .. ▸ ‹Thread.mk f c = _›
      obtain ⟨rfl, rfl, rfl⟩ : _ = th' ∧ _ = m' ∧ _ = e := by simpa using h
      exact .callWait
    · exact absurd h (by simp)
  | release =>
    simp only [exec] at h
    split at h
    · obtain ⟨rfl, rfl⟩ := Thread.mk.injEq .. ▸ ‹Thread.mk f c = _›
      obtain ⟨rfl, rfl, rfl⟩ : _ = th' ∧ _ = m' ∧ _ = e := by simpa using h
      exact .callRelease
    · exact absurd h (by simp)
  | spurious =>
    simp only [exec] at h
    split at h
    · obtain ⟨rfl, rfl⟩ := Thread.mk.injEq .. ▸ ‹Thread.mk f c = _›
      simp only [Option.ite_none_right_eq_some, Option.some.injEq, Prod.mk.injEq] at h
      obtain ⟨hs, rfl, rfl, rfl⟩ := h
      exact .spurious hs
    · exact absurd h (by simp)

end Libult.WaitSync
