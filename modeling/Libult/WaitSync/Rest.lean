import Libult.WaitSync.Barrier
import Libult.WaitSync.Deadlock
import Libult.WaitSync.Release
import Libult.WaitSync.Work

/-!
# WaitSync/Rest — the module comes to rest, and nobody is left behind

Every line of work uses some up (`WaitSync/Work`), so the threads run out of it, however they are
scheduled.  Then every call has returned, every lock is free, and whoever is still inside is there
for a reason: it polls, or it sleeps behind the head of the list, which polls.

    asleep    the count is up                       or it was taken below zero past zero, and the
    release   the flag is up                        update that did so signalled nobody
-/

namespace Libult.WaitSync

open Interleaving Program

/-! ## Counts that get below zero with no signal -/

/-- The count of `S` starts below zero, or an update takes it from above to below. -/
def Event.skips (S : Sid) : Event → Prop
  | .inited S' c => S' = S ∧ c < 0
  | .applied S' u now => S' = S ∧ now < 0 ∧ 0 < now + u
  | _ => False

instance (S : Sid) (e : Event) : Decidable (e.skips S) := by
  unfold Event.skips
  split <;> infer_instance

/-- **The count of `S` skipped zero.** -/
def Skipped (S : Sid) (h : List Event) : Prop := ∃ e ∈ h, e.skips S

instance (S : Sid) (h : List Event) : Decidable (Skipped S h) :=
  inferInstanceAs (Decidable (∃ e ∈ h, e.skips S))

theorem skipped_cons {S : Sid} {e : Event} {h : List Event} :
    Skipped S (e :: h) ↔ e.skips S ∨ Skipped S h := by
  simp [Skipped]

/-- Some update of `S` is at a line of the kind `q`. -/
def Inside (q : UpdatePc → Bool) (S : Sid) (s : St) : Prop :=
  ∃ t u st pc, (s.loc t).call.updating = some (S, u, st, pc) ∧ q pc = true

/-- The lines of an update that has brought the count to zero and not signalled. -/
def UpdatePc.unsent : UpdatePc → Bool
  | .l52 | .l53 => true
  | _ => false

section Step

variable {max : ℤ} {h : List Event} {s : St} {t : Tid} {a : Act} {th : Thread} {m : Mem} {e : Event}
  {S : Sid} {q : UpdatePc → Bool}

/-- **An update stays inside** until a line of its own takes it out. -/
theorem Inside.step (i : Inside q S s) (hm : Moves max t a (s.loc t) s.mem th m e) :
    Inside q S (s.move t th m) ∨ ∃ u st pc pc', (s.loc t).call.updating = some (S, u, st, pc) ∧
      q pc = true ∧ waitSyncUpdate t S u st s.mem pc = some (pc', m, e) ∧
      ∀ p, pc' = some p → q p = false := by
  obtain ⟨t', u, st, pc, hc, hq⟩ := i
  by_cases ht : t' = t
  · subst ht
    rcases moves_update_or_quiet hm with ⟨X, u', st', pc₁, pc', hc', hl, -, hth⟩ |
        ⟨X, c, hth, -⟩ | hquiet
    · obtain ⟨rfl, rfl, rfl, rfl⟩ : S = X ∧ u = u' ∧ st = st' ∧ pc = pc₁ := by
        simpa using hc.symm.trans hc'
      by_cases hp : ∃ p, pc' = some p ∧ q p = true
      · obtain ⟨p, rfl, hp⟩ := hp
        exact .inl ⟨t', u, st, p, by rw [State.move_loc_self, hth]; rfl, hp⟩
      · exact .inr ⟨u, st, pc, pc', hc, hq, hl, fun p hp' =>
          Bool.not_eq_true _ ▸ fun hqp => hp ⟨p, hp', hqp⟩⟩
    · rw [hth] at hc
      cases hc
    · rw [hquiet.before] at hc
      cases hc
  · exact .inl ⟨t', u, st, pc, by rwa [State.move_loc_of_ne _ _ _ _ ht], hq⟩

/-- **A count that comes down to zero** is about to be signalled, or has skipped zero. -/
theorem moves_lowered (hm : Moves max t a (s.loc t) s.mem th m e) (ho : (s.mem.sync S).owner ≠ none)
    (hup : 0 < (s.mem.sync S).count) (hdown : (m.sync S).count ≤ 0) :
    Skipped S (e :: h) ∨ Inside UpdatePc.unsent S (s.move t th m) := by
  rcases moves_update_or_quiet hm with ⟨X, u, st, pc, pc', hc, hl, -, hth⟩ |
      ⟨X, c, -, -, hX, rfl, -⟩ | hquiet
  · obtain rfl : S = X := by
      by_contra hne
      rw [(waitSyncUpdate_frame hl).2.2.2.2 S hne] at hdown
      omega
    have inside : ∀ p, pc' = some p → p.unsent = true → Inside UpdatePc.unsent S (s.move t th m) :=
      fun p hp hu => ⟨t, u, st, p, by rw [State.move_loc_self, hth, hp]; rfl, hu⟩
    cases pc <;> simp only [waitSyncUpdate, Option.ite_none_right_eq_some, Option.some.injEq,
      Prod.mk.injEq] at hl
    case l111 =>
      obtain ⟨hp, rfl, rfl⟩ := hl
      by_cases hnow : (s.mem.sync S).count + -u = 0
      · exact .inr (inside .l52 (by rw [← hp, if_neg (not_not.mpr hnow)]) rfl)
      · have hlt : (s.mem.sync S).count + -u ≤ 0 := by simpa [Mem.setCount] using hdown
        exact .inl (skipped_cons.mpr (.inl ⟨rfl, lt_of_le_of_ne hlt hnow, by omega⟩))
    case l118 =>
      obtain ⟨rfl, -⟩ := hl
      exact .inr (inside .l52 rfl rfl)
    case l110 =>
      obtain ⟨-, rfl, -⟩ := hl
      omega
    case l116 | l53 | l54 | l55 =>
      obtain ⟨-, rfl, -⟩ := hl
      simp only [Mem.setStatus, Mem.signal, Mem.unlock, Mem.clearSignaling, Mem.sync_modify,
        if_pos] at hdown
      omega
    case l52 =>
      obtain ⟨-, -, rfl, -⟩ := hl
      simp only [Mem.lock, Mem.sync_modify, if_pos] at hdown
      omega
  · have hne : S ≠ X := fun hc => ho (hc ▸ hX)
    simp only [Mem.waitSyncInit, Mem.sync_modify, if_neg hne] at hdown
    omega
  · rw [hquiet.count] at hdown
    omega

end Step

/-! ## What a count at zero owes -/

/-- **What a sync owes**: a flag that is up will come down, and whoever has found the count up will
be signalled — or the count is up, or it skipped zero. -/
structure Owed (h : List Event) (s : St) : Prop where
  flag : ∀ S, (s.mem.sync S).owner ≠ none → (s.mem.sync S).signaling = true →
    0 < (s.mem.sync S).count ∨ Skipped S h ∨ Inside UpdatePc.zeroed S s
  waiter : ∀ t S, Undone t S (s.loc t).frame s.mem →
    0 < (s.mem.sync S).count ∨ Skipped S h ∨ Inside UpdatePc.unsent S s
  behind : ∀ t S, ((∃ rc, (s.loc t).frame = .back S rc) ∨ ∃ pc, (s.loc t).frame = .release S pc) →
    (s.mem.sync S).count ≤ 0

theorem Inside.mono {q q' : UpdatePc → Bool} {S : Sid} {s : St} (i : Inside q S s)
    (hq : ∀ pc, q pc = true → q' pc = true) : Inside q' S s :=
  let ⟨t, u, st, pc, hc, hp⟩ := i
  ⟨t, u, st, pc, hc, hq pc hp⟩

theorem UpdatePc.zeroed_of_unsent {pc : UpdatePc} (h : pc.unsent = true) : pc.zeroed = true := by
  cases pc <;> first | rfl | exact absurd h Bool.false_ne_true

section Step

variable {max : ℤ} {h : List Event} {s : St} {t : Tid} {a : Act} {th : Thread} {m : Mem} {e : Event}

/-- Whoever leaves the last lines of an update has lowered the flag. -/
theorem waitSyncUpdate_leaves {S : Sid} {u st : ℤ} {m' : Mem} {pc : UpdatePc}
    {pc' : Option UpdatePc} (hl : waitSyncUpdate t S u st m pc = some (pc', m', e))
    (hz : pc.zeroed = true) (hout : ∀ p, pc' = some p → p.zeroed = false) :
    (m'.sync S).signaling = false := by
  cases pc <;> first | exact absurd hz Bool.false_ne_true | skip
  all_goals simp only [waitSyncUpdate, Option.ite_none_right_eq_some, Option.some.injEq,
    Prod.mk.injEq] at hl
  case l55 =>
    obtain ⟨-, rfl, -⟩ := hl
    simp [Mem.clearSignaling]
  case l52 =>
    obtain ⟨-, rfl, -⟩ := hl
    exact absurd (hout _ rfl) (by decide)
  all_goals
    obtain ⟨rfl, -⟩ := hl
    exact absurd (hout _ rfl) (by decide)

/-- …and whoever leaves the lines before the signal has sent it. -/
theorem waitSyncUpdate_sends {S : Sid} {u st : ℤ} {m' : Mem} {pc : UpdatePc}
    {pc' : Option UpdatePc} (hl : waitSyncUpdate t S u st m pc = some (pc', m', e))
    (hz : pc.unsent = true) (hout : ∀ p, pc' = some p → p.unsent = false) : e = .sigSignal S := by
  cases pc <;> first | exact absurd hz Bool.false_ne_true | skip
  all_goals simp only [waitSyncUpdate, Option.ite_none_right_eq_some, Option.some.injEq,
    Prod.mk.injEq] at hl
  · obtain ⟨-, rfl, -⟩ := hl
    exact absurd (hout _ rfl) (by decide)
  · exact hl.2.2.symm

/-- What is owed for the flag stays owed, until the flag is down. -/
theorem Owed.step_flag (i : Owed h s) (hm : Moves max t a (s.loc t) s.mem th m e)
    {S : Sid} (ho' : (m.sync S).owner ≠ none) (hup : (m.sync S).signaling = true) :
    0 < (m.sync S).count ∨ Skipped S (e :: h) ∨ Inside UpdatePc.zeroed S (s.move t th m) := by
  by_cases ho : (s.mem.sync S).owner = none
  · obtain ⟨c, rfl, rfl⟩ := moves_owner hm ho ho'
    simp only [Mem.waitSyncInit, Mem.sync_modify, if_pos, decide_eq_true_eq] at hup ⊢
    rcases lt_or_gt_of_ne hup with hc | hc
    · exact .inr (.inl (skipped_cons.mpr (.inl ⟨rfl, hc⟩)))
    · exact .inl hc
  · have hflag : (s.mem.sync S).signaling = true := by
      by_contra hdown
      simp [moves_down hm ho (Bool.not_eq_true _ ▸ hdown)] at hup
    refine (lt_or_ge 0 (m.sync S).count).imp_right fun hle => ?_
    rcases i.flag S ho hflag with hpos | hk | hin
    · exact (moves_lowered hm ho hpos hle).imp_right fun hi =>
        hi.mono fun _ => UpdatePc.zeroed_of_unsent
    · exact .inl (skipped_cons.mpr (.inr hk))
    · rcases hin.step hm with hin | ⟨u, st, pc, pc', -, hz, hl, hout⟩
      · exact .inr hin
      · simp [waitSyncUpdate_leaves hl hz hout] at hup

/-- What is owed to a waiter stays owed, until it is signalled. -/
theorem Owed.step_waiter (hs : Locked s) (r : Roused (e :: h) (s.move t th m)) (i : Owed h s)
    (hm : Moves max t a (s.loc t) s.mem th m e) {t' : Tid} {S : Sid}
    (hu : Undone t' S ((s.move t th m).loc t').frame m) :
    0 < (m.sync S).count ∨ Skipped S (e :: h) ∨ Inside UpdatePc.unsent S (s.move t th m) := by
  have hnot := r.undone t' S (by rwa [State.move_mem])
  have key : (s.mem.sync S).owner ≠ none ∧
      (0 < (s.mem.sync S).count ∨ Skipped S h ∨ Inside UpdatePc.unsent S s) := by
    by_cases ht : t' = t
    · subst ht
      rw [State.move_loc_self] at hu
      obtain ⟨pc, hth, -⟩ := hu.own_line (hs.held t') hm
      refine ⟨by simp [(hs.held t').own S (by rw [hth]; rfl)], ?_⟩
      exact (hu.own (hs.held t') hm).2.elim (i.waiter t' S) .inl
    · rw [State.move_loc_of_ne _ _ _ _ ht] at hu
      have hold := (hu.of_other hs ht hm).1
      refine ⟨?_, i.waiter t' S hold⟩
      rcases hold with ⟨pc, hf, -⟩ | ⟨hf, -⟩ <;> simp [(hs.held t').own S (by rw [hf]; rfl)]
  obtain ⟨ho, hcount | hk | hin⟩ := key
  · exact (lt_or_ge 0 (m.sync S).count).imp_right fun hle => moves_lowered hm ho hcount hle
  · exact .inr (.inl (skipped_cons.mpr (.inr hk)))
  · rcases hin.step hm with hin | ⟨u, st, pc, pc', -, hz, hl, hout⟩
    · exact .inr (.inr hin)
    · exact absurd (waitSyncUpdate_sends hl hz hout ▸ List.mem_cons_self) hnot

/-- A thread behind its wait was there before, or has just passed the test. -/
theorem moves_over {th₀ : Thread} {m₀ : Mem} {S : Sid} (hm : Moves max t a th₀ m₀ th m e)
    (hf : (∃ rc, th.frame = .back S rc) ∨ ∃ pc, th.frame = .release S pc) :
    ((∃ rc, th₀.frame = .back S rc) ∨ ∃ pc, th₀.frame = .release S pc) ∨
      ∃ pc, th₀.frame = .wait S pc ∧ pc.done = true := by
  cases hm with
  | init | callWait | spurious => rcases hf with ⟨rc, hf⟩ | ⟨pc, hf⟩ <;> cases hf
  | callUpdate | callWakeup | update | wakeup => exact .inl hf
  | @callRelease _ X rc =>
    obtain ⟨rc, hf⟩ | ⟨pc, hf⟩ := hf <;> cases hf
    exact .inl (.inl ⟨rc, rfl⟩)
  | @release _ _ f X pc _ h =>
    cases pc <;> simp only [waitSyncRelease, Prod.mk.injEq] at h <;> obtain ⟨rfl, -⟩ := h <;>
      obtain ⟨rc, hf⟩ | ⟨pc, hf⟩ := hf <;> cases hf <;> exact .inl (.inr ⟨_, rfl⟩)
  | @wait _ _ f X pc _ h =>
    right
    obtain rfl : S = X := by
      have hsync := ompiSyncWaitMt_sync h
      obtain ⟨rc, rfl⟩ | ⟨pc', rfl⟩ := hf <;> exact Option.some.inj hsync
    refine ⟨pc, rfl, ?_⟩
    cases pc <;> first | rfl | skip
    all_goals
      simp only [ompiSyncWaitMt, Option.ite_none_right_eq_some, Option.some.injEq,
        Option.map_eq_some_iff, Prod.mk.injEq] at h
      obtain ⟨rc, rfl⟩ | ⟨pc', rfl⟩ := hf <;> simp at h

/-- **One step keeps what is owed.** -/
theorem Owed.step (hs : Locked s) (k : Tally h s) (d : Done s)
    (r : Roused (e :: h) (s.move t th m)) (i : Owed h s)
    (hm : Moves max t a (s.loc t) s.mem th m e) : Owed (e :: h) (s.move t th m) where
  flag _ := i.step_flag hm
  waiter _ _ := i.step_waiter hs r hm
  behind t' S hf := by
    suffices (s.mem.sync S).count ≤ 0 ∧ (s.mem.sync S).owner ≠ none from
      (moves_settles (k.updating t) hm).count S this.2 this.1
    have own : ∀ th₀ : Thread, (∃ rc, th₀.frame = .back S rc) ∨
        (∃ pc, th₀.frame = .release S pc) → th₀.frame.sync = some S := by
      rintro th₀ (⟨rc, hf⟩ | ⟨pc, hf⟩) <;> rw [hf] <;> rfl
    by_cases ht : t' = t
    · subst ht
      rw [State.move_loc_self] at hf
      rcases moves_over hm hf with hf | ⟨pc, hf, hd⟩
      · exact ⟨i.behind t' S hf, by simp [(hs.held t').own S (own _ hf)]⟩
      · exact ⟨d t' S pc hf hd, by simp [(hs.held t').own S (by rw [hf]; rfl)]⟩
    · rw [State.move_loc_of_ne _ _ _ _ ht] at hf
      exact ⟨i.behind t' S hf, by simp [(hs.held t').own S (own _ hf)]⟩

theorem start_owed : Owed [] start where
  flag _ ho := absurd rfl ho
  waiter _ _ hu := by rcases hu with ⟨_, hf, -⟩ | ⟨hf, -⟩ <;> cases hf
  behind _ _ hf := by rcases hf with ⟨_, hf⟩ | ⟨_, hf⟩ <;> cases hf

end Step

/-! ## At rest -/

/-- **The module at rest.**  No call is in flight and no lock is held.  A waiter polls with its
count up, or sleeps with its count up; a release waits for its flag.  The others are outside.
Whoever is kept from going on with the count down has a sync whose count skipped zero.  And the
head of the list polls. -/
structure Rested (h : List Event) (s : St) : Prop where
  call : ∀ t, (s.loc t).call = .idle
  listLock : s.mem.waitSyncLock = none
  lock : ∀ S, (s.mem.sync S).lock = none
  wait : ∀ t S pc, (s.loc t).frame = .wait S pc →
    pc = .l103 ∧ 0 < (s.mem.sync S).count ∨
    pc = .l83w ∧ t ∈ (s.mem.sync S).condition ∧ (0 < (s.mem.sync S).count ∨ Skipped S h)
  release : ∀ t S pc, (s.loc t).frame = .release S pc →
    pc = .l34 ∧ (s.mem.sync S).signaling = true ∧ Skipped S h
  head : ∀ S, s.mem.waitSyncList = some S → ∃ t, (s.loc t).frame = .wait S .l103

section Run

variable {max : ℤ} {s : St} {π : List (Transition Tid Thread Mem Act Event)}

theorem start_done : Done start := fun _ _ _ hf => by cases hf

/-- **What every run keeps**: all the invariants that the rest takes. -/
structure Sane (h : List Event) (s : St) : Prop where
  locked : Locked s
  ordered : Ordered h s
  tally : Tally h s
  roused : Roused h s
  done : Done s
  owed : Owed h s
  ahead : Ahead s

theorem start_sane : Sane [] start :=
  ⟨start_locked, start_ordered, start_tally, start_roused, start_done, start_owed, start_ahead⟩

/-- **One step keeps them.** -/
theorem Sane.step {h : List Event} {t : Tid} {a : Act} {th : Thread} {m : Mem} {e : Event}
    (i : Sane h s) (hE : NonNeg s t a) (hm : Moves max t a (s.loc t) s.mem th m e) :
    Sane (e :: h) (s.move t th m) :=
  have r := i.roused.step i.locked i.tally hm
  ⟨i.locked.step hm, i.ordered.step i.locked hm, i.tally.step i.locked hE hm, r,
    i.done.step i.locked i.tally hm, i.owed.step i.locked i.tally i.done r hm,
    i.ahead.step i.locked hm⟩

/-- **A run keeps them.** -/
theorem sane_of_path (hp : (waitSync max).Path start π s) (hE : Allowed NonNeg π) :
    Sane (events π) s :=
  hp.invariant Sane NonNeg (fun _ _ _ _ _ _ _ hi he hx => hi.step he (moves_of_exec hx)) hE
    start_sane

/-- Whoever holds a mutex is at work. -/
theorem Held.works {t : Tid} {k : Mutex} (hh : Held t (s.loc t) s.mem)
    (hk : s.mem.holder k = some t) : Works s t .run := by
  refine ⟨rfl, fun hpoll => ?_⟩
  generalize s.loc t = th at hh hpoll
  obtain ⟨f, c⟩ := th
  obtain ⟨rfl, ⟨S, rfl, -⟩ | ⟨S, rfl, -⟩⟩ := hpoll <;> cases k with
  | waitSyncLock => cases hh.list.mp hk
  | lock X => simpa [Thread.holds, Frame.holds, Call.holds, WaitPc.locked, WaitPc.passing] using
      (hh.lock X).mp hk

/-- No worker has a next line. -/
def Stuck (max : ℤ) (s : St) : Prop := ∀ t, Works s t .run → runLine max t s.mem (s.loc t) = none

/-- **Work falls**, whoever does it. -/
theorem Sane.falls {A : Finset Tid} {h : List Event} {t : Tid} {th : Thread} {m : Mem} {e : Event}
    (i : Sane h s) (ht : t ∈ A) (hw : Works s t .run)
    (hx : exec max t .run (s.loc t) s.mem = some (th, m, e)) :
    Sane (e :: h) (s.move t th m) ∧ work A (e :: h) (s.move t th m) < work A h s :=
  have hm := moves_of_exec hx
  ⟨i.step hw.nonNeg hm, work_falls ht i.locked
    (moves_falls (i.ordered.view t) (fun st X => i.ahead t st X) hw.2 hm)⟩

/-- **The work that is left runs out.** -/
theorem runs_out (hp : (waitSync max).Path start π s) (hE : Allowed NonNeg π) :
    (∃ N, ∀ ρ s', (waitSync max).Path s ρ s' → Allowed Works ρ → ρ.length ≤ N) ∧
      ∃ ρ s', (waitSync max).Path s ρ s' ∧ Allowed Works ρ ∧ Stuck max s' :=
  hp.runs_out (w := work) (sane_of_path hp hE) (fun _ _ _ h => h.1) (fun _ _ => rfl)
    fun _ _ _ _ _ _ _ ht i hw hx => i.falls ht hw hx

variable (hp : (waitSync max).Path start π s)

include hp

/-- **Where no worker can go on, no mutex is held**: the waits would lead to a holder that can. -/
theorem Stuck.free (hstuck : Stuck max s) (k : Mutex) : s.mem.holder k = none := by
  have hs := locked_of_path hp
  by_contra hk
  obtain ⟨t, hk⟩ := Option.ne_none_iff_exists'.mp hk
  obtain ⟨hr, hawake⟩ := (hs.held t).running hk
  rcases (runLine_eq_none hp hr).mp (hstuck t ((hs.held t).works hk)) with
    ⟨S, hc, ha⟩ | ⟨k', hw, hheld⟩
  · exact hawake S hc ha
  · obtain ⟨t', ht'⟩ := Option.ne_none_iff_exists'.mp hheld
    obtain ⟨u, htu, hrun⟩ := blocked_progress hp ⟨k', hw, ht'⟩
    obtain ⟨-, -, k'', -, hu⟩ := Relation.TransGen.tail'_iff.mp htu
    exact hrun (hstuck u ((hs.held u).works hu))

/-- …and whoever is inside polls or sleeps. -/
theorem Stuck.polls_or_asleep (hstuck : Stuck max s) {t : Tid} (hr : (s.loc t).running) :
    (s.loc t).call = .idle ∧
      ((s.loc t).polls s.mem ∨ ∃ S, Asleep t S (s.loc t).frame s.mem) := by
  by_cases hpoll : (s.loc t).polls s.mem
  · exact ⟨hpoll.1, .inl hpoll⟩
  · rcases (runLine_eq_none hp hr).mp (hstuck t ⟨rfl, hpoll⟩) with ⟨S, hc, ha⟩ | ⟨k, -, hheld⟩
    · exact ⟨hc, .inr ⟨S, ha⟩⟩
    · exact absurd (hstuck.free hp k) hheld

/-- **Where no worker can go on, the module is at rest.** -/
theorem Stuck.rested (hE : Allowed NonNeg π) (hstuck : Stuck max s) : Rested (events π) s := by
  obtain ⟨hs, o, -, roused, -, owed, -⟩ := sane_of_path hp hE
  have hcall : ∀ t, (s.loc t).call = .idle := fun t => by
    by_contra hc
    exact hc (hstuck.polls_or_asleep hp (.inl hc)).1
  have nobody : ∀ {q : UpdatePc → Bool} {S : Sid}, ¬ Inside q S s := by
    rintro q S ⟨t, u, st, pc, hc, -⟩
    rw [hcall t] at hc
    cases hc
  have hwait : ∀ t S pc, (s.loc t).frame = .wait S pc → pc = .l103 ∧ 0 < (s.mem.sync S).count ∨
      pc = .l83w ∧ t ∈ (s.mem.sync S).condition ∧
        (0 < (s.mem.sync S).count ∨ Skipped S (events π)) := by
    intro t S pc hf
    rcases (hstuck.polls_or_asleep hp (.inr (.inl ⟨S, pc, hf⟩))).2 with
      ⟨-, ⟨X, hX, hc⟩ | ⟨X, hX, -⟩⟩ | ⟨X, ha⟩
    · cases hf.symm.trans hX
      exact .inl ⟨rfl, hc⟩
    · cases hf.symm.trans hX
    · cases hf.symm.trans ha.1
      exact .inr ⟨rfl, ha.2, (owed.waiter t S (.inr ha)).imp_right fun h =>
        h.resolve_right nobody⟩
  refine ⟨hcall, hstuck.free hp .waitSyncLock, fun S => hstuck.free hp (.lock S), hwait,
    fun t S pc hf => ?_, fun S hS => ?_⟩
  · rcases (hstuck.polls_or_asleep hp (.inr (.inr ⟨S, pc, hf⟩))).2 with
      ⟨-, ⟨X, hX, -⟩ | ⟨X, hX, hflag⟩⟩ | ⟨X, ha⟩
    · cases hf.symm.trans hX
    · cases hf.symm.trans hX
      have ho := (hs.held t).own S (by rw [hf]; rfl)
      have hover := owed.behind t S (.inr ⟨_, hf⟩)
      have howed := (owed.flag S (by simp [ho]) hflag).resolve_left hover.not_gt
      exact ⟨rfl, hflag, howed.resolve_right nobody⟩
    · cases hf.symm.trans ha.1
  · -- the head is registered, and a head asleep would be about to be signalled
    have hmem : S ∈ pending (events π) :=
      List.mem_of_head? ((o.free (hstuck.free hp .waitSyncLock)).head.symm.trans hS)
    obtain ⟨t, hreg⟩ := (o.mem S).mp hmem
    obtain ⟨pc, hf, -⟩ := Frame.registered_eq_some.mp hreg
    rcases hwait t S pc hf with ⟨rfl, -⟩ | ⟨rfl, hin, -⟩
    · exact ⟨t, hf⟩
    · obtain ⟨t', X, pc', hf', hp'⟩ := roused.dozing t S (.inr (.inr ⟨hf, hin⟩)) hS
      rcases hwait t' X pc' hf' with ⟨rfl, -⟩ | ⟨rfl, -⟩ <;> cases hp'

/-- **The module comes to rest.**  From any point of any run without negative updates the work that
is left is bounded, in whatever order the threads do it; and where it is done every call is back,
every lock is free, every thread still inside is there because its count is up — or has skipped
zero — and the head of the list polls.  Work is lines: no polls of a count that is up, no spurious
wake-ups and no new calls in between. -/
theorem comes_to_rest (hE : Allowed NonNeg π) :
    ∃ N, ∀ ρ s', (waitSync max).Path s ρ s' → Allowed Works ρ →
      ρ.length ≤ N ∧ (Stuck max s' → Rested (events (ρ ++ π)) s') := by
  obtain ⟨⟨N, hN⟩, -⟩ := runs_out hp hE
  refine ⟨N, fun ρ s' hρ hw => ⟨hN ρ s' hρ hw, fun hstuck => ?_⟩⟩
  exact hstuck.rested (hp.append hρ) (allowed_append.mpr ⟨hw.mono fun _ _ _ => Works.nonNeg, hE⟩)

end Run

/-- Thread 1 sleeps behind thread 0, which has not reached its poll yet. -/
theorem comes_to_rest_behind :
    ∃ s π, (waitSync 1).Path start π s ∧ Asleep 1 1 (s.loc 1).frame s.mem ∧
      (s.loc 0).frame = .wait 0 .l101 ∧ ∃ N, ∀ ρ s', (waitSync 1).Path s ρ s' → Allowed Works ρ →
        ρ.length ≤ N ∧ (Stuck 1 s' → Rested (events (ρ ++ π)) s') := by
  obtain ⟨s, π, hp, hE, ha, hf⟩ := exists_path_of_run (p := waitSync 1) (s := start) sleepBehind
    (P := fun s π => Allowed NonNeg π ∧ Asleep 1 1 (s.loc 1).frame s.mem ∧
      (s.loc 0).frame = .wait 0 .l101) (by decide)
  exact ⟨s, π, hp, ha, hf, comes_to_rest hp hE⟩

/-! ## A complete wait gets back -/

section Complete

variable {max : ℤ} {h : List Event} {s : St} {t : Tid} {a : Act} {th : Thread} {m : Mem} {e : Event}
  {S : Sid}

/-- Below zero there is nothing left to skip. -/
theorem moves_skipped (hm : Moves max t a (s.loc t) s.mem th m e) (ho : (s.mem.sync S).owner ≠ none)
    (hdown : (s.mem.sync S).count ≤ 0) (hk : Skipped S (e :: h)) : Skipped S h := by
  refine (skipped_cons.mp hk).resolve_left fun he => ?_
  rcases moves_update_or_quiet hm with ⟨X, u, st, pc, pc', -, hl, -⟩ |
      ⟨X, c, -, -, hX, -, rfl⟩ | hquiet
  · cases pc <;> simp only [waitSyncUpdate, Option.ite_none_right_eq_some, Option.some.injEq,
      Prod.mk.injEq] at hl
    case l111 =>
      obtain ⟨-, -, rfl⟩ := hl
      obtain ⟨rfl, -, hup⟩ := he
      omega
    case l52 =>
      obtain ⟨-, -, -, rfl⟩ := hl
      exact he
    all_goals
      obtain ⟨-, -, rfl⟩ := hl
      exact he
  · obtain ⟨rfl, -⟩ := he
    exact ho hX
  · have := hquiet.event
    cases e <;> first | exact he | cases this

/-- In the wait on `S`, or back from it. -/
def Frame.waitOrBack (S : Sid) (f : Frame) : Prop := (∃ pc, f = .wait S pc) ∨ ∃ rc, f = .back S rc

/-- The lines of a thread lead from its wait to its return, and no further. -/
theorem moves_waitOrBack {th₀ : Thread} {m₀ : Mem} (hm : Moves max t .run th₀ m₀ th m e)
    (hf : th₀.frame.waitOrBack S) : th.frame.waitOrBack S := by
  cases hm with
  | update | wakeup => exact hf
  | @wait _ _ f X pc _ h =>
    obtain ⟨pc', hf⟩ | ⟨rc, hf⟩ := hf <;> cases hf
    exact (ompiSyncWaitMt_stays h).1
  | release h => obtain ⟨pc', hf⟩ | ⟨rc, hf⟩ := hf <;> cases hf

end Complete

/-- **A complete wait gets back.**  Let no update so far have been negative, and the count of `S` be
down without having skipped zero.  In whatever order the threads do their work, and nothing but
their work, once it is done whoever was waiting on `S` is back; and there is such a schedule.
(A negative update still on its way would bring the count up again.) -/
theorem complete_returns {max : ℤ} {s : St} {π : List (Transition Tid Thread Mem Act Event)}
    {t : Tid} {S : Sid} {pc : WaitPc} (hp : (waitSync max).Path start π s) (hE : Allowed NonNeg π)
    (hf : (s.loc t).frame = .wait S pc) (hcount : (s.mem.sync S).count ≤ 0)
    (hskip : ¬ Skipped S (events π)) :
    (∃ ρ s', (waitSync max).Path s ρ s' ∧ Allowed Works ρ ∧ Stuck max s') ∧
    ∀ ρ s', (waitSync max).Path s ρ s' → Allowed Works ρ → Stuck max s' →
      ∃ rc, (s'.loc t).frame = .back S rc := by
  refine ⟨(runs_out hp hE).2, fun ρ s' hρ hw hstuck => ?_⟩
  have hs := sane_of_path hp hE
  have ho := (hs.locked.held t).own S (by rw [hf]; rfl)
  have hrest := hstuck.rested (hp.append hρ)
    (allowed_append.mpr ⟨hw.mono fun _ _ _ => Works.nonNeg, hE⟩)
  obtain ⟨-, -, hdown, hskip', hback⟩ := hρ.invariant_from
    (fun h s => Sane h s ∧ (s.mem.sync S).owner ≠ none ∧ (s.mem.sync S).count ≤ 0 ∧
      ¬ Skipped S h ∧ (s.loc t).frame.waitOrBack S) Works
    (fun h s t' a th m e hi hw' hx => by
      obtain ⟨i, ho, hdown, hskip, hf⟩ := hi
      have hm := moves_of_exec hx
      have hg := moves_guarantee i.locked.owner_of_lock (i.locked.held t') hm
      refine ⟨i.step hw'.nonNeg hm, by rw [State.move_mem, hg.owner S ho]; exact ho,
        (moves_settles (i.tally.updating t') hm).count S ho hdown,
        fun hk => hskip (moves_skipped hm ho hdown hk), ?_⟩
      by_cases ht : t = t'
      · subst ht
        rw [State.move_loc_self]
        exact moves_waitOrBack (hw'.1 ▸ hm) hf
      · rwa [State.move_loc_of_ne _ _ _ _ ht]) hw
    ⟨hs, by simp [ho], hcount, hskip, .inl ⟨pc, hf⟩⟩
  refine hback.resolve_left ?_
  rintro ⟨pc', hf'⟩
  rw [events_append] at hrest
  rcases hrest.wait t S pc' hf' with ⟨-, hup⟩ | ⟨-, -, hup | hk⟩
  · exact absurd hdown (not_le.mpr hup)
  · exact absurd hdown (not_le.mpr hup)
  · exact hskip' hk

/-- The update that completes sync 0 is about to signal it, while thread 1 sleeps behind thread
0. -/
theorem complete_returns_behind :
    ∃ s π, (waitSync 1).Path start π s ∧ (s.loc 0).frame = .wait 0 .l101 ∧
      ((∃ ρ s', (waitSync 1).Path s ρ s' ∧ Allowed Works ρ ∧ Stuck 1 s') ∧
        ∀ ρ s', (waitSync 1).Path s ρ s' → Allowed Works ρ → Stuck 1 s' →
          ∃ rc, (s'.loc 0).frame = .back 0 rc) := by
  obtain ⟨s, π, hp, hE, hf, hc, hk⟩ := exists_path_of_run (p := waitSync 1) (s := start)
    (sleepBehind ++ [(2, Act.update 0 1 0), (2, Act.run), (2, Act.run)])
    (P := fun s π => Allowed NonNeg π ∧ (s.loc 0).frame = .wait 0 .l101 ∧
      (s.mem.sync 0).count ≤ 0 ∧ ¬ Skipped 0 (events π)) (by decide)
  exact ⟨s, π, hp, hf, complete_returns hp hE hf hc hk⟩

end Libult.WaitSync
