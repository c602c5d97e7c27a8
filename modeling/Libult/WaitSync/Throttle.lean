import Libult.Interleaving.Census
import Libult.WaitSync.Pending

/-!
# WaitSync/Throttle — how many threads make progress

`num_thread_in_progress` counts the threads between lines 100 and 105.  A waiter is admitted if its
sync is the head of the list, or if at line 82 it finds the counter below the limit; it adds itself
at line 100.  Between the two lines others read the old counter, so more may be admitted than the
limit allows.

    82 ─ head ──────▸ 98 ─▸ 100 ─▸ 101 ◂─▸ 103
       ╰ counter ──▸ ╯        +1    ╰─▸ 105 ─ −1 ─▸ 109
-/

namespace Libult.WaitSync

open Interleaving Program Links

/-- The lines between the admission and the end of the progress loop. -/
def WaitPc.admitted : WaitPc → Bool
  | .l98 | .l100 | .l101 | .l103 | .l105 => true
  | _ => false

/-- …of which the counter has. -/
def WaitPc.counted : WaitPc → Bool
  | .l101 | .l103 | .l105 => true
  | _ => false

/-- The sync of a thread that has been admitted. -/
def Frame.admitted : Frame → Option Sid
  | .wait S pc => if pc.admitted then some S else none
  | _ => none

/-- The thread is between lines 100 and 105. -/
def Thread.counted (th : Thread) : Prop := ∃ S pc, th.frame = .wait S pc ∧ pc.counted = true

theorem Thread.counted_iff {th : Thread} : th.counted ↔
    (match th.frame with | .wait _ pc => pc.counted | _ => false) = true := by
  unfold Thread.counted
  cases th.frame <;> simp

instance (th : Thread) : Decidable th.counted := decidable_of_iff _ Thread.counted_iff.symm

/-- The thread has been admitted, and its sync is not the head of the list. -/
def Thread.behind (head : Option Sid) (th : Thread) : Prop :=
  ∃ S ∈ th.frame.admitted, some S ≠ head

instance (head : Option Sid) (th : Thread) : Decidable (th.behind head) := by
  unfold Thread.behind
  infer_instance

theorem Frame.sync_of_admitted {f : Frame} {S : Sid} (h : f.admitted = some S) :
    f.sync = some S := by
  cases f with
  | wait S' pc =>
    exact (Option.ite_none_right_eq_some.mp h).2
  | _ => cases h

/-- The sync of a thread that is about to compare the counter with the limit. -/
def Frame.testing : Frame → Option Sid
  | .wait S .l82n => some S
  | _ => none

/-- **The throttle holds.** -/
structure Throttled (max : ℤ) (s : St) : Prop where
  /-- The counter is the number of threads between lines 100 and 105, it is no more than one above
  the limit, and if it is above, the head is among them. -/
  counter : ∃ W, Census Thread.counted s W ∧ s.mem.numThreadInProgress = W.card ∧
    s.mem.numThreadInProgress ≤ max + 1 ∧ (max < s.mem.numThreadInProgress →
      ∃ t ∈ W, ∃ S, (s.loc t).frame.sync = some S ∧ s.mem.waitSyncList = some S)
  /-- A thread at line 82 whose sync is the head goes on to line 98, whatever the counter shows. -/
  head : ∀ t S, s.loc t = ⟨.wait S .l82, .idle⟩ → s.mem.waitSyncList = some S → ∀ n : ℤ,
    (waitSync max).exec t .run (s.loc t) { s.mem with numThreadInProgress := n } =
      some (⟨.wait S .l98, .idle⟩, { s.mem with numThreadInProgress := n }, .tau)

/-- **Admissions are seen**: a waiter that is not the head and finds the counter below the limit
does so only while the counter has everybody else who has been admitted behind the head. -/
def Seen (max : ℤ) (s : St) (t : Tid) (_ : Act) : Prop :=
  ∀ S ∈ (s.loc t).frame.testing, some S ≠ s.mem.waitSyncList → s.mem.numThreadInProgress < max →
    ∀ t', (s.loc t').behind s.mem.waitSyncList → (s.loc t').counted

/-! ## What a step does to the counter and the head -/

/-- **The ways a thread moves**, as far as the throttle goes. -/
inductive Marches (max : ℤ) : Thread → Mem → Thread → Mem → Prop
  | stay {th th' : Thread} {m m' : Mem} : th'.frame.admitted = th.frame.admitted →
      (th'.counted ↔ th.counted) → m'.numThreadInProgress = m.numThreadInProgress →
      m'.waitSyncList = m.waitSyncList → Marches max th m th' m'
  | head {S : Sid} {m : Mem} : m.waitSyncList = some S →
      Marches max ⟨.wait S .l82, .idle⟩ m ⟨.wait S .l98, .idle⟩ m
  | below {S : Sid} {m : Mem} : m.numThreadInProgress < max →
      Marches max ⟨.wait S .l82n, .idle⟩ m ⟨.wait S .l98, .idle⟩ m
  | count {S : Sid} {m : Mem} :
      Marches max ⟨.wait S .l100, .idle⟩ m ⟨.wait S .l101, .idle⟩ (m.addInProgress 1)
  | uncount {S : Sid} {m : Mem} :
      Marches max ⟨.wait S .l105, .idle⟩ m ⟨.wait S .l109, .idle⟩ (m.addInProgress (-1))
  | first {S : Sid} {m : Mem} :
      Marches max ⟨.wait S .l66, .idle⟩ m ⟨.wait S .l73, .idle⟩ (m.setList (some S))
  | pass {S : Sid} {m : Mem} {o : Option Sid} :
      Marches max ⟨.wait S .l114, .idle⟩ m ⟨.wait S .l115, .idle⟩ (m.setList o)

section Moves

variable {max : ℤ} {t : Tid} {a : Act} {th th' : Thread} {m m' : Mem} {e : Event}

/-- A call leaves the counter alone. -/
theorem waitSyncUpdate_progress {S : Sid} {u st : ℤ} {pc : UpdatePc} {pc' : Option UpdatePc}
    (h : waitSyncUpdate t S u st m pc = some (pc', m', e)) :
    m'.numThreadInProgress = m.numThreadInProgress := by
  cases pc <;> simp only [waitSyncUpdate, Option.ite_none_right_eq_some, Option.some.injEq,
    Prod.mk.injEq] at h
  case l52 => obtain ⟨-, -, rfl, -⟩ := h; rfl
  all_goals obtain ⟨-, rfl, -⟩ := h; rfl

theorem globalWakeupMt_progress {st : ℤ} {pc : WakeupPc} {pc' : Option WakeupPc}
    (h : globalWakeupMt t st m pc = some (pc', m', e)) :
    m'.numThreadInProgress = m.numThreadInProgress := by
  cases pc with
  | l24 S upc =>
    obtain ⟨⟨upc', m₁, e₁⟩, hu, hr⟩ := Option.map_eq_some_iff.mp h
    obtain ⟨-, rfl, -⟩ : _ = pc' ∧ _ = m' ∧ _ = e := by simpa using hr
    exact waitSyncUpdate_progress hu
  | l17 =>
    simp only [globalWakeupMt, Option.ite_none_right_eq_some, Option.some.injEq,
      Prod.mk.injEq] at h
    obtain ⟨-, -, rfl, -⟩ := h
    rfl
  | l18 | l18n S | l25 S | l29 =>
    simp only [globalWakeupMt, Option.some.injEq, Prod.mk.injEq] at h
    obtain ⟨-, rfl, -⟩ := h
    rfl

theorem Thread.counted_wait {S : Sid} {pc : WaitPc} {c : Call} :
    (Thread.mk (.wait S pc) c).counted ↔ pc.counted = true := Thread.counted_iff

theorem Thread.counted_congr {c c' : Call} {f : Frame} :
    (Thread.mk f c).counted ↔ (Thread.mk f c').counted := Iff.rfl

/-- A line that admits nobody and lets nobody go. -/
theorem Marches.goto {S : Sid} {pc pc' : WaitPc} (ha : pc'.admitted = pc.admitted)
    (hc : pc'.counted = pc.counted) (hn : m'.numThreadInProgress = m.numThreadInProgress)
    (hl : m'.waitSyncList = m.waitSyncList) :
    Marches max ⟨.wait S pc, .idle⟩ m ⟨.wait S pc', .idle⟩ m' :=
  .stay (by simp [Frame.admitted, ha]) (by simp [Thread.counted_wait, hc]) hn hl

theorem ompiSyncWaitMt_marches {S : Sid} {pc : WaitPc} {f : Frame}
    (h : ompiSyncWaitMt max t S m pc = some (f, m', e)) :
    Marches max ⟨.wait S pc, .idle⟩ m ⟨f, .idle⟩ m' := by
  cases pc <;> simp only [ompiSyncWaitMt, Option.ite_none_right_eq_some, Option.some.injEq,
    Option.map_eq_some_iff, Option.bind_eq_some_iff, Prod.mk.injEq] at h
  case l52 | l63 | l83w | l109 =>
    obtain ⟨-, rfl, rfl, -⟩ := h
    exact .goto rfl rfl rfl rfl
  case l68 | l69 | l71 | l110 | l111 | l37 | l38 =>
    obtain ⟨_, -, rfl, rfl, -⟩ := h
    exact .goto rfl rfl rfl rfl
  case l36 =>
    obtain ⟨_, -, -, rfl, rfl, -⟩ := h
    exact .goto rfl rfl rfl rfl
  case l48 | l59 | l121 =>
    obtain ⟨rfl, rfl, -⟩ := h
    exact .stay rfl (by simp [Thread.counted, WaitPc.counted]) rfl rfl
  case l66 => obtain ⟨rfl, rfl, -⟩ := h; exact .first
  case l114 => obtain ⟨rfl, rfl, -⟩ := h; exact .pass
  case l100 => obtain ⟨rfl, rfl, -⟩ := h; exact .count
  case l105 => obtain ⟨rfl, rfl, -⟩ := h; exact .uncount
  case l82 =>
    obtain ⟨rfl, rfl, -⟩ := h
    split
    · exact .goto rfl rfl rfl rfl
    · exact .head (Eq.symm (not_not.mp ‹_›))
  case l82n =>
    obtain ⟨rfl, rfl, -⟩ := h
    split
    · exact .goto rfl rfl rfl rfl
    · exact .below (not_le.mp ‹_›)
  case l47 | l57 | l64 | l91 | l101 | l113 | l115 =>
    obtain ⟨rfl, rfl, -⟩ := h
    split <;> exact .goto rfl rfl rfl rfl
  all_goals
    obtain ⟨rfl, rfl, -⟩ := h
    exact .goto rfl rfl rfl rfl

theorem marches_of_moves (h : Moves max t a th m th' m' e) : Marches max th m th' m' := by
  cases h with
  | wait h => exact ompiSyncWaitMt_marches h
  | update h =>
    exact .stay rfl Thread.counted_congr (waitSyncUpdate_progress h) (waitSyncUpdate_frame h).2.1
  | wakeup h =>
    exact .stay rfl Thread.counted_congr (globalWakeupMt_progress h) (globalWakeupMt_frame h).1
  | @release _ _ _ S pc _ h =>
    have hm := waitSyncRelease_mem h
    cases pc <;> simp only [waitSyncRelease, Prod.mk.injEq] at h <;> obtain ⟨rfl, rfl, -⟩ := h <;>
      exact .stay rfl (by simp [Thread.counted]) rfl rfl
  | init => exact .stay rfl (by simp [Thread.counted]) rfl rfl
  | callWait => exact .stay rfl (by simp [Thread.counted, WaitPc.counted]) rfl rfl
  | callRelease => exact .stay rfl (by simp [Thread.counted]) rfl rfl
  | callUpdate | callWakeup | spurious => exact .stay rfl Iff.rfl rfl rfl

/-- Line 114 is reached by way of the head. -/
theorem moves_heading {S : Sid} (h : Moves max t a th m th' m' e)
    (hf : th'.frame = .wait S .l114) :
    m'.waitSyncList = m.waitSyncList ∧ (th.frame = .wait S .l114 ∨ m.waitSyncList = some S) := by
  cases h with
  | update h => exact ⟨(waitSyncUpdate_frame h).2.1, .inl hf⟩
  | wakeup h => exact ⟨(globalWakeupMt_frame h).1, .inl hf⟩
  | callUpdate | callWakeup => exact ⟨rfl, .inl hf⟩
  | init | callWait | callRelease | spurious => cases hf
  | @release _ _ _ S pc _ h =>
    cases pc <;> simp only [waitSyncRelease, Prod.mk.injEq] at h <;> obtain ⟨rfl, -⟩ := h <;>
      cases hf
  | @wait _ _ f S' pc _ h =>
    obtain rfl : f = .wait S .l114 := hf
    cases pc <;> simp only [ompiSyncWaitMt, Option.ite_none_right_eq_some, Option.some.injEq,
      Option.map_eq_some_iff, Option.bind_eq_some_iff, Prod.mk.injEq, Frame.wait.injEq,
      reduceCtorEq, and_false, false_and, exists_false] at h
    case l113 =>
      obtain ⟨⟨rfl, hpc⟩, rfl, -⟩ := h
      split at hpc
      · exact ⟨rfl, .inr (Eq.symm ‹_›)⟩
      · cases hpc
    all_goals
      obtain ⟨⟨-, hpc⟩, -⟩ := h
      split at hpc <;> cases hpc

end Moves

/-! ## Runs -/

/-- **Who replaces the head is the head.** -/
def Heading (s : St) : Prop :=
  ∀ t S, (s.loc t).frame = .wait S .l114 → s.mem.waitSyncList = some S

theorem start_heading : Heading start := fun _ _ h => by cases h

/-- The counter is right. -/
def Counting (s : St) : Prop :=
  ∃ W, Census Thread.counted s W ∧ s.mem.numThreadInProgress = W.card

/-- **No more than `max` are admitted behind the head.** -/
def Limited (max : ℤ) (s : St) : Prop :=
  ∃ V, Census (Thread.behind s.mem.waitSyncList) s V ∧ (V.card : ℤ) ≤ max

theorem start_counting : Counting start :=
  ⟨∅, fun t => by simp [start, Thread.counted], rfl⟩

theorem start_limited {max : ℤ} (hmax : 0 ≤ max) : Limited max start :=
  ⟨∅, fun t => by simp [start, Thread.behind, Frame.admitted], by simpa using hmax⟩

section Step

variable {max : ℤ} {s : St} {t : Tid} {a : Act} {l : Thread} {m : Mem} {e : Event} {h : List Event}

theorem Heading.step (k : Heading s) (hs : Locked s) (hm : Moves max t a (s.loc t) s.mem l m e) :
    Heading (s.move t l m) := by
  intro t' S hf
  rcases eq_or_ne t' t with rfl | ht'
  · rw [State.move_loc_self] at hf
    obtain ⟨hl, h₀ | h₀⟩ := moves_heading hm hf
    exacts [hl.trans (k t' S h₀), hl.trans h₀]
  · rw [State.move_loc_of_ne _ _ _ _ ht'] at hf
    -- only the thread with `wait_sync_lock` writes the head
    have hlock : s.mem.waitSyncLock = some t' := hs.listLock_of_frame hf rfl
    have hg := moves_guarantee hs.owner_of_lock (hs.held t) hm
    refine (hg.list fun ht => ht' ?_).trans (k t' S hf)
    exact Option.some.inj (hlock.symm.trans ht)

/-- **One step keeps the counter right.** -/
theorem Counting.step (c : Counting s) (hm : Marches max (s.loc t) s.mem l m) :
    Counting (s.move t l m) := by
  obtain ⟨W, hW, hcard⟩ := c
  have stay : (l.counted ↔ (s.loc t).counted) → m.numThreadInProgress = s.mem.numThreadInProgress →
      Counting (s.move t l m) := fun hc hn => ⟨W, hW.stay hc, hn.trans hcard⟩
  unfold Counting
  have henter := hW.card_enter (t := t)
  have hleave := hW.card_leave (t := t)
  have hin := fun hl => hW.enter (t := t) (m := m) (l := l) hl
  have hout := fun hl => hW.leave (t := t) (m := m) (l := l) hl
  generalize hl₀ : s.loc t = l₀ at hm stay henter hleave
  cases hm with
  | stay _ hc hn => exact stay hc hn
  | head | below | first | pass => exact stay (by simp [Thread.counted_wait, WaitPc.counted]) rfl
  | count =>
    refine ⟨insert t W, hin (by simp [Thread.counted_wait, WaitPc.counted]), ?_⟩
    rw [henter (by simp [Thread.counted_wait, WaitPc.counted])]
    push_cast
    exact congrArg (· + 1) hcard
  | uncount =>
    refine ⟨W.erase t, hout (by simp [Thread.counted_wait, WaitPc.counted]), ?_⟩
    have := hleave (by simp [Thread.counted_wait, WaitPc.counted])
    change s.mem.numThreadInProgress + -1 = _
    omega

/-- **Nobody else gets behind the head**: who is there after a step was there before, unless it has
just been admitted by the counter. -/
theorem behind_of_marches (hs : Locked s) (o : Ordered h s) (k : Heading s)
    (hm : Marches max (s.loc t) s.mem l m) {t' : Tid}
    (h' : ((s.move t l m).loc t').behind m.waitSyncList) :
    (s.loc t').behind s.mem.waitSyncList ∨ t' = t ∧ s.mem.numThreadInProgress < max ∧
      ∃ S ∈ (s.loc t).frame.testing, some S ≠ s.mem.waitSyncList := by
  have hview := (o.view t).frame
  have hown := fun S => (hs.held t).own S
  have hhead := k t
  rcases eq_or_ne t' t with rfl | ht'
  · rw [State.move_loc_self] at h'
    generalize s.loc t' = l₀ at hm ⊢
    cases hm with
    | stay ha _ _ hl => exact .inl (by rwa [Thread.behind, ha, hl] at h')
    | head hS =>
      obtain ⟨S', hS', hne⟩ := h'
      obtain rfl := Option.some.inj hS'
      exact absurd hS.symm hne
    | below hlt =>
      obtain ⟨S', hS', hne⟩ := h'
      obtain rfl := Option.some.inj hS'
      exact .inr ⟨rfl, hlt, _, rfl, hne⟩
    | count => exact .inl h'
    | uncount | first | pass =>
      obtain ⟨S', hS', -⟩ := h'
      cases hS'
  · rw [State.move_loc_of_ne _ _ _ _ ht'] at h'
    obtain ⟨S', hS', hne⟩ := h'
    refine .inl ⟨S', hS', ?_⟩
    generalize s.loc t = l₀ at hm hview hown hhead
    cases hm with
    | stay _ _ _ hl => exact hl ▸ hne
    | head | below | count | uncount => exact hne
    | first =>
      -- the list was empty
      have hw := hview _ _ rfl rfl
      rw [hw.1.head, hw.2.1]
      simp
    | @pass S =>
      -- the head was the sync of the thread that leaves
      rw [hhead S rfl]
      intro heq
      have hS := (hs.held t').own S' (Frame.sync_of_admitted hS')
      rw [Option.some.inj heq, hown S rfl] at hS
      exact ht' (Option.some.inj hS).symm

/-- **Who is behind the head leaves room** for a waiter that finds the counter below the limit, if
the counter has them all. -/
theorem card_behind_lt {S : Sid} {V : Finset Tid} (c : Counting s) (hE : Seen max s t a)
    (hS : (s.loc t).frame.testing = some S) (hne : some S ≠ s.mem.waitSyncList)
    (hlt : s.mem.numThreadInProgress < max)
    (hV : Census (Thread.behind s.mem.waitSyncList) s V) : (V.card : ℤ) < max := by
  obtain ⟨W, hW, hnum⟩ := c
  have hsub : V ⊆ W := fun t' ht' => (hW t').mpr (hE S hS hne hlt t' ((hV t').mp ht'))
  have := Finset.card_le_card hsub
  omega

/-- **One step keeps the limit**, if the admissions are seen. -/
theorem Limited.step (v : Limited max s) (hs : Locked s) (o : Ordered h s) (k : Heading s)
    (c : Counting s) (hE : Seen max s t a) (hm : Marches max (s.loc t) s.mem l m) :
    Limited max (s.move t l m) := by
  obtain ⟨V, hV, hcard⟩ := v
  have hfrom : ∀ t', ((s.move t l m).loc t').behind m.waitSyncList →
      (s.loc t').behind s.mem.waitSyncList ∨ t' = t ∧ s.mem.numThreadInProgress < max ∧
        ∃ S ∈ (s.loc t).frame.testing, some S ≠ s.mem.waitSyncList :=
    fun _ h' => behind_of_marches hs o k hm h'
  by_cases hnew : ∀ t', ((s.move t l m).loc t').behind m.waitSyncList →
      (s.loc t').behind s.mem.waitSyncList
  · obtain ⟨V', hsub, hV'⟩ := exists_census fun t' ht' => (hV t').mpr (hnew t' ht')
    have := Finset.card_le_card hsub
    exact ⟨V', hV', by omega⟩
  · -- the thread that moves has just been admitted by the counter
    obtain ⟨t', hnew⟩ := not_forall.mp hnew
    obtain ⟨h', hnot⟩ := Classical.not_imp.mp hnew
    obtain ⟨-, hlt, S, hS, hne⟩ := (hfrom t' h').resolve_left hnot
    have hroom := card_behind_lt c hE hS hne hlt hV
    have hcover : ∀ t', ((s.move t l m).loc t').behind m.waitSyncList → t' ∈ insert t V :=
      fun t' ht' => Finset.mem_insert.mpr <|
        (hfrom t' ht').symm.imp (fun h => h.1) fun h => (hV t').mpr h
    obtain ⟨V', hsub, hV'⟩ := exists_census hcover
    have := Finset.card_le_card hsub
    have := Finset.card_insert_le t V
    exact ⟨V', hV', by omega⟩

/-- Then the throttle holds. -/
theorem throttled_of_limited (hs : Locked s) (c : Counting s) (v : Limited max s) :
    Throttled max s := by
  refine ⟨?_, fun t S hl hhead n => by simp [hl, hhead, waitSync, exec, runLine, ompiSyncWaitMt]⟩
  obtain ⟨W, hW, hnum⟩ := c
  obtain ⟨V, hV, hcard⟩ := v
  -- whoever is counted is behind the head or is its owner
  have hside : ∀ t ∈ W, t ∈ V ∨
      ∃ S, (s.loc t).frame.sync = some S ∧ s.mem.waitSyncList = some S := by
    intro t ht
    obtain ⟨S, pc, hf, hpc⟩ := (hW t).mp ht
    have hadm : (s.loc t).frame.admitted = some S := by
      rw [hf]
      cases pc <;> first | rfl | cases hpc
    by_cases hS : s.mem.waitSyncList = some S
    · exact .inr ⟨S, Frame.sync_of_admitted hadm, hS⟩
    · exact .inl ((hV t).mpr ⟨S, hadm, fun h => hS h.symm⟩)
  by_cases hhead : ∃ t ∈ W, ∃ S, (s.loc t).frame.sync = some S ∧ s.mem.waitSyncList = some S
  · obtain ⟨t₀, ht₀, S₀, hf₀, hl₀⟩ := hhead
    have hsub : W ⊆ insert t₀ V := fun t ht => by
      rcases hside t ht with hV | ⟨S, hf, hl⟩
      · exact Finset.mem_insert_of_mem hV
      · -- the head has one owner
        obtain rfl := Option.some.inj (hl₀.symm.trans hl)
        have h₀ := (hs.held t₀).own S₀ hf₀
        rw [(hs.held t).own S₀ hf] at h₀
        exact Option.some.inj h₀ ▸ Finset.mem_insert_self t V
    have := Finset.card_le_card hsub
    have := Finset.card_insert_le t₀ V
    exact ⟨W, hW, hnum, by omega, fun _ => ⟨t₀, ht₀, S₀, hf₀, hl₀⟩⟩
  · have hsub : W ⊆ V := fun t ht => (hside t ht).resolve_right fun h => hhead ⟨t, ht, h⟩
    have := Finset.card_le_card hsub
    exact ⟨W, hW, hnum, by omega, fun _ => by omega⟩

end Step

/-- **The throttle holds** in every run in which the admissions are seen. -/
theorem throttled_of_seen {max : ℤ} (hmax : 0 ≤ max) {s : St}
    {π : List (Transition Tid Thread Mem Act Event)} (hp : (waitSync max).Path start π s)
    (hE : Allowed (Seen max) π) : Throttled max s := by
  obtain ⟨hs, -, -, c, v⟩ := hp.invariant
    (fun h s => Locked s ∧ Ordered h s ∧ Heading s ∧ Counting s ∧ Limited max s) (Seen max)
    (fun h s t a l m e ⟨hs, o, k, c, v⟩ hE hx => by
      have hm := moves_of_exec hx
      have hmarch := marches_of_moves hm
      exact ⟨hs.step hm, o.step hs hm, k.step hs hm, c.step hmarch, v.step hs o k c hE hmarch⟩) hE
    ⟨start_locked, start_ordered, start_heading, start_counting, start_limited hmax⟩
  exact throttled_of_limited hs c v

/-- The admissions are seen, checked on the threads below `n`. -/
def SeenBelow (n : ℕ) (s : St) (t : Tid) (_ : Act) : Prop :=
  (s.loc t).frame.testing ≠ none → ∀ t' < n, (s.loc t').behind s.mem.waitSyncList →
    (s.loc t').counted

instance {n : ℕ} {s : St} {t : Tid} {a : Act} : Decidable (SeenBelow n s t a) := by
  unfold SeenBelow
  infer_instance

theorem seen_of_below {max : ℤ} {n : ℕ} {s : St} {t : Tid} {a : Act}
    (hs : ∀ t', ¬ t' < n → s.loc t' = ⟨.out, .idle⟩) (h : SeenBelow n s t a) : Seen max s t a := by
  intro S hS _ _ t' hbehind
  have htest : (s.loc t).frame.testing ≠ none := fun hnone => by cases hnone.symm.trans hS
  refine h htest t' (not_not.mp fun hn => ?_) hbehind
  obtain ⟨S', hS', -⟩ := hbehind
  rw [hs t' hn] at hS'
  cases hS'

/-- Three threads register; thread 1 is admitted and counts itself before thread 2 tests the
counter, and thread 0 is the head. -/
def admitInTurn : List (Tid × Act) :=
  [(0, Act.init 0 1), (0, Act.wait)] ++ List.replicate 9 (0, Act.run) ++
  [(1, Act.init 1 1), (1, Act.wait)] ++ List.replicate 14 (1, Act.run) ++
  [(2, Act.init 2 1), (2, Act.wait)] ++ List.replicate 14 (2, Act.run) ++
  List.replicate 3 (0, Act.run)

theorem throttled_of_seen_in_turn :
    ∃ s π, (waitSync 2).Path start π s ∧ s.mem.numThreadInProgress = 3 ∧ Throttled 2 s := by
  obtain ⟨s, π, hp, hA, hE, hn⟩ := exists_path_of_run (p := waitSync 2) (s := start) admitInTurn
    (P := fun s π => (∀ x ∈ π, x.tid < 3) ∧ Allowed (SeenBelow 3) π ∧
      s.mem.numThreadInProgress = 3) (by decide +kernel)
  exact ⟨s, π, hp, hn, throttled_of_seen (by decide) hp
    (hp.allowed_of_acting (A := (· < 3)) hA (fun _ _ _ hs h => seen_of_below hs h) hE)⟩

/-- Two waiters behind the head find the counter at zero before either has added itself. -/
def admitThree : List (Tid × Act) :=
  [(0, Act.init 0 1), (0, Act.wait)] ++ List.replicate 9 (0, Act.run) ++
  [(1, Act.init 1 1), (1, Act.wait)] ++ List.replicate 12 (1, Act.run) ++
  [(2, Act.init 2 1), (2, Act.wait)] ++ List.replicate 12 (2, Act.run) ++
  List.replicate 3 (0, Act.run) ++ List.replicate 2 (1, Act.run) ++ List.replicate 2 (2, Act.run)

/-- **Two admissions may overlap**, and with a limit of one three threads make progress. -/
theorem not_throttled :
    ¬ ∀ (max : ℤ) (s : St) (π : List (Transition Tid Thread Mem Act Event)), 0 ≤ max →
      (waitSync max).Path start π s → Throttled max s := by
  intro hall
  obtain ⟨s, π, hp, hn⟩ := exists_path_of_run (p := waitSync 1) (s := start) admitThree
    (P := fun s _ => s.mem.numThreadInProgress = 3) (by decide +kernel)
  obtain ⟨_, _, -, hle, -⟩ := (hall 1 s π (by decide) hp).counter
  exact absurd (hn ▸ hle) (by decide)

end Libult.WaitSync
