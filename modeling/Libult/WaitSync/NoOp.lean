import Libult.WaitSync.Visits

/-!
# WaitSync/NoOp — the global wakeup with `SUCCESS`, and the count it must not find

With `SUCCESS` each visit is a decrement by zero.  The update signals when the decrement produces
zero, and a decrement by zero does so exactly when it finds zero: a listed sync that another update
has completed, whose owner has not yet taken it off the list.  Then the wakeup goes through
`WAIT_SYNC_SIGNAL` as if it had completed the sync itself; otherwise no line of it does anything.

    110 ─▸ 111 ─┬─ count ≠ 0 ─▸ return
                └─ count = 0 ─▸ 52 ─▸ 53 signal ─▸ 54 ─▸ 55 signaling = false
-/

namespace Libult.WaitSync

open Interleaving Program

/-- **A line without effect**: it signals no condition and leaves every count, status and flag. -/
def NoOp (max : ℤ) (x : Transition Tid Thread Mem Act Event) : Prop :=
  (∀ S, x.ev ≠ .sigSignal S) ∧ ∀ s' e, (waitSync max).step x.pre x.tid x.act = some (s', e) →
    ∀ S, (s'.mem.sync S).count = (x.pre.mem.sync S).count ∧
      (s'.mem.sync S).status = (x.pre.mem.sync S).status ∧
      (s'.mem.sync S).signaling = (x.pre.mem.sync S).signaling

/-- Inside the global wakeup with status `st`. -/
def Call.waking (st : ℤ) : Call → Bool
  | .wakeup st' _ => decide (st' = st)
  | _ => false

/-- The sync whose count the global wakeup is about to decrement. -/
def Call.decrementing : Call → Option Sid
  | .wakeup _ (.l24 S .l111) => some S
  | _ => none

/-- **No decrement of the wakeup finds a count at zero.** -/
def FindsNoZero (t : Tid) (ρ : List (Transition Tid Thread Mem Act Event)) : Prop :=
  ∀ x ∈ ρ, x.tid = t → ∀ S ∈ (x.pre.loc t).call.decrementing, (x.pre.mem.sync S).count ≠ 0

instance (t : Tid) (ρ : List (Transition Tid Thread Mem Act Event)) : Decidable (FindsNoZero t ρ) :=
  inferInstanceAs (Decidable (∀ x ∈ ρ, x.tid = t → ∀ S ∈ (x.pre.loc t).call.decrementing,
    (x.pre.mem.sync S).count ≠ 0))

theorem Call.waking_iff {st : ℤ} {c : Call} : c.waking st = true ↔ ∃ pc, c = .wakeup st pc := by
  cases c <;> simp [waking]

/-- Where a wakeup with `SUCCESS` is as long as no decrement has found zero. -/
def WakeupPc.passive : Option WakeupPc → Prop
  | some (.l24 _ pc) => pc = .l110 ∨ pc = .l111
  | _ => True

section Line

variable {max : ℤ} {t : Tid} {m m' : Mem} {pc : WakeupPc} {pc' : Option WakeupPc} {e : Event}

/-- **A line that finds no zero** has no effect. -/
theorem globalWakeupMt_passive (hpc : WakeupPc.passive (some pc))
    (hz : ∀ S, pc = .l24 S .l111 → (m.sync S).count ≠ 0)
    (h : globalWakeupMt t SUCCESS m pc = some (pc', m', e)) :
    WakeupPc.passive pc' ∧ (∀ S, e ≠ .sigSignal S) ∧ ∀ S,
      (m'.sync S).count = (m.sync S).count ∧ (m'.sync S).status = (m.sync S).status ∧
      (m'.sync S).signaling = (m.sync S).signaling := by
  have goto : ∀ o, WakeupPc.passive (some (WakeupPc.next o).1) ∧
      ∀ S, (WakeupPc.next o).2 ≠ .sigSignal S := fun o => by
    cases o <;> simp [WakeupPc.next, WakeupPc.passive]
  cases pc with
  | l17 =>
    simp only [globalWakeupMt, Option.ite_none_right_eq_some, Option.some.injEq,
      Prod.mk.injEq] at h
    obtain ⟨-, rfl, rfl, rfl⟩ := h
    exact ⟨trivial, by simp, fun _ => ⟨rfl, rfl, rfl⟩⟩
  | l18 | l18n S =>
    simp only [globalWakeupMt, Option.some.injEq, Prod.mk.injEq] at h
    obtain ⟨rfl, rfl, rfl⟩ := h
    exact ⟨(goto _).1, (goto _).2, fun _ => ⟨rfl, rfl, rfl⟩⟩
  | l25 S =>
    simp only [globalWakeupMt, Option.some.injEq, Prod.mk.injEq] at h
    obtain ⟨rfl, rfl, rfl⟩ := h
    exact ⟨by split <;> trivial, by simp, fun _ => ⟨rfl, rfl, rfl⟩⟩
  | l29 =>
    simp only [globalWakeupMt, Option.some.injEq, Prod.mk.injEq] at h
    obtain ⟨rfl, rfl, rfl⟩ := h
    exact ⟨trivial, by simp, fun _ => ⟨rfl, rfl, rfl⟩⟩
  | l24 S upc =>
    obtain ⟨⟨upc', m₁, e₁⟩, hu, hr⟩ := Option.map_eq_some_iff.mp h
    simp only [Prod.mk.injEq] at hr
    obtain ⟨rfl, rfl, rfl⟩ := hr
    rcases hpc with rfl | rfl
    · simp only [waitSyncUpdate, if_true, Option.some.injEq, Prod.mk.injEq] at hu
      obtain ⟨rfl, rfl, rfl⟩ := hu
      exact ⟨.inr rfl, by simp, fun _ => ⟨rfl, rfl, rfl⟩⟩
    · have hne := hz S rfl
      simp only [waitSyncUpdate, neg_zero, add_zero, if_pos hne, Option.some.injEq,
        Prod.mk.injEq] at hu
      obtain ⟨rfl, rfl, rfl⟩ := hu
      refine ⟨trivial, by simp, fun X => ?_⟩
      by_cases hX : X = S <;> simp [Mem.setCount, hX]

/-- **One that finds zero** is on its way to signal… -/
theorem globalWakeupMt_zero {S : Sid} (hz : (m.sync S).count = 0)
    (h : globalWakeupMt t SUCCESS m (.l24 S .l111) = some (pc', m', e)) :
    pc' = some (.l24 S .l52) := by
  simp only [globalWakeupMt, waitSyncUpdate, hz, neg_zero, add_zero, ne_eq, not_true_eq_false,
    if_false, Option.map_some, Option.some.injEq, Prod.mk.injEq] at h
  exact h.1.symm

/-- …and signals before it returns. -/
theorem globalWakeupMt_signals {S : Sid} (hpc : pc = .l24 S .l52 ∨ pc = .l24 S .l53)
    (h : globalWakeupMt t SUCCESS m pc = some (pc', m', e)) :
    e = .sigSignal S ∨ pc' = some (.l24 S .l53) := by
  rcases hpc with rfl | rfl
  · simp only [globalWakeupMt, waitSyncUpdate, Option.map_eq_some_iff,
      Option.ite_none_right_eq_some, Option.some.injEq] at h
    obtain ⟨r, ⟨-, rfl⟩, hr⟩ := h
    exact .inr (Prod.mk.inj hr).1.symm
  · simp only [globalWakeupMt, waitSyncUpdate, Option.map_some, Option.some.injEq,
      Prod.mk.injEq] at h
    exact .inl h.2.2.symm

end Line

section Run

variable {max : ℤ} {s s' : St} {t : Tid} {S : Sid}
  {ρ : List (Transition Tid Thread Mem Act Event)}

/-- **A wakeup that finds no zero** has no effect, line by line. -/
theorem noOp_of_findsNoZero (ht : (s.loc t).call = .wakeup SUCCESS .l17)
    (hp : (waitSync max).Path s ρ s') (hin : ∀ x ∈ ρ, (x.pre.loc t).call.waking SUCCESS = true)
    (hz : FindsNoZero t ρ) : (∀ x ∈ ρ, x.tid = t → NoOp max x) ∧
      ∃ pc, (s'.loc t).call = pc.elim .idle (.wakeup SUCCESS) ∧ WakeupPc.passive pc := by
  induction hp with
  | nil => exact ⟨by simp, some .l17, ht, trivial⟩
  | @snoc s₁ _ ρ t' a e hp hstep ih =>
    obtain ⟨hc, hin⟩ := List.forall_mem_cons.mp hin
    obtain ⟨hz₁, hz⟩ := List.forall_mem_cons.mp hz
    obtain ⟨noop, pc, hpc, passive⟩ := ih hin hz
    obtain ⟨th', m', hexec, rfl⟩ := step_eq_some.mp hstep
    by_cases htt : t' = t
    · subst htt
      obtain ⟨pc₁, hpc₁⟩ := Call.waking_iff.mp hc
      obtain rfl : pc = some pc₁ := by
        rw [hpc₁] at hpc
        cases pc with
        | none => cases hpc
        | some pc => cases hpc; rfl
      obtain ⟨-, pc', h, hcall⟩ := moves_wakeup hpc₁ (moves_of_exec hexec)
      obtain ⟨passive', hsig, hsame⟩ := globalWakeupMt_passive passive
        (fun S hS => hz₁ rfl S (by rw [hpc₁, hS]; rfl)) h
      refine ⟨List.forall_mem_cons.mpr ⟨fun _ => ⟨hsig, fun s' e' hs' => ?_⟩, noop⟩, pc',
        by rw [State.move_loc_self]; exact hcall, passive'⟩
      obtain ⟨rfl, rfl⟩ := Prod.mk.inj (Option.some.inj (hstep.symm.trans hs'))
      exact hsame
    · exact ⟨List.forall_mem_cons.mpr ⟨fun h => absurd h htt, noop⟩, pc,
        by rw [State.move_loc_of_ne _ _ _ _ (Ne.symm htt)]; exact hpc, passive⟩

/-- **One that finds a zero** has signalled, or is about to. -/
theorem signals_of_zero (hp : (waitSync max).Path s ρ s')
    (hin : ∀ x ∈ ρ, (x.pre.loc t).call.waking SUCCESS = true)
    (hz : ∃ x ∈ ρ, x.tid = t ∧ (x.pre.loc t).call = .wakeup SUCCESS (.l24 S .l111) ∧
      (x.pre.mem.sync S).count = 0) :
    (∃ x ∈ ρ, x.tid = t ∧ x.ev = .sigSignal S) ∨ ∃ pc, (s'.loc t).call = .wakeup SUCCESS pc ∧
      (pc = .l24 S .l52 ∨ pc = .l24 S .l53) := by
  induction hp with
  | nil => simp at hz
  | @snoc s₁ _ ρ t' a e hp hstep ih =>
    obtain ⟨hc, hin⟩ := List.forall_mem_cons.mp hin
    obtain ⟨th', m', hexec, rfl⟩ := step_eq_some.mp hstep
    have hm := moves_of_exec hexec
    obtain ⟨x, hx, hxt, hxc, hx0⟩ := hz
    rcases List.mem_cons.mp hx with rfl | hx
    · subst hxt
      obtain ⟨-, pc', h, hcall⟩ := moves_wakeup hxc hm
      refine .inr ⟨_, ?_, .inl rfl⟩
      rw [State.move_loc_self, hcall, globalWakeupMt_zero hx0 h]
      rfl
    · rcases ih hin ⟨x, hx, hxt, hxc, hx0⟩ with ⟨y, hy, hyt, hye⟩ | ⟨pc, hpc, h51⟩
      · exact .inl ⟨y, List.mem_cons_of_mem _ hy, hyt, hye⟩
      · by_cases htt : t' = t
        · subst htt
          obtain ⟨-, pc', h, hcall⟩ := moves_wakeup hpc hm
          rcases globalWakeupMt_signals h51 h with rfl | rfl
          · exact .inl ⟨_, List.mem_cons_self .., rfl, rfl⟩
          · exact .inr ⟨_, by rw [State.move_loc_self, hcall]; rfl, .inr rfl⟩
        · exact .inr ⟨pc, by rw [State.move_loc_of_ne _ _ _ _ (Ne.symm htt)]; exact hpc, h51⟩

/-- **The global wakeup with `SUCCESS` is a no-op iff none of its decrements finds a count at
zero.** -/
theorem success_noOp_iff (ht : (s.loc t).call = .wakeup SUCCESS .l17)
    (hp : (waitSync max).Path s ρ s') (hin : ∀ x ∈ ρ, (x.pre.loc t).call.waking SUCCESS = true)
    (hret : (s'.loc t).call = .idle) :
    (∀ x ∈ ρ, x.tid = t → NoOp max x) ↔ FindsNoZero t ρ := by
  refine ⟨fun hno x hx hxt S hS h0 => ?_, fun hz => (noOp_of_findsNoZero ht hp hin hz).1⟩
  have hc : (x.pre.loc t).call = .wakeup SUCCESS (.l24 S .l111) := by
    obtain ⟨pc, hpc⟩ := Call.waking_iff.mp (hin x hx)
    rw [hpc] at hS ⊢
    cases pc with
    | l24 X upc => cases upc <;> cases hS; rfl
    | _ => cases hS
  rcases signals_of_zero hp hin ⟨x, hx, hxt, hc, h0⟩ with ⟨y, hy, hyt, hye⟩ | ⟨pc, hpc, -⟩
  · exact (hno y hy hyt).1 S hye
  · rw [hret] at hpc
    cases hpc

end Run

/-- Thread 0 registers, with one completion to wait for, and makes progress. -/
def register : List (Tid × Act) :=
  [(0, Act.init 0 1), (0, Act.wait)] ++ List.replicate 12 (0, Act.run)

theorem success_noOp_pending :
    ∃ s π s' ρ, (waitSync 1).Path start π s ∧ (waitSync 1).Path s ρ s' ∧
      (s.loc 2).call = .wakeup SUCCESS .l17 ∧ (s'.loc 2).call = .idle ∧ ρ.length = 6 ∧
      ∀ x ∈ ρ, x.tid = 2 → NoOp 1 x := by
  obtain ⟨s, π, s', ρ, hp, hp', ht, hin, hret, hlen, hz⟩ := exists_paths_of_run (p := waitSync 1)
    (s := start) (register ++ [(2, .wakeup 0)]) (List.replicate 6 (2, .run))
    (P := fun s _ s' ρ => (s.loc 2).call = .wakeup SUCCESS .l17 ∧
      (∀ x ∈ ρ, (x.pre.loc 2).call.waking SUCCESS = true) ∧ (s'.loc 2).call = .idle ∧
      ρ.length = 6 ∧ FindsNoZero 2 ρ) (by decide)
  exact ⟨s, π, s', ρ, hp, hp', ht, hret, hlen, (success_noOp_iff ht hp' hin hret).mpr hz⟩

/-- **Between the decrement that completes a sync and its signal** another thread's wakeup with
`SUCCESS` signals the sync and takes its flag down. -/
theorem not_success_noOp :
    ¬ ∀ (max : ℤ) (t : Tid) (s s' : St) (π ρ : List (Transition Tid Thread Mem Act Event)),
      (waitSync max).Path start π s → Allowed NonNeg π →
      (s.loc t).call = .wakeup SUCCESS .l17 → (waitSync max).Path s ρ s' →
      (∀ x ∈ ρ, (x.pre.loc t).call.waking SUCCESS = true) → (s'.loc t).call = .idle →
      ∀ x ∈ ρ, x.tid = t → NoOp max x := by
  intro hall
  obtain ⟨s, π, s', ρ, hp, hp', hE, ht, hin, hret, x, hx, hxt, hxe⟩ := exists_paths_of_run
    (p := waitSync 1) (s := start)
    (register ++ [(1, .update 0 1 0), (1, .run), (1, .run), (2, .wakeup 0)])
    (List.replicate 10 (2, .run))
    (P := fun s π s' ρ => Allowed NonNeg π ∧ (s.loc 2).call = .wakeup SUCCESS .l17 ∧
      (∀ x ∈ ρ, (x.pre.loc 2).call.waking SUCCESS = true) ∧ (s'.loc 2).call = .idle ∧
      ∃ x ∈ ρ, x.tid = 2 ∧ x.ev = .sigSignal 0) (by decide)
  exact (hall 1 2 s s' π ρ hp hE ht hp' hin hret x hx hxt).1 0 hxe

end Libult.WaitSync
