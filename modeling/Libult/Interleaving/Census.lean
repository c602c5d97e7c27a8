import Libult.Interleaving.Program
import Mathlib.Algebra.BigOperators.Group.Finset.Basic

/-!
# Interleaving/Census — counting the threads that are somewhere

Threads are many, but only finitely many are inside at a time.  A **census** names them; a step
moves one thread, so it adds that one, strikes it off, or leaves the census as it is.  Where a
location weighs more than one, the census is a sum.
-/

namespace Interleaving

universe u

variable {τ ℓ μ : Type u} [DecidableEq τ] {P : ℓ → Prop} {s : State τ ℓ μ} {W : Finset τ} {t : τ}
  {l : ℓ} {m : μ}

/-- `W` are the threads whose location satisfies `P`. -/
def Census (P : ℓ → Prop) (s : State τ ℓ μ) (W : Finset τ) : Prop :=
  ∀ t, t ∈ W ↔ P (s.loc t)

theorem Census.stay (h : Census P s W) (hl : P l ↔ P (s.loc t)) : Census P (s.move t l m) W := by
  intro t'
  by_cases ht : t' = t
  · subst ht
    rw [State.move_loc_self, hl, h t']
  · rw [State.move_loc_of_ne _ _ _ _ ht, h t']

theorem Census.enter (h : Census P s W) (hl : P l) : Census P (s.move t l m) (insert t W) := by
  intro t'
  by_cases ht : t' = t
  · subst ht
    simp [hl]
  · rw [State.move_loc_of_ne _ _ _ _ ht, Finset.mem_insert, h t']
    simp [ht]

theorem Census.leave (h : Census P s W) (hl : ¬ P l) : Census P (s.move t l m) (W.erase t) := by
  intro t'
  by_cases ht : t' = t
  · subst ht
    simp [hl]
  · rw [State.move_loc_of_ne _ _ _ _ ht, Finset.mem_erase, h t']
    simp [ht]

/-- One more is inside after an entry… -/
theorem Census.card_enter (h : Census P s W) (hs : ¬ P (s.loc t)) :
    (insert t W).card = W.card + 1 :=
  Finset.card_insert_of_notMem (mt (h t).mp hs)

/-- …and one fewer after an exit. -/
theorem Census.card_leave (h : Census P s W) (hs : P (s.loc t)) :
    (W.erase t).card + 1 = W.card :=
  Finset.card_erase_add_one ((h t).mpr hs)

omit [DecidableEq τ] in
/-- **Whoever is named by a finite set can be counted.** -/
theorem exists_census (hW : ∀ t, P (s.loc t) → t ∈ W) : ∃ V ⊆ W, Census P s V := by
  classical
  refine ⟨W.filter fun t => P (s.loc t), Finset.filter_subset .., fun t => ?_⟩
  rw [Finset.mem_filter]
  exact ⟨fun ht => ht.2, fun ht => ⟨hW t ht, ht⟩⟩

/-! ## Weights -/

/-- **The weights of all locations sum to `n`**; all but finitely many weigh nothing. -/
def Weighs (w : ℓ → ℕ) (s : State τ ℓ μ) (n : ℕ) : Prop :=
  ∃ T : Finset τ, (∀ t, t ∉ T → w (s.loc t) = 0) ∧ n = ∑ t ∈ T, w (s.loc t)

section Weighs

variable {w : ℓ → ℕ} {n n' : ℕ}

/-- Any one thread may be listed. -/
theorem Weighs.exists_mem (h : Weighs w s n) (t : τ) :
    ∃ T : Finset τ, t ∈ T ∧ (∀ t', t' ∉ T → w (s.loc t') = 0) ∧ n = ∑ t' ∈ T, w (s.loc t') := by
  obtain ⟨T, hT, rfl⟩ := h
  refine ⟨insert t T, Finset.mem_insert_self t T, fun t' ht' => ?_, ?_⟩
  · exact hT t' (mt Finset.mem_insert_of_mem ht')
  · exact Finset.sum_subset (Finset.subset_insert t T) fun t' _ ht' => hT t' ht'

/-- One location weighs no more than all. -/
theorem Weighs.le (h : Weighs w s n) (t : τ) : w (s.loc t) ≤ n := by
  obtain ⟨T, ht, -, rfl⟩ := h.exists_mem t
  have hsplit := Finset.add_sum_erase T (fun t' => w (s.loc t')) ht
  omega

/-- **A step changes the sum by what its thread's location weighs.** -/
theorem Weighs.move (h : Weighs w s n) (hn : n' + w (s.loc t) = n + w l) :
    Weighs w (s.move t l m) n' := by
  obtain ⟨T, ht, hT, rfl⟩ := h.exists_mem t
  refine ⟨T, fun t' ht' => ?_, ?_⟩
  · have hne : t' ≠ t := fun he => ht' (he ▸ ht)
    rw [State.move_loc_of_ne _ _ _ _ hne]
    exact hT t' ht'
  · have hrest : ∑ t' ∈ T.erase t, w ((s.move t l m).loc t') = ∑ t' ∈ T.erase t, w (s.loc t') :=
      Finset.sum_congr rfl fun t' ht' => by
        rw [State.move_loc_of_ne _ _ _ _ (Finset.ne_of_mem_erase ht')]
    have hbefore := Finset.add_sum_erase T (fun t' => w (s.loc t')) ht
    have hafter := Finset.add_sum_erase T (fun t' => w ((s.move t l m).loc t')) ht
    rw [State.move_loc_self, hrest] at hafter
    omega

end Weighs

end Interleaving
