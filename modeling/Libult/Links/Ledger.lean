import Mathlib.Data.List.Basic
import Mathlib.Data.List.Nodup
import Mathlib.Logic.Function.Basic

/-!
# Links/Ledger — objects that are listed, in a hand, or gone

Objects are allocated into somebody's hand, put on a shared list, taken off it and torn down stage
by stage.  The **ledger** accounts for every one of them: on the list and whole, in exactly one hand
and as far as that hand has come, or gone.  Besides, an actor may have a grip on a listed object
that is its own; whoever takes an object off the list must be the only one with a grip on it.

    alloc ─▸ hand ─enlist─▸ list ─take─▸ hand ─advance─▸ … ─drop─▸ gone
-/

namespace Links

universe u v w

variable {τ : Type u} {ι : Type v} {σ : Type w}

/-! ## One holder each -/

/-- No two actors hold things of one key. -/
def Sole {β : Type w} (key : β → ι) (g : τ → Option β) : Prop :=
  ∀ t t' b b', g t = some b → g t' = some b' → key b = key b' → t = t'

section Sole

variable {β : Type w} {key : β → ι} {g g' : τ → Option β} {t t' : τ} {b b' : β} {o : Option β}

theorem Sole.mono (h : Sole key g) (hg : ∀ t b, g' t = some b → g t = some b) : Sole key g' :=
  fun t t' b b' hb hb' => h t t' b b' (hg t b hb) (hg t' b' hb')

variable [DecidableEq τ]

theorem update_eq_some (h : Function.update g t o t' = some b) :
    t' = t ∧ o = some b ∨ t' ≠ t ∧ g t' = some b := by
  by_cases ht : t' = t
  · subst ht
    exact .inl ⟨rfl, by rwa [Function.update_self] at h⟩
  · exact .inr ⟨ht, by rwa [Function.update_of_ne ht] at h⟩

theorem Sole.update_none (h : Sole key g) : Sole key (Function.update g t none) :=
  h.mono fun t' b hb => by
    rcases update_eq_some hb with ⟨-, hn⟩ | ⟨-, hb⟩
    · cases hn
    · exact hb

/-- A hand may take what nobody else holds. -/
theorem Sole.update_some (h : Sole key g)
    (hb : ∀ t' b', t' ≠ t → g t' = some b' → key b' ≠ key b) :
    Sole key (Function.update g t (some b)) := by
  intro t₁ t₂ b₁ b₂ h₁ h₂ hkey
  rcases update_eq_some h₁ with ⟨ht₁, hb₁⟩ | ⟨ht₁, hb₁⟩ <;>
    rcases update_eq_some h₂ with ⟨ht₂, hb₂⟩ | ⟨ht₂, hb₂⟩
  · rw [ht₁, ht₂]
  · cases hb₁
    exact absurd hkey.symm (hb t₂ b₂ ht₂ hb₂)
  · cases hb₂
    exact absurd hkey (hb t₁ b₁ ht₁ hb₁)
  · exact h t₁ t₂ b₁ b₂ hb₁ hb₂ hkey

end Sole

/-! ## The ledger -/

/-- **The ledger** of the objects `A` allocated so far. -/
structure Ledger (whole gone : σ) (A : ι → Prop) (L : List ι) (stage : ι → σ)
    (hand : τ → Option (ι × σ)) (grip : τ → Option ι) : Prop where
  nodup : L.Nodup
  unborn : ∀ i, ¬ A i → stage i = whole
  listed : ∀ i ∈ L, A i ∧ stage i = whole
  held : ∀ t i v, hand t = some (i, v) → A i ∧ i ∉ L ∧ stage i = v
  held_sole : Sole Prod.fst hand
  gripped : ∀ t i, grip t = some i → i ∈ L
  gripped_sole : Sole id grip
  accounted : ∀ i, A i → i ∈ L ∨ (∃ t v, hand t = some (i, v)) ∨ stage i = gone

namespace Ledger

variable {whole gone : σ} {A : ι → Prop} {L : List ι} {stage : ι → σ} {hand : τ → Option (ι × σ)}
  {grip grip' : τ → Option ι} {t : τ} {i j : ι} {v v' : σ}

/-- Nothing allocated yet. -/
theorem empty (hA : ∀ i, ¬ A i) : Ledger whole gone A [] (fun _ => whole) (fun _ : τ => none)
    fun _ => none :=
  ⟨.nil, fun _ _ => rfl, by simp, by simp, fun _ _ _ _ h => (by cases h), by simp,
    fun _ _ _ _ h => (by cases h), fun i hi => absurd hi (hA i)⟩

/-- A grip may be given up. -/
theorem regrip (h : Ledger whole gone A L stage hand grip)
    (hg : ∀ t i, grip' t = some i → grip t = some i) : Ledger whole gone A L stage hand grip' :=
  { h with
    gripped := fun t i hi => h.gripped t i (hg t i hi)
    gripped_sole := h.gripped_sole.mono hg }

/-- Nobody else holds what a hand holds. -/
theorem ne_of_held (h : Ledger whole gone A L stage hand grip) (ht : hand t = some (i, v)) {t' : τ}
    (hne : t' ≠ t) (hj : hand t' = some (j, v')) : j ≠ i :=
  fun hji => hne (h.held_sole t' t (j, v') (i, v) hj ht hji)

variable [DecidableEq τ]

theorem held_update {o : Option (ι × σ)} (hj : ∃ t' v, hand t' = some (j, v))
    (hne : ∀ v, hand t ≠ some (j, v)) : ∃ t' v, Function.update hand t o t' = some (j, v) := by
  obtain ⟨t', v, hv⟩ := hj
  have : t' ≠ t := fun ht => hne v (ht ▸ hv)
  exact ⟨t', v, by rwa [Function.update_of_ne this]⟩

/-- **Allocation** into an empty hand. -/
theorem alloc (h : Ledger whole gone A L stage hand grip) (hi : ¬ A i) (ht : hand t = none) :
    Ledger whole gone (fun j => j = i ∨ A j) L stage
      (Function.update hand t (some (i, whole))) grip := by
  refine ⟨h.nodup, fun j hj => h.unborn j (not_or.mp hj).2,
    fun j hj => ⟨.inr (h.listed j hj).1, (h.listed j hj).2⟩, fun t' j v hj => ?_,
    h.held_sole.update_some fun t' b _ hb (hbi : b.1 = i) => ?_, h.gripped, h.gripped_sole,
    fun j hj => ?_⟩
  · rcases update_eq_some hj with ⟨-, hj'⟩ | ⟨-, hj'⟩
    · cases hj'
      exact ⟨.inl rfl, fun hL => hi (h.listed i hL).1, h.unborn i hi⟩
    · exact ⟨.inr (h.held t' j v hj').1, (h.held t' j v hj').2⟩
  · exact hi (hbi ▸ (h.held t' b.1 b.2 hb).1)
  · rcases hj with rfl | hj
    · exact .inr (.inl ⟨t, whole, Function.update_self ..⟩)
    · exact (h.accounted j hj).imp_right (.imp_left fun hex => held_update hex (by simp [ht]))

/-- A hand lets go of an object that is gone. -/
theorem letGo (h : Ledger whole gone A L stage hand grip) (ht : hand t = some (i, gone)) :
    Ledger whole gone A L stage (Function.update hand t none) grip := by
  refine ⟨h.nodup, h.unborn, h.listed, fun t' j v hj => ?_, h.held_sole.update_none, h.gripped,
    h.gripped_sole, fun j hj => ?_⟩
  · rcases update_eq_some hj with ⟨-, hj'⟩ | ⟨-, hj'⟩
    · cases hj'
    · exact h.held t' j v hj'
  · by_cases hji : j = i
    · exact .inr (.inr (hji ▸ (h.held t i gone ht).2.2))
    · exact (h.accounted j hj).imp_right (.imp_left fun hex => held_update hex fun v hv => by
        cases ht.symm.trans hv
        exact hji rfl)

/-- **A whole object goes on the list**, and whoever put it there has a grip on it. -/
theorem enlist (h : Ledger whole gone A L stage hand grip) (ht : hand t = some (i, whole)) :
    Ledger whole gone A (L ++ [i]) stage (Function.update hand t none)
      (Function.update grip t (some i)) := by
  obtain ⟨hA, hL, hs⟩ := h.held t i whole ht
  refine ⟨?_, h.unborn, fun j hj => ?_, fun t' j v hj => ?_, h.held_sole.update_none,
    fun t' j hj => ?_, h.gripped_sole.update_some fun t' b _ hb (hbi : b = i) => ?_,
    fun j hj => ?_⟩
  · refine List.nodup_append.mpr ⟨h.nodup, by simp, fun a ha b hb hab => ?_⟩
    exact hL (List.mem_singleton.mp hb ▸ hab ▸ ha)
  · rcases List.mem_append.mp hj with hj | hj
    · exact h.listed j hj
    · rw [List.mem_singleton.mp hj]
      exact ⟨hA, hs⟩
  · rcases update_eq_some hj with ⟨-, hj'⟩ | ⟨hne, hj'⟩
    · cases hj'
    · obtain ⟨hAj, hLj, hsj⟩ := h.held t' j v hj'
      refine ⟨hAj, fun hm => ?_, hsj⟩
      exact (List.mem_append.mp hm).elim hLj fun hm =>
        h.ne_of_held ht hne hj' (List.mem_singleton.mp hm)
  · rcases update_eq_some hj with ⟨-, hj'⟩ | ⟨-, hj'⟩
    · cases hj'
      simp
    · exact List.mem_append_left _ (h.gripped t' j hj')
  · exact hL (hbi ▸ h.gripped t' b hb)
  · by_cases hji : j = i
    · exact .inl (by simp [hji])
    · exact (h.accounted j hj).imp (List.mem_append_left _) (.imp_left fun hex =>
        held_update hex fun v hv => by
          cases ht.symm.trans hv
          exact hji rfl)

variable [DecidableEq ι]

/-- **An object is taken off the list** by the only one who may have a grip on it. -/
theorem take (h : Ledger whole gone A L stage hand grip) (hi : i ∈ L) (ht : hand t = none)
    (hg : ∀ t', t' ≠ t → grip t' ≠ some i) (v : σ) :
    Ledger whole gone A (L.erase i) (Function.update stage i v)
      (Function.update hand t (some (i, v))) (Function.update grip t none) := by
  have hheld : ∀ t' j v', hand t' = some (j, v') → j ≠ i := by
    rintro t' j v' hv rfl
    exact (h.held t' j v' hv).2.1 hi
  refine ⟨h.nodup.erase i, fun j hj => ?_, fun j hj => ?_, fun t' j v' hj => ?_,
    h.held_sole.update_some fun t' b _ hb => hheld t' b.1 b.2 hb, fun t' j hj => ?_,
    h.gripped_sole.update_none, fun j hj => ?_⟩
  · rw [Function.update_of_ne fun hji : j = i => hj (hji ▸ (h.listed i hi).1)]
    exact h.unborn j hj
  · obtain ⟨hji, hjL⟩ := h.nodup.mem_erase_iff.mp hj
    rw [Function.update_of_ne hji]
    exact h.listed j hjL
  · rcases update_eq_some hj with ⟨-, hj'⟩ | ⟨-, hj'⟩
    · cases hj'
      exact ⟨(h.listed i hi).1, h.nodup.not_mem_erase, Function.update_self ..⟩
    · obtain ⟨hAj, hLj, hsj⟩ := h.held t' j v' hj'
      exact ⟨hAj, fun hj => hLj (List.mem_of_mem_erase hj),
        by rwa [Function.update_of_ne (hheld t' j v' hj')]⟩
  · rcases update_eq_some hj with ⟨-, hj'⟩ | ⟨hne, hj'⟩
    · cases hj'
    · exact h.nodup.mem_erase_iff.mpr ⟨fun hji => hg t' hne (hji ▸ hj'), h.gripped t' j hj'⟩
  · by_cases hji : j = i
    · exact .inr (.inl ⟨t, v, by rw [Function.update_self, hji]⟩)
    · rw [Function.update_of_ne hji]
      exact (h.accounted j hj).imp (fun hjL => h.nodup.mem_erase_iff.mpr ⟨hji, hjL⟩)
        (.imp_left fun hex => held_update hex (by simp [ht]))

/-- **The object in a hand comes to its next stage**… -/
theorem advance (h : Ledger whole gone A L stage hand grip) (ht : hand t = some (i, v)) (v' : σ) :
    Ledger whole gone A L (Function.update stage i v') (Function.update hand t (some (i, v')))
      grip := by
  obtain ⟨hA, hL, -⟩ := h.held t i v ht
  refine ⟨h.nodup, fun j hj => ?_, fun j hj => ?_, fun t' j v₁ hj => ?_,
    h.held_sole.update_some fun t' b hne hb => h.ne_of_held ht hne hb, h.gripped, h.gripped_sole,
    fun j hj => ?_⟩
  · rw [Function.update_of_ne fun hji : j = i => hj (hji ▸ hA)]
    exact h.unborn j hj
  · rw [Function.update_of_ne fun hji : j = i => hL (hji ▸ hj)]
    exact h.listed j hj
  · rcases update_eq_some hj with ⟨-, hj'⟩ | ⟨hne, hj'⟩
    · cases hj'
      exact ⟨hA, hL, Function.update_self ..⟩
    · rw [Function.update_of_ne (h.ne_of_held ht hne hj')]
      exact h.held t' j v₁ hj'
  · by_cases hji : j = i
    · exact .inr (.inl ⟨t, v', by rw [Function.update_self, hji]⟩)
    · rw [Function.update_of_ne hji]
      exact (h.accounted j hj).imp_right (.imp_left fun hex => held_update hex fun v hv => by
        cases ht.symm.trans hv
        exact hji rfl)

/-- …and at the end leaves it, gone. -/
theorem drop (h : Ledger whole gone A L stage hand grip) (ht : hand t = some (i, v)) :
    Ledger whole gone A L (Function.update stage i gone) (Function.update hand t none) grip := by
  have h' := (h.advance ht gone).letGo (t := t) (i := i) (Function.update_self ..)
  rwa [Function.update_idem] at h'

end Ledger

end Links
