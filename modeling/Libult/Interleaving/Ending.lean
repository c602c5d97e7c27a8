import Libult.Interleaving.Program
import Mathlib.Algebra.BigOperators.Group.Finset.Basic
import Mathlib.Algebra.Order.BigOperators.Group.Finset
import Mathlib.Data.Finset.Lattice.Fold
import Mathlib.Data.Finset.Prod
import Mathlib.Order.WellFounded

/-!
# Interleaving/Ending — steps that must run out

Steps that each lower a well-founded **measure** run out, in whatever order they are taken.  Where
only finitely many of them are open in any one state, the bound is a number, and some schedule takes
them all: it ends where none of them can be taken any more.
-/

namespace Interleaving

universe u v

variable {τ ℓ μ α ε : Type u}

theorem allowed_append {E : State τ ℓ μ → τ → α → Prop}
    {π ρ : List (Transition τ ℓ μ α ε)} : Allowed E (ρ ++ π) ↔ Allowed E ρ ∧ Allowed E π :=
  List.forall_mem_append

/-! ## Summing over the threads -/

section Sum

variable [DecidableEq τ] {A : Finset τ} {s : State τ ℓ μ} {t : τ} {l : ℓ} {m : μ}

/-- **One thread has less left, and the others no more**: so have all. -/
theorem sum_move_lt {f g : τ → ℓ → ℕ} (hA : t ∈ A) (hlt : g t l < f t (s.loc t))
    (hne : ∀ t' ∈ A, t' ≠ t → g t' (s.loc t') ≤ f t' (s.loc t')) :
    ∑ t' ∈ A, g t' ((s.move t l m).loc t') < ∑ t' ∈ A, f t' (s.loc t') := by
  refine Finset.sum_lt_sum (fun t' ht' => ?_) ⟨t, hA, by rwa [State.move_loc_self]⟩
  by_cases ht : t' = t
  · subst ht
    rw [State.move_loc_self]
    exact hlt.le
  · rw [State.move_loc_of_ne _ _ _ _ ht]
    exact hne t' ht' ht

theorem sum_move_eq {f : ℓ → ℕ} (h : f l = f (s.loc t)) :
    ∑ t' ∈ A, f ((s.move t l m).loc t') = ∑ t' ∈ A, f (s.loc t') := by
  refine Finset.sum_congr rfl fun t' _ => ?_
  by_cases ht : t' = t
  · subst ht
    rw [State.move_loc_self, h]
  · rw [State.move_loc_of_ne _ _ _ _ ht]

end Sum

/-! ## Running out -/

namespace Program

variable [DecidableEq τ] {p : Program τ ℓ μ α ε} {s s' : State τ ℓ μ}
  {ρ : List (Transition τ ℓ μ α ε)}

/-- A path begins with its first transition. -/
theorem Path.head {x : Transition τ ℓ μ α ε} (h : p.Path s (ρ ++ [x]) s') :
    x.pre = s ∧ ∃ s₁, p.step s x.tid x.act = some (s₁, x.ev) ∧ p.Path s₁ ρ s' := by
  obtain ⟨hπ, s₁, hx, hρ⟩ := h.split
  cases hπ
  exact ⟨rfl, s₁, hx, hρ⟩

section Falling

variable {β : Type v} [Preorder β] [WellFoundedLT β] {I : List ε → State τ ℓ μ → Prop}
  {E : State τ ℓ μ → τ → α → Prop} {w : List ε → State τ ℓ μ → β} {acts : Finset (τ × α)}
  (falls : ∀ h s t a l m e, I h s → E s t a → p.exec t a (s.loc t) s.mem = some (l, m, e) →
    (t, a) ∈ acts ∧ I (e :: h) (s.move t l m) ∧ w (e :: h) (s.move t l m) < w h s)

include falls

/-- **Steps that lower a measure run out**, within one bound for every order of them. -/
theorem exists_bound {h : List ε} (hI : I h s) :
    ∃ N, ∀ ρ s', p.Path s ρ s' → Allowed E ρ → ρ.length ≤ N := by
  induction hb : w h s using WellFoundedLT.induction generalizing h s with
  | ind b ih =>
    have next : ∀ x : τ × α, ∃ N, E s x.1 x.2 → ∀ s₁ e, p.step s x.1 x.2 = some (s₁, e) →
        ∀ ρ s', p.Path s₁ ρ s' → Allowed E ρ → ρ.length ≤ N := by
      rintro ⟨t, a⟩
      by_cases hE : E s t a ∧ ∃ r, p.step s t a = some r
      · obtain ⟨hE, ⟨s₁, e⟩, hs⟩ := hE
        obtain ⟨l, m, hx, rfl⟩ := step_eq_some.mp hs
        obtain ⟨-, hI', hlt⟩ := falls _ _ _ _ _ _ _ hI hE hx
        obtain ⟨N, hN⟩ := ih _ (hb ▸ hlt) hI' rfl
        refine ⟨N, fun _ s₂ e' hs' => ?_⟩
        obtain ⟨rfl, -⟩ := Prod.ext_iff.mp (Option.some.inj (hs'.symm.trans hs))
        exact hN
      · exact ⟨0, fun h s₁ e hs => absurd ⟨h, _, hs⟩ hE⟩
    choose N hN using next
    refine ⟨acts.sup N + 1, fun ρ s' hp hE => ?_⟩
    rcases List.eq_nil_or_concat ρ with rfl | ⟨ρ, x, rfl⟩
    · exact Nat.zero_le _
    · rw [List.concat_eq_append] at hp hE ⊢
      obtain ⟨rfl, s₁, hs, hρ⟩ := hp.head
      obtain ⟨hEρ, hEx⟩ := allowed_append.mp hE
      have hx := hEx x (List.mem_singleton_self x)
      obtain ⟨l, m, hexec, -⟩ := step_eq_some.mp hs
      have hmem := (falls _ _ _ _ _ _ _ hI hx hexec).1
      have hle : N (x.tid, x.act) ≤ acts.sup N := Finset.le_sup hmem
      have := hN (x.tid, x.act) hx s₁ x.ev hs ρ s' hρ hEρ
      rw [List.length_append, List.length_singleton]
      omega

/-- …and **some schedule takes them all**. -/
theorem exists_last {h : List ε} (hI : I h s) :
    ∃ ρ s', p.Path s ρ s' ∧ Allowed E ρ ∧ ∀ t a, E s' t a → p.step s' t a = none := by
  induction hb : w h s using WellFoundedLT.induction generalizing h s with
  | ind b ih =>
    by_cases hend : ∀ t a, E s t a → p.step s t a = none
    · exact ⟨[], s, .nil s, allowed_nil E, hend⟩
    · push Not at hend
      obtain ⟨t, a, hE, hne⟩ := hend
      obtain ⟨⟨s₁, e⟩, hs⟩ := Option.ne_none_iff_exists'.mp hne
      obtain ⟨l, m, hx, rfl⟩ := step_eq_some.mp hs
      obtain ⟨-, hI', hlt⟩ := falls _ _ _ _ _ _ _ hI hE hx
      obtain ⟨ρ, s', hρ, hEρ, hlast⟩ := ih _ (hb ▸ hlt) hI' rfl
      have h₁ : p.Path s [⟨s, t, a, e⟩] (s.move t l m) := .snoc (.nil s) hs
      exact ⟨_, s', h₁.append hρ, allowed_append.mpr
        ⟨hEρ, allowed_cons.mpr ⟨hE, allowed_nil E⟩⟩, hlast⟩

end Falling

section Work

variable {β : Type v} [Preorder β] [WellFoundedLT β] {I : List ε → State τ ℓ μ → Prop}
  {E : State τ ℓ μ → τ → α → Prop} {w : Finset τ → List ε → State τ ℓ μ → β} {a : α}

/-- **Work runs out.**  Let work be the one action `a`, which no thread has where it starts, and let
each of it lower a measure of the threads that have acted.  However it is scheduled, it stays within
one bound, and some schedule gets to its end. -/
theorem Path.runs_out {s₀ : State τ ℓ μ} (hp : p.Path s₀ ρ s) (hI : I (events ρ) s)
    (hE : ∀ s t b, E s t b → b = a) (hstart : ∀ t m, p.exec t a (s₀.loc t) m = none)
    (falls : ∀ A h s t l m e, t ∈ A → I h s → E s t a →
      p.exec t a (s.loc t) s.mem = some (l, m, e) →
      I (e :: h) (s.move t l m) ∧ w A (e :: h) (s.move t l m) < w A h s) :
    (∃ N, ∀ σ s', p.Path s σ s' → Allowed E σ → σ.length ≤ N) ∧
      ∃ σ s', p.Path s σ s' ∧ Allowed E σ ∧
        ∀ t, E s' t a → p.exec t a (s'.loc t) s'.mem = none := by
  let A := (ρ.map Transition.tid).toFinset
  have hin : I (events ρ) s ∧ ∀ t, t ∉ A → s.loc t = s₀.loc t :=
    ⟨hI, (hp.untouched fun _ hx => List.mem_toFinset.mpr (List.mem_map_of_mem hx)).1⟩
  have step : ∀ h s t b l m e, (I h s ∧ ∀ t, t ∉ A → s.loc t = s₀.loc t) → E s t b →
      p.exec t b (s.loc t) s.mem = some (l, m, e) → (t, b) ∈ A ×ˢ {a} ∧
        (I (e :: h) (s.move t l m) ∧ ∀ t', t' ∉ A → (s.move t l m).loc t' = s₀.loc t') ∧
        w A (e :: h) (s.move t l m) < w A h s := by
    rintro h s t b l m e ⟨hI, hout⟩ hb hx
    obtain rfl := hE s t b hb
    -- who has not acted has nothing to do
    have ht : t ∈ A := by
      by_contra hn
      rw [hout t hn, hstart] at hx
      cases hx
    obtain ⟨hI', hlt⟩ := falls A h s t l m e ht hI hb hx
    refine ⟨Finset.mem_product.mpr ⟨ht, Finset.mem_singleton_self b⟩, ⟨hI', fun t' ht' => ?_⟩, hlt⟩
    rw [State.move_loc_of_ne _ _ _ _ fun hc => ht' (by rwa [hc])]
    exact hout t' ht'
  refine ⟨exists_bound step hin, ?_⟩
  obtain ⟨σ, s', hσ, hw, hlast⟩ := exists_last step hin
  exact ⟨σ, s', hσ, hw, fun t ht => Option.map_eq_none_iff.mp (hlast t a ht)⟩

end Work

end Program

end Interleaving
