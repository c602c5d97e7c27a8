import Libult.Interleaving.Program
import Mathlib.Algebra.Ring.Int.Defs
import Mathlib.Algebra.Ring.Nat

/-!
# Interleaving/Stored — a program and what its machine keeps of the memory

A program computes with integers, and its machine stores what fits.  The **stored** program is the
same code, every memory it leaves put through a function; a run of it in which nothing is lost is a
run of the program itself, transition for transition.

    exec        m ─────▸ m₁
    stored f    m ─────▸ f m₁        the same, as long as f m₁ = m₁
-/

namespace Interleaving

universe u

/-- What a 32-bit `int` keeps of an integer, in two's complement. -/
@[irreducible] def int32 (v : ℤ) : ℤ := v.bmod (2 ^ 32)

theorem int32_of_mem {v : ℤ} (h : -2 ^ 31 ≤ v) (h' : v < 2 ^ 31) : int32 v = v := by
  rw [int32, Int.bmod_eq_of_le (by omega) (by omega)]

@[simp] theorem int32_zero : int32 0 = 0 := int32_of_mem (by decide) (by decide)

@[simp] theorem int32_int32 (v : ℤ) : int32 (int32 v) = int32 v := by
  rw [int32, int32, Int.bmod_bmod]

/-- Only what comes of a sum matters. -/
theorem int32_add (v w : ℤ) : int32 (int32 v + w) = int32 (v + w) := by
  rw [int32, int32, Int.bmod_add_bmod, int32]

variable {τ ℓ μ α ε : Type u}

namespace Program

variable {p : Program τ ℓ μ α ε} {f : μ → μ}

/-- The program on a machine that keeps `f m` of a memory `m`. -/
def stored (p : Program τ ℓ μ α ε) (f : μ → μ) : Program τ ℓ μ α ε :=
  ⟨fun t a l m => (p.exec t a l m).map fun r => (r.1, f r.2.1, r.2.2)⟩

theorem stored_exec {t : τ} {a : α} {l l' : ℓ} {m m' : μ} {e : ε} :
    (p.stored f).exec t a l m = some (l', m', e) ↔
      ∃ m₁, p.exec t a l m = some (l', m₁, e) ∧ m' = f m₁ := by
  rw [stored, Option.map_eq_some_iff]
  constructor
  · rintro ⟨⟨l₁, m₁, e₁⟩, h, hr⟩
    obtain ⟨rfl, rfl, rfl⟩ := hr
    exact ⟨m₁, h, rfl⟩
  · rintro ⟨m₁, h, rfl⟩
    exact ⟨(l', m₁, e), h, rfl⟩

variable [DecidableEq τ]

/-- **A run in which nothing is lost** is a run of the program. -/
theorem Path.of_stored {E : State τ ℓ μ → τ → α → Prop} {s s' : State τ ℓ μ}
    {π : List (Transition τ ℓ μ α ε)} (hp : (p.stored f).Path s π s') (hE : Allowed E π)
    (lossless : ∀ π s' t a l m e, p.Path s π s' → Allowed E π → E s' t a →
      p.exec t a (s'.loc t) s'.mem = some (l, m, e) → f m = m) : p.Path s π s' := by
  induction hp with
  | nil => exact .nil s
  | snoc _ hs ih =>
    obtain ⟨hx, hπ⟩ := allowed_cons.mp hE
    obtain ⟨l, m, hexec, rfl⟩ := step_eq_some.mp hs
    obtain ⟨m₁, hexec₁, rfl⟩ := stored_exec.mp hexec
    have hsame : f m₁ = m₁ := lossless _ _ _ _ _ _ _ (ih hπ) hπ hx hexec₁
    exact (ih hπ).snoc (step_eq_some.mpr ⟨l, m₁, hexec₁, by rw [hsame]⟩)

/-- **Rounds**: what leads from each of a sequence of states to the next leads from the first to any
of them. -/
theorem Path.rounds {P : Transition τ ℓ μ α ε → Prop} (x : ℕ → State τ ℓ μ)
    (round : ∀ n, ∃ π, p.Path (x n) π (x (n + 1)) ∧ ∀ y ∈ π, P y) (n : ℕ) :
    ∃ π, p.Path (x 0) π (x n) ∧ ∀ y ∈ π, P y := by
  induction n with
  | zero => exact ⟨[], .nil _, by simp⟩
  | succ n ih =>
    obtain ⟨π, hπ, hP⟩ := ih
    obtain ⟨ρ, hρ, hP'⟩ := round n
    exact ⟨ρ ++ π, hπ.append hρ, List.forall_mem_append.mpr ⟨hP', hP⟩⟩

end Program

end Interleaving
