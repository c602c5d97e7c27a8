import Libult.Interleaving.Stored
import Mathlib.Logic.Relation

/-!
# Interleaving/Solo — one thread alone, and what it is asked to do meanwhile

A thread that runs alone is deterministic, but for the places where its environment decides.  At a
location that **asks** it takes the actions of a batch, one after the other, and goes on with its
next line once the batch is done; the batches are the environment.
-/

namespace Interleaving

universe u

variable {τ ℓ μ α ε : Type u}

namespace Program

section Solo

variable (p : Program τ ℓ μ α ε) (t : τ) (run : α) (asks : ℓ → Prop)

/-- One line, at a location that does not ask. -/
def Line (x y : ℓ × μ) : Prop := ¬ asks x.1 ∧ ∃ e, p.exec t run x.1 x.2 = some (y.1, y.2, e)

/-- Lines, one after the other. -/
abbrev Lines : ℓ × μ → ℓ × μ → Prop := Relation.ReflTransGen (p.Line t run asks)

/-- **The thread runs alone**, and the batches are what it is asked to do. -/
inductive Solo : ℓ × μ → List (List α) → ℓ × μ → Prop
  | nil (x : ℓ × μ) : Solo x [] x
  | line {x y z : ℓ × μ} {bs : List (List α)} : p.Line t run asks x y → Solo y bs z → Solo x bs z
  | call {x y z : ℓ × μ} {a : α} {as : List α} {bs : List (List α)} {e : ε} : asks x.1 →
      p.exec t a x.1 x.2 = some (y.1, y.2, e) → Solo y (as :: bs) z → Solo x ((a :: as) :: bs) z
  | done {x y z : ℓ × μ} {bs : List (List α)} {e : ε} : asks x.1 →
      p.exec t run x.1 x.2 = some (y.1, y.2, e) → Solo y bs z → Solo x ([] :: bs) z

variable {p t run asks} {x y z : ℓ × μ} {bs : List (List α)}

theorem Lines.solo (h : p.Lines t run asks x y) (hs : p.Solo t run asks y bs z) :
    p.Solo t run asks x bs z := by
  induction h using Relation.ReflTransGen.head_induction_on with
  | refl => exact hs
  | head hxy _ ih => exact .line hxy ih

/-- Lines of which nothing is lost are lines of the stored program. -/
theorem Lines.of_kept {f : μ → μ} {P : ℓ × μ → Prop} (h : p.Lines t run asks x y) (hx : P x)
    (kept : ∀ x y, P x → p.Line t run asks x y → P y ∧ f y.2 = y.2) :
    (p.stored f).Lines t run asks x y ∧ P y := by
  induction h with
  | refl => exact ⟨.refl, hx⟩
  | @tail y z _ hyz ih =>
    obtain ⟨hlines, hy⟩ := ih
    obtain ⟨hz, hf⟩ := kept y z hy hyz
    obtain ⟨hasks, e, hexec⟩ := hyz
    exact ⟨hlines.tail ⟨hasks, e, stored_exec.mpr ⟨z.2, hexec, hf.symm⟩⟩, hz⟩

/-- What an action leads to is one thing. -/
theorem eq_of_exec {o : Option (ℓ × μ × ε)} {e e' : ε} (h : o = some (x.1, x.2, e))
    (h' : o = some (y.1, y.2, e')) : x = y := by
  have heq := Option.some.inj (h.symm.trans h')
  exact Prod.ext (congrArg (fun r => r.1) heq) (congrArg (fun r => r.2.1) heq)

/-- **A run alone has one end.** -/
theorem Solo.unique {z' : ℓ × μ} (h : p.Solo t run asks x bs z) (h' : p.Solo t run asks x bs z')
    (hz : p.exec t run z.1 z.2 = none) (hz' : p.exec t run z'.1 z'.2 = none) : z = z' := by
  induction h with
  | nil x =>
    cases h' with
    | nil => rfl
    | line hxy => cases hz.symm.trans hxy.2.choose_spec
  | @line x y z bs hxy _ ih =>
    obtain ⟨hx, e, hxy⟩ := hxy
    cases h' with
    | nil => cases hz'.symm.trans hxy
    | line hxy' hs' =>
      obtain ⟨-, e', hxy'⟩ := hxy'
      exact ih (eq_of_exec hxy' hxy ▸ hs') hz
    | call hx' => exact absurd hx' hx
    | done hx' => exact absurd hx' hx
  | call hx hxy _ ih =>
    cases h' with
    | line hxy' => exact absurd hx hxy'.1
    | call _ hxy' hs' =>
      exact ih (eq_of_exec hxy' hxy ▸ hs') hz
  | done hx hxy _ ih =>
    cases h' with
    | line hxy' => exact absurd hx hxy'.1
    | done _ hxy' hs' =>
      exact ih (eq_of_exec hxy' hxy ▸ hs') hz

variable [DecidableEq τ]

/-- One action of the thread, in the program. -/
theorem path_of_exec {s : State τ ℓ μ} {a : α} {l : ℓ} {m : μ} {e : ε}
    (h : p.exec t a (s.loc t) s.mem = some (l, m, e)) :
    p.Path s [⟨s, t, a, e⟩] (s.move t l m) :=
  .snoc (.nil s) (step_eq_some.mpr ⟨l, m, h, rfl⟩)

/-- **A run alone is a run of the program**, in which nobody else moves. -/
theorem Solo.path (h : p.Solo t run asks x bs z) {s : State τ ℓ μ} (hl : s.loc t = x.1)
    (hm : s.mem = x.2) :
    ∃ π, p.Path s π (s.move t z.1 z.2) ∧ ∀ y ∈ π, y.tid = t := by
  have head : ∀ {s : State τ ℓ μ} {x y z : ℓ × μ} {a : α} {e : ε}, s.loc t = x.1 → s.mem = x.2 →
      p.exec t a x.1 x.2 = some (y.1, y.2, e) →
      (∀ {s : State τ ℓ μ}, s.loc t = y.1 → s.mem = y.2 →
        ∃ π, p.Path s π (s.move t z.1 z.2) ∧ ∀ y ∈ π, y.tid = t) →
      ∃ π, p.Path s π (s.move t z.1 z.2) ∧ ∀ y ∈ π, y.tid = t := by
    intro s x y z a e hl hm hx ih
    rw [← hl, ← hm] at hx
    obtain ⟨π, hπ, ht⟩ := ih (s := s.move t y.1 y.2) (s.move_loc_self ..) rfl
    refine ⟨π ++ [⟨s, t, a, e⟩], ?_, fun w hw => ?_⟩
    · exact s.move_move t y.1 y.2 z.1 z.2 ▸ (path_of_exec hx).append hπ
    · rcases List.mem_append.mp hw with hw | hw
      · exact ht w hw
      · exact List.mem_singleton.mp hw ▸ rfl
  induction h generalizing s with
  | nil x =>
    refine ⟨[], ?_, by simp⟩
    rw [← hl, ← hm, State.move_self]
    exact .nil s
  | line hxy _ ih =>
    obtain ⟨-, e, hxy⟩ := hxy
    exact head hl hm hxy ih
  | call _ hxy _ ih => exact head hl hm hxy ih
  | done _ hxy _ ih => exact head hl hm hxy ih

end Solo

end Program

end Interleaving
