import Libult.Interleaving.Program

/-!
# Interleaving/Points — a run read at its linearization points

A step is a **point** when it is where an operation of an abstract program takes effect.  If every
other step leaves the view alone, a run of the concrete program, read at its points, is a run of the
abstract one: the same threads take the same operations in the same order.  The view may look at the
history of the run as well as at the state.

    concrete   ─▸ ─▸ ● ─▸ ─▸ ● ─▸ ●
    abstract         ●       ●    ●
-/

namespace Interleaving

universe u

variable {τ ℓ μ α ε ℓ' μ' α' ε' : Type u}

/-- What a run did, latest first. -/
def schedule (π : List (Transition τ ℓ μ α ε)) : List (τ × α) := π.map fun x => (x.tid, x.act)

/-- **What a run did at its points**, latest first. -/
def points (point : State τ ℓ μ → τ → α → Option α') (π : List (Transition τ ℓ μ α ε)) :
    List (τ × α') :=
  π.filterMap fun x => (point x.pre x.tid x.act).map fun b => (x.tid, b)

/-- **What a run showed at its points**, latest first. -/
def shown (point : State τ ℓ μ → τ → α → Option α') (π : List (Transition τ ℓ μ α ε)) : List ε :=
  π.filterMap fun x => (point x.pre x.tid x.act).map fun _ => x.ev

section

variable {point : State τ ℓ μ → τ → α → Option α'} {π : List (Transition τ ℓ μ α ε)}
  {s : State τ ℓ μ} {t : τ} {a : α} {e : ε}

theorem points_cons_none (h : point s t a = none) :
    points point (⟨s, t, a, e⟩ :: π) = points point π := by
  simp [points, h]

theorem points_cons_some {b : α'} (h : point s t a = some b) :
    points point (⟨s, t, a, e⟩ :: π) = (t, b) :: points point π := by
  simp [points, h]

theorem shown_cons_none (h : point s t a = none) :
    shown point (⟨s, t, a, e⟩ :: π) = shown point π := by
  simp [shown, h]

theorem shown_cons_some {b : α'} (h : point s t a = some b) :
    shown point (⟨s, t, a, e⟩ :: π) = e :: shown point π := by
  simp [shown, h]

end

namespace Program

variable [DecidableEq τ] {p : Program τ ℓ μ α ε} {q : Program τ ℓ' μ' α' ε'}

/-- **The linearization rule**: where each allowed step of `p` that is no point leaves the view
alone, and each that is one takes its operation in `q`, a run of `p` read at its points is a run of
`q`, and shows there what `C` lets it show. -/
theorem Path.linearizes_showing (point : State τ ℓ μ → τ → α → Option α')
    (view : List ε → State τ ℓ μ → State τ ℓ' μ') (I : List ε → State τ ℓ μ → Prop)
    (E : State τ ℓ μ → τ → α → Prop) (C : ε → ε' → Prop)
    (step : ∀ h s t a l m e, I h s → E s t a → p.exec t a (s.loc t) s.mem = some (l, m, e) →
      I (e :: h) (s.move t l m) ∧
      (point s t a = none ∧ view (e :: h) (s.move t l m) = view h s ∨
        ∃ b e', point s t a = some b ∧
          q.step (view h s) t b = some (view (e :: h) (s.move t l m), e') ∧ C e e'))
    {s s' : State τ ℓ μ} {π : List (Transition τ ℓ μ α ε)} (hp : p.Path s π s')
    (hE : Allowed E π) (init : I [] s) :
    I (events π) s' ∧ ∃ ρ, q.Path (view [] s) ρ (view (events π) s') ∧
      schedule ρ = points point π ∧ List.Forall₂ C (shown point π) (events ρ) := by
  induction hp with
  | nil => exact ⟨init, [], .nil _, rfl, .nil⟩
  | @snoc s₁ s₂ π t a e _ hs ih =>
    obtain ⟨l, m, hx, rfl⟩ := step_eq_some.mp hs
    obtain ⟨hEx, hπ⟩ := allowed_cons.mp hE
    obtain ⟨hI, ρ, hρ, hsched, hC⟩ := ih hπ
    obtain ⟨hI', ⟨hnone, hview⟩ | ⟨b, e', hb, hq, he⟩⟩ := step _ _ _ _ _ _ _ hI hEx hx
    · refine ⟨hI', ρ, ?_, hsched.trans (points_cons_none hnone).symm, ?_⟩
      · rw [events_cons, hview]
        exact hρ
      · rw [shown_cons_none hnone]
        exact hC
    · refine ⟨hI', ⟨view (events π) s₁, t, b, e'⟩ :: ρ, hρ.snoc hq, ?_, ?_⟩
      · rw [points_cons_some hb, ← hsched]
        rfl
      · rw [shown_cons_some hb]
        exact .cons he hC

/-- …where nothing is asked of what it shows. -/
theorem Path.linearizes (point : State τ ℓ μ → τ → α → Option α')
    (view : List ε → State τ ℓ μ → State τ ℓ' μ') (I : List ε → State τ ℓ μ → Prop)
    (E : State τ ℓ μ → τ → α → Prop)
    (step : ∀ h s t a l m e, I h s → E s t a → p.exec t a (s.loc t) s.mem = some (l, m, e) →
      I (e :: h) (s.move t l m) ∧
      (point s t a = none ∧ view (e :: h) (s.move t l m) = view h s ∨
        ∃ b e', point s t a = some b ∧
          q.step (view h s) t b = some (view (e :: h) (s.move t l m), e')))
    {s s' : State τ ℓ μ} {π : List (Transition τ ℓ μ α ε)} (hp : p.Path s π s')
    (hE : Allowed E π) (init : I [] s) :
    I (events π) s' ∧ ∃ ρ, q.Path (view [] s) ρ (view (events π) s') ∧
      schedule ρ = points point π := by
  obtain ⟨hI, ρ, hρ, hsched, -⟩ := hp.linearizes_showing point view I E (fun _ _ => True)
    (fun h s t a l m e hi ha hx => (step h s t a l m e hi ha hx).imp_right <|
      .imp_right fun ⟨b, e', hb, hq⟩ => ⟨b, e', hb, hq, trivial⟩) hE init
  exact ⟨hI, ρ, hρ, hsched⟩

end Program

end Interleaving
