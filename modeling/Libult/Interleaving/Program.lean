import Mathlib.Logic.Function.Basic
import Mathlib.Data.List.Basic

/-!
# Interleaving/Program — threads over one memory, and their runs

A program says what one action of one thread does to the thread's own location and to the memory
all threads share.  A **path** is any interleaving of such actions; its transitions are kept, latest
first, so that an assumption on the environment is a condition on every transition of a path and the
history of a run is the list of its events.
-/

namespace Interleaving

universe u

variable {τ ℓ μ α ε : Type u}

/-- What one action of one thread does: its new location, the new memory and the observable event.
`none` is an action the thread cannot take now — it is blocked, or not at that point. -/
structure Program (τ ℓ μ α ε : Type u) where
  exec : τ → α → ℓ → μ → Option (ℓ × μ × ε)

/-- The locations of all threads and the memory they share. -/
structure State (τ ℓ μ : Type u) where
  loc : τ → ℓ
  mem : μ

/-- One thread has moved to a new location and left a new memory. -/
def State.move [DecidableEq τ] (s : State τ ℓ μ) (t : τ) (l : ℓ) (m : μ) : State τ ℓ μ :=
  ⟨Function.update s.loc t l, m⟩

section Move

variable [DecidableEq τ] (s : State τ ℓ μ) (t : τ) (l : ℓ) (m : μ)

@[simp] theorem State.move_mem : (s.move t l m).mem = m := rfl

@[simp] theorem State.move_loc_self : (s.move t l m).loc t = l := Function.update_self ..

theorem State.move_loc_of_ne {t' : τ} (h : t' ≠ t) : (s.move t l m).loc t' = s.loc t' :=
  Function.update_of_ne h ..

@[simp] theorem State.move_self : s.move t (s.loc t) s.mem = s := by
  rw [State.move, Function.update_eq_self]

@[simp] theorem State.move_move (l' : ℓ) (m' : μ) :
    (s.move t l m).move t l' m' = s.move t l' m' := by
  rw [State.move, State.move, State.move, Function.update_idem]

/-- **A fact of every thread after a move**: of the mover at its new location, of the others where
they were. -/
theorem State.forall_move {A : τ → ℓ → Prop} :
    (∀ t', A t' ((s.move t l m).loc t')) ↔ A t l ∧ ∀ t', t' ≠ t → A t' (s.loc t') :=
  Function.forall_update_iff s.loc A

end Move

/-- One step of a run: who acted in which state, and what was observed. -/
structure Transition (τ ℓ μ α ε : Type u) where
  pre : State τ ℓ μ
  tid : τ
  act : α
  ev : ε

namespace Program

variable [DecidableEq τ] (p : Program τ ℓ μ α ε)

/-- One thread takes one action. -/
def step (s : State τ ℓ μ) (t : τ) (a : α) : Option (State τ ℓ μ × ε) :=
  (p.exec t a (s.loc t) s.mem).map fun r => (s.move t r.1 r.2.1, r.2.2)

variable {p}

/-- What a step does is what the thread's own action does, at its location. -/
theorem step_eq_some {s s' : State τ ℓ μ} {t : τ} {a : α} {e : ε} :
    p.step s t a = some (s', e) ↔
      ∃ l m, p.exec t a (s.loc t) s.mem = some (l, m, e) ∧ s' = s.move t l m := by
  rw [step, Option.map_eq_some_iff]
  constructor
  · rintro ⟨⟨l, m, e'⟩, h, hs⟩
    obtain ⟨rfl, rfl⟩ := Prod.ext_iff.mp hs
    exact ⟨l, m, h, rfl⟩
  · rintro ⟨l, m, h, rfl⟩
    exact ⟨(l, m, e), h, rfl⟩

variable (p)

/-- The paths of a program: every interleaving of its threads' actions, latest transition first. -/
inductive Path : State τ ℓ μ → List (Transition τ ℓ μ α ε) → State τ ℓ μ → Prop
  | nil (s : State τ ℓ μ) : Path s [] s
  | snoc {s s' s'' : State τ ℓ μ} {π : List (Transition τ ℓ μ α ε)} {t : τ} {a : α} {e : ε} :
      Path s π s' → p.step s' t a = some (s'', e) → Path s (⟨s', t, a, e⟩ :: π) s''

/-- Run a schedule: the state it ends in and the transitions it took, latest first. -/
def run : State τ ℓ μ → List (Transition τ ℓ μ α ε) → List (τ × α) →
    Option (State τ ℓ μ × List (Transition τ ℓ μ α ε))
  | s, π, [] => some (s, π)
  | s, π, (t, a) :: as =>
      match p.step s t a with
      | none => none
      | some (s', e) => run s' (⟨s, t, a, e⟩ :: π) as

end Program

/-- The history of a run: its events, latest first. -/
def events (π : List (Transition τ ℓ μ α ε)) : List ε := π.map Transition.ev

@[simp] theorem events_nil : events ([] : List (Transition τ ℓ μ α ε)) = [] := rfl

@[simp] theorem events_cons (x : Transition τ ℓ μ α ε) (π : List (Transition τ ℓ μ α ε)) :
    events (x :: π) = x.ev :: events π := rfl

@[simp] theorem events_append (π ρ : List (Transition τ ℓ μ α ε)) :
    events (π ++ ρ) = events π ++ events ρ := List.map_append

/-- Every transition of a run was taken as the environment allows. -/
def Allowed (E : State τ ℓ μ → τ → α → Prop) (π : List (Transition τ ℓ μ α ε)) : Prop :=
  ∀ x ∈ π, E x.pre x.tid x.act

theorem allowed_nil (E : State τ ℓ μ → τ → α → Prop) :
    Allowed E ([] : List (Transition τ ℓ μ α ε)) := fun _ h => absurd h (by simp)

theorem allowed_cons {E : State τ ℓ μ → τ → α → Prop} {x : Transition τ ℓ μ α ε}
    {π : List (Transition τ ℓ μ α ε)} :
    Allowed E (x :: π) ↔ E x.pre x.tid x.act ∧ Allowed E π := List.forall_mem_cons

instance (E : State τ ℓ μ → τ → α → Prop) [∀ s t a, Decidable (E s t a)]
    (π : List (Transition τ ℓ μ α ε)) : Decidable (Allowed E π) :=
  inferInstanceAs (Decidable (∀ x ∈ π, E x.pre x.tid x.act))

theorem Allowed.mono {E F : State τ ℓ μ → τ → α → Prop} {π : List (Transition τ ℓ μ α ε)}
    (h : Allowed E π) (hEF : ∀ s t a, E s t a → F s t a) : Allowed F π :=
  fun x hx => hEF _ _ _ (h x hx)

/-- A fact of every state of a run. -/
def Throughout (P : State τ ℓ μ → Prop) (π : List (Transition τ ℓ μ α ε))
    (s : State τ ℓ μ) : Prop :=
  P s ∧ ∀ x ∈ π, P x.pre

theorem throughout_nil {P : State τ ℓ μ → Prop} {s : State τ ℓ μ} :
    Throughout P ([] : List (Transition τ ℓ μ α ε)) s ↔ P s := by
  simp [Throughout]

theorem throughout_cons {P : State τ ℓ μ → Prop} {x : Transition τ ℓ μ α ε}
    {π : List (Transition τ ℓ μ α ε)} {s : State τ ℓ μ} :
    Throughout P (x :: π) s ↔ P s ∧ Throughout P π x.pre :=
  and_congr_right' List.forall_mem_cons

theorem Throughout.mono {P Q : State τ ℓ μ → Prop} {π : List (Transition τ ℓ μ α ε)}
    {s : State τ ℓ μ} (h : Throughout P π s) (hPQ : ∀ s, P s → Q s) : Throughout Q π s :=
  ⟨hPQ s h.1, fun x hx => hPQ _ (h.2 x hx)⟩

namespace Program

variable [DecidableEq τ] {p : Program τ ℓ μ α ε}

/-- **The invariant rule**, from any point of a run on: what holds there and is kept by every
allowed action of every thread holds at the end. -/
theorem Path.invariant_from (I : List ε → State τ ℓ μ → Prop) (E : State τ ℓ μ → τ → α → Prop)
    (step : ∀ h s t a l m e, I h s → E s t a → p.exec t a (s.loc t) s.mem = some (l, m, e) →
      I (e :: h) (s.move t l m))
    {s s' : State τ ℓ μ} {π : List (Transition τ ℓ μ α ε)} (hp : p.Path s π s')
    (hE : Allowed E π) {h₀ : List ε} (init : I h₀ s) : I (events π ++ h₀) s' := by
  induction hp with
  | nil => exact init
  | snoc _ hs ih =>
    obtain ⟨hx, hπ⟩ := allowed_cons.mp hE
    obtain ⟨l, m, hexec, rfl⟩ := step_eq_some.mp hs
    exact step _ _ _ _ _ _ _ (ih hπ) hx hexec

/-- …and from its start. -/
theorem Path.invariant (I : List ε → State τ ℓ μ → Prop) (E : State τ ℓ μ → τ → α → Prop)
    (step : ∀ h s t a l m e, I h s → E s t a → p.exec t a (s.loc t) s.mem = some (l, m, e) →
      I (e :: h) (s.move t l m))
    {s s' : State τ ℓ μ} {π : List (Transition τ ℓ μ α ε)} (hp : p.Path s π s')
    (hE : Allowed E π) (init : I [] s) : I (events π) s' :=
  List.append_nil (events π) ▸ hp.invariant_from I E step hE init

/-- Paths compose. -/
theorem Path.append {s s' s'' : State τ ℓ μ} {π ρ : List (Transition τ ℓ μ α ε)}
    (h : p.Path s π s') (h' : p.Path s' ρ s'') : p.Path s (ρ ++ π) s'' := by
  induction h' with
  | nil => exact h
  | snoc _ hs ih => exact ih.snoc hs

/-- A path splits at any of its transitions. -/
theorem Path.split {s s' : State τ ℓ μ} {ρ π : List (Transition τ ℓ μ α ε)}
    {x : Transition τ ℓ μ α ε} (h : p.Path s (ρ ++ x :: π) s') :
    p.Path s π x.pre ∧ ∃ s₁, p.step x.pre x.tid x.act = some (s₁, x.ev) ∧ p.Path s₁ ρ s' := by
  induction ρ generalizing s' with
  | nil =>
    obtain _ | ⟨hp, hs⟩ := h
    exact ⟨hp, s', hs, .nil s'⟩
  | cons y ρ ih =>
    obtain _ | ⟨hp, hs⟩ := h
    obtain ⟨hπ, s₁, hx, hρ⟩ := ih hp
    exact ⟨hπ, s₁, hx, hρ.snoc hs⟩

/-- What holds throughout a path holds where it starts. -/
theorem Path.start_of_throughout {P : State τ ℓ μ → Prop} {s s' : State τ ℓ μ}
    {π : List (Transition τ ℓ μ α ε)} (hp : p.Path s π s') (h : Throughout P π s') : P s := by
  induction hp with
  | nil => exact h.1
  | snoc _ _ ih => exact ih (throughout_cons.mp h).2

/-- **Threads that never act stay where they are.** -/
theorem Path.untouched {A : τ → Prop} {s s' : State τ ℓ μ} {π : List (Transition τ ℓ μ α ε)}
    (hp : p.Path s π s') (hA : ∀ x ∈ π, A x.tid) :
    Throughout (fun s₁ => ∀ t, ¬ A t → s₁.loc t = s.loc t) π s' := by
  induction hp with
  | nil => exact throughout_nil.mpr fun _ _ => rfl
  | snoc _ hs ih =>
    obtain ⟨hx, hπ⟩ := List.forall_mem_cons.mp hA
    obtain ⟨l, m, -, rfl⟩ := step_eq_some.mp hs
    refine throughout_cons.mpr ⟨fun t ht => ?_, ih hπ⟩
    rw [State.move_loc_of_ne _ _ _ _ fun h => ht (by rw [h]; exact hx)]
    exact (ih hπ).1 t ht

/-- **A condition checked on the threads that act** is the condition, if it follows where the others
are at their start. -/
theorem Path.allowed_of_acting {A : τ → Prop} {s s' : State τ ℓ μ}
    {π : List (Transition τ ℓ μ α ε)} {E F : State τ ℓ μ → τ → α → Prop} (hp : p.Path s π s')
    (hA : ∀ x ∈ π, A x.tid)
    (hEF : ∀ s₁ t a, (∀ t', ¬ A t' → s₁.loc t' = s.loc t') → E s₁ t a → F s₁ t a)
    (hE : Allowed E π) : Allowed F π :=
  fun x hx => hEF _ _ _ ((hp.untouched hA).2 x hx) (hE x hx)

/-- **The refinement rule**: where each allowed step of `p` leaves the view of the state alone or is
a step of `q` on it, a run of `p` is on the views a run of `q`, every step of which comes from one of
`p`. -/
theorem Path.refines {ℓ' μ' α' ε' : Type u} {q : Program τ ℓ' μ' α' ε'}
    (view : State τ ℓ μ → State τ ℓ' μ') (I : State τ ℓ μ → Prop) (E : State τ ℓ μ → τ → α → Prop)
    (C : State τ ℓ μ → α → α' → Prop)
    (step : ∀ s t a l m e, I s → E s t a → p.exec t a (s.loc t) s.mem = some (l, m, e) →
      I (s.move t l m) ∧ (view (s.move t l m) = view s ∨
        ∃ b e', q.step (view s) t b = some (view (s.move t l m), e') ∧ C s a b))
    {s s' : State τ ℓ μ} {π : List (Transition τ ℓ μ α ε)} (hp : p.Path s π s')
    (hE : Allowed E π) (init : I s) :
    I s' ∧ ∃ ρ, q.Path (view s) ρ (view s') ∧
      ∀ y ∈ ρ, ∃ x ∈ π, y.pre = view x.pre ∧ y.tid = x.tid ∧ C x.pre x.act y.act := by
  induction hp with
  | nil => exact ⟨init, [], .nil _, by simp⟩
  | @snoc s₁ s₂ π t a e _ hs ih =>
    obtain ⟨hx, hπ⟩ := allowed_cons.mp hE
    obtain ⟨l, m, hexec, rfl⟩ := step_eq_some.mp hs
    obtain ⟨hI, ρ, hρ, hC⟩ := ih hπ
    have hC' : ∀ y ∈ ρ, ∃ x ∈ (⟨s₁, t, a, e⟩ :: π : List (Transition τ ℓ μ α ε)),
        y.pre = view x.pre ∧ y.tid = x.tid ∧ C x.pre x.act y.act := fun y hy =>
      (hC y hy).imp fun x hx => ⟨List.mem_cons_of_mem _ hx.1, hx.2⟩
    obtain ⟨hI', hview | ⟨b, e', hb, hab⟩⟩ := step _ _ _ _ _ _ hI hx hexec
    · exact ⟨hI', ρ, hview ▸ hρ, hC'⟩
    · exact ⟨hI', _, hρ.snoc hb, List.forall_mem_cons.mpr
        ⟨⟨_, List.mem_cons_self, rfl, rfl, hab⟩, hC'⟩⟩

/-- A schedule that runs is a path. -/
theorem path_of_run {s s' : State τ ℓ μ} {π : List (Transition τ ℓ μ α ε)} {as : List (τ × α)}
    (h : p.run s [] as = some (s', π)) : p.Path s π s' := by
  suffices ∀ (as : List (τ × α)) (s₀ s : State τ ℓ μ) (π₀ : List (Transition τ ℓ μ α ε)),
      p.Path s₀ π₀ s → p.run s π₀ as = some (s', π) → p.Path s₀ π s' from
    this as s s [] (.nil s) h
  intro as
  induction as with
  | nil =>
    intro s₀ s π₀ hp h
    obtain ⟨rfl, rfl⟩ := Prod.ext_iff.mp (Option.some.inj h)
    exact hp
  | cons x as ih =>
    intro s₀ s π₀ hp h
    rw [run] at h
    split at h
    · exact absurd h (by simp)
    · exact ih _ _ _ (hp.snoc ‹_›) h

/-- The transitions of a run are the actions of its schedule. -/
theorem run_schedule {s s' : State τ ℓ μ} {π₀ π : List (Transition τ ℓ μ α ε)} {as : List (τ × α)}
    (h : p.run s π₀ as = some (s', π)) :
    π.map (fun x => (x.tid, x.act)) = as.reverse ++ π₀.map fun x => (x.tid, x.act) := by
  induction as generalizing s π₀ with
  | nil =>
    obtain ⟨-, rfl⟩ := Prod.ext_iff.mp (Option.some.inj h)
    rfl
  | cons x as ih =>
    rw [run] at h
    split at h
    · exact absurd h (by simp)
    · rw [ih h, List.reverse_cons, List.append_assoc]
      rfl

/-- …so they are of the threads the schedule names. -/
theorem tid_of_run {P : τ → Prop} {s s' : State τ ℓ μ} {π : List (Transition τ ℓ μ α ε)}
    {as : List (τ × α)} (h : p.run s [] as = some (s', π)) (hP : ∀ y ∈ as, P y.1) :
    ∀ x ∈ π, P x.tid := fun x hx => by
  have hmem : (x.tid, x.act) ∈ as.reverse ++ [] :=
    run_schedule h ▸ List.mem_map_of_mem (f := fun x => (x.tid, x.act)) hx
  exact hP _ (by simpa using hmem)

/-- Two schedules, one after the other. -/
theorem run_append {s : State τ ℓ μ} {π : List (Transition τ ℓ μ α ε)} {as bs : List (τ × α)} :
    p.run s π (as ++ bs) = (p.run s π as).bind fun r => p.run r.1 r.2 bs := by
  induction as generalizing s π with
  | nil => rfl
  | cons x as ih =>
    rw [List.cons_append, run, run]
    cases p.step s x.1 x.2 with
    | none => rfl
    | some r => exact ih

/-- **A path is the run of what it did.** -/
theorem Path.run_eq {s s' : State τ ℓ μ} {π : List (Transition τ ℓ μ α ε)} (hp : p.Path s π s') :
    p.run s [] (π.map fun x => (x.tid, x.act)).reverse = some (s', π) := by
  induction hp with
  | nil => rfl
  | snoc _ hs ih =>
    rw [List.map_cons, List.reverse_cons, run_append, ih, Option.bind_some, run, hs]
    rfl

/-- **A schedule that runs and passes a check** is a path that passes it. -/
theorem exists_path_of_run {s : State τ ℓ μ} (as : List (τ × α))
    {P : State τ ℓ μ → List (Transition τ ℓ μ α ε) → Prop} [∀ s π, Decidable (P s π)]
    (h : (p.run s [] as).any (fun r => decide (P r.1 r.2)) = true) :
    ∃ s' π, p.Path s π s' ∧ P s' π := by
  obtain ⟨⟨s', π⟩, hr, hP⟩ := (Option.any_eq_true _ _).mp h
  exact ⟨s', π, path_of_run hr, of_decide_eq_true hP⟩

/-- …and two schedules, one after the other, two paths. -/
theorem exists_paths_of_run {s : State τ ℓ μ} (as bs : List (τ × α))
    {P : State τ ℓ μ → List (Transition τ ℓ μ α ε) → State τ ℓ μ → List (Transition τ ℓ μ α ε) →
      Prop} [∀ s π s' ρ, Decidable (P s π s' ρ)]
    (h : (p.run s [] as).any (fun r => (p.run r.1 [] bs).any fun q =>
      decide (P r.1 r.2 q.1 q.2)) = true) :
    ∃ s₁ π s₂ ρ, p.Path s π s₁ ∧ p.Path s₁ ρ s₂ ∧ P s₁ π s₂ ρ := by
  obtain ⟨⟨s₁, π⟩, hr, h⟩ := (Option.any_eq_true _ _).mp h
  obtain ⟨⟨s₂, ρ⟩, hq, hP⟩ := (Option.any_eq_true _ _).mp h
  exact ⟨s₁, π, s₂, ρ, path_of_run hr, path_of_run hq, of_decide_eq_true hP⟩

end Program

end Interleaving
