import Mathlib.Data.List.Basic

/-!
# Qthreads/Fifo — what a condition variable is for

The waiters stand in a queue, in the order of their arrival.  A signal is to mark the oldest, a
broadcast all of them; the section that does so ends when nobody is left to be marked, and only then
may a marked waiter go.

    arrive ─▸ queue ─signal, broadcast─▸ owed ─mark─▸ woken ─done─▸ (free to go back)
-/

namespace Libult.Qthreads

universe u

variable {α : Type u}

/-- What the operations show of themselves, of waiters named by `α`. -/
inductive Event (α : Type u)
  | tau
  /-- A wait takes the condition's lock to enter. -/
  | arrive (w : α)
  /-- A signal, or a broadcast, takes it. -/
  | signal
  | broadcast
  | mark (w : α)
  /-- A signal, or a broadcast, gives it back. -/
  | done
  /-- A wait returns. -/
  | back (w : α)
  deriving DecidableEq, Repr

/-- **The wait queue.** -/
structure Fifo (α : Type u) where
  /-- Oldest first. -/
  queue : List α
  /-- Those the running signal or broadcast is still to mark. -/
  owed : List α
  /-- Those it has marked. -/
  woken : List α
  deriving DecidableEq, Repr

namespace Fifo

def empty : Fifo α := ⟨[], [], []⟩

/-- Those not marked yet. -/
def unmarked (f : Fifo α) : List α := f.owed ++ f.queue

/-- Those that may not go yet. -/
def all (f : Fifo α) : List α := f.woken ++ f.unmarked

variable [DecidableEq α]

/-- **The machine**: `none` is what a wait queue does not do. -/
def step (f : Fifo α) : Event α → Option (Fifo α)
  | .tau => some f
  | .arrive w =>
      if f.owed = [] ∧ f.woken = [] ∧ w ∉ f.queue then some ⟨f.queue ++ [w], [], []⟩ else none
  | .signal =>
      if f.owed = [] ∧ f.woken = [] then some ⟨f.queue.drop 1, f.queue.take 1, []⟩ else none
  | .broadcast => if f.owed = [] ∧ f.woken = [] then some ⟨[], f.queue, []⟩ else none
  | .mark w => if f.owed.head? = some w then some ⟨f.queue, f.owed.tail, f.woken ++ [w]⟩ else none
  | .done => if f.owed = [] then some ⟨f.queue, [], []⟩ else none
  | .back w => if w ∈ f.all then none else some f

/-- The machine after a history, latest event first. -/
def run : List (Event α) → Option (Fifo α)
  | [] => some empty
  | e :: h => (run h).bind (·.step e)

end Fifo

variable [DecidableEq α]

/-- How often `w` has been marked since it last arrived. -/
def marks (w : α) : List (Event α) → Option ℕ
  | [] => none
  | .arrive w' :: h => if w' = w then some 0 else marks w h
  | .mark w' :: h => if w' = w then (marks w h).map (· + 1) else marks w h
  | _ :: h => marks w h

/-- Whom a stretch of history marks, oldest first. -/
def marked : List (Event α) → List α
  | [] => []
  | .mark w :: h => marked h ++ [w]
  | _ :: h => marked h

/-- No signal or broadcast begins or ends. -/
def Event.inner : Event α → Bool
  | .signal | .broadcast | .done => false
  | _ => true

theorem marks_cons {w : α} {e : Event α} {h : List (Event α)} (he : e ≠ .arrive w)
    (hm : e ≠ .mark w) : marks w (e :: h) = marks w h := by
  cases e <;> simp_all [marks]

/-- Whoever has arrived has its marks counted. -/
theorem exists_marks {w : α} {h : List (Event α)} (hw : .arrive w ∈ h) :
    ∃ n, marks w h = some n := by
  induction h with
  | nil => exact absurd hw List.not_mem_nil
  | cons e h ih =>
    by_cases he : e = .arrive w
    · exact ⟨0, by simp [marks, he]⟩
    · obtain ⟨n, hn⟩ := ih ((List.mem_cons.mp hw).resolve_left (Ne.symm he))
      by_cases hm : e = .mark w
      · exact ⟨n + 1, by simp [marks, hm, hn]⟩
      · exact ⟨n, by rw [marks_cons he hm, hn]⟩

namespace Fifo

variable {f f' : Fifo α} {e : Event α} {h : List (Event α)} {w : α}

theorem run_cons : run (e :: h) = some f' ↔ ∃ f, run h = some f ∧ f.step e = some f' :=
  Option.bind_eq_some_iff

/-! ## Nobody stands in the queue twice -/

theorem step_nodup (hs : f.step e = some f') (hd : f.all.Nodup) : f'.all.Nodup := by
  obtain ⟨q, o, k⟩ := f
  cases e <;> simp only [step, Option.ite_none_right_eq_some, Option.ite_none_left_eq_some,
    Option.some.injEq] at hs
  case tau => exact hs ▸ hd
  case arrive w =>
    obtain ⟨⟨rfl, rfl, hw⟩, rfl⟩ := hs
    show (q ++ [w]).Nodup
    refine List.nodup_append.mpr ⟨hd, by simp, fun a ha b hb => ?_⟩
    rintro rfl
    exact hw (List.mem_singleton.mp hb ▸ ha)
  case signal =>
    obtain ⟨⟨rfl, rfl⟩, rfl⟩ := hs
    simpa only [all, unmarked, List.nil_append, List.take_append_drop] using hd
  case broadcast =>
    obtain ⟨⟨rfl, rfl⟩, rfl⟩ := hs
    simpa only [all, unmarked, List.nil_append, List.append_nil] using hd
  case mark w =>
    obtain ⟨ho, rfl⟩ := hs
    obtain ⟨o, rfl⟩ := List.head?_eq_some_iff.mp ho
    simpa only [all, unmarked, List.tail_cons, List.append_assoc, List.cons_append,
      List.nil_append] using hd
  case done =>
    obtain ⟨rfl, rfl⟩ := hs
    exact (List.nodup_append.mp hd).2.1
  case back w => exact hs.2 ▸ hd

theorem nodup (hr : run h = some f) : f.all.Nodup := by
  induction h generalizing f with
  | nil => cases hr; exact .nil
  | cons e h ih =>
    obtain ⟨f₀, hr, hs⟩ := run_cons.mp hr
    exact step_nodup hs (ih hr)

/-- Only an arrival lets somebody in. -/
theorem mem_all_step (hs : f.step e = some f') (hw : w ∈ f'.all) : w ∈ f.all ∨ e = .arrive w := by
  obtain ⟨q, o, k⟩ := f
  cases e <;> simp only [step, Option.ite_none_right_eq_some, Option.ite_none_left_eq_some,
    Option.some.injEq] at hs
  case tau => exact .inl (hs ▸ hw)
  case arrive w' =>
    obtain ⟨⟨rfl, rfl, -⟩, rfl⟩ := hs
    simpa [all, unmarked, eq_comm] using hw
  case signal =>
    obtain ⟨⟨rfl, rfl⟩, rfl⟩ := hs
    simpa only [all, unmarked, List.nil_append, List.take_append_drop, reduceCtorEq, or_false]
      using hw
  case broadcast =>
    obtain ⟨⟨rfl, rfl⟩, rfl⟩ := hs
    simpa [all, unmarked] using hw
  case mark w' =>
    obtain ⟨ho, rfl⟩ := hs
    obtain ⟨o, rfl⟩ := List.head?_eq_some_iff.mp ho
    simpa [all, unmarked] using hw
  case done =>
    obtain ⟨rfl, rfl⟩ := hs
    exact .inl (List.mem_append_right _ hw)
  case back w' => exact .inl (hs.2 ▸ hw)

/-! ## Marked exactly once -/

/-- How a step changes the unmarked: an arrival adds one, a mark strikes one off. -/
theorem mem_unmarked_step (hs : f.step e = some f') (hd : f.all.Nodup) :
    w ∈ f'.unmarked ↔ e = .arrive w ∨ w ∈ f.unmarked ∧ e ≠ .mark w := by
  obtain ⟨q, o, k⟩ := f
  cases e <;> simp only [step, Option.ite_none_right_eq_some, Option.ite_none_left_eq_some,
    Option.some.injEq] at hs
  case tau => simp [← hs]
  case arrive w' =>
    obtain ⟨⟨rfl, rfl, -⟩, rfl⟩ := hs
    simp [unmarked, or_comm, eq_comm]
  case signal =>
    obtain ⟨⟨rfl, rfl⟩, rfl⟩ := hs
    rw [unmarked, List.take_append_drop]
    simp [unmarked]
  case broadcast =>
    obtain ⟨⟨rfl, rfl⟩, rfl⟩ := hs
    simp [unmarked]
  case mark w' =>
    obtain ⟨ho, rfl⟩ := hs
    obtain ⟨o, rfl⟩ := List.head?_eq_some_iff.mp ho
    have hne : w' ∉ o ++ q := (List.nodup_cons.mp (List.nodup_append.mp hd).2.1).1
    have : w ∈ o ++ q → w' ≠ w := fun hw hww => hne (hww ▸ hw)
    simp only [unmarked, List.tail_cons, List.cons_append, List.mem_cons, reduceCtorEq, false_or,
      ne_eq, Event.mark.injEq]
    grind
  case done =>
    obtain ⟨rfl, rfl⟩ := hs
    simp [unmarked]
  case back w' => simp [← hs.2]

/-- Who is marked was the oldest still owed it. -/
theorem mem_of_mark (hs : f.step (.mark w) = some f') : w ∈ f.unmarked := by
  rw [step, Option.ite_none_right_eq_some] at hs
  exact List.mem_append_left _ (List.mem_of_head? hs.1)

/-- How many are unmarked: a mark takes one… -/
theorem length_mark (hs : f.step (.mark w) = some f') :
    f'.unmarked.length + 1 = f.unmarked.length := by
  obtain ⟨q, o, k⟩ := f
  rw [step, Option.ite_none_right_eq_some] at hs
  obtain ⟨ho, hs⟩ := hs
  obtain rfl := Option.some.inj hs
  obtain ⟨o, rfl⟩ := List.head?_eq_some_iff.mp ho
  simp [unmarked]

/-- …and only an arrival brings one. -/
theorem length_le (hs : f.step e = some f') (he : ∀ w, e ≠ .arrive w) :
    f'.unmarked.length ≤ f.unmarked.length := by
  obtain ⟨q, o, k⟩ := f
  cases e <;> simp only [step, Option.ite_none_right_eq_some, Option.ite_none_left_eq_some,
    Option.some.injEq] at hs
  case tau => exact hs ▸ Nat.le_refl _
  case arrive w => exact absurd rfl (he w)
  case signal =>
    obtain ⟨⟨rfl, rfl⟩, rfl⟩ := hs
    simp [unmarked]
    omega
  case broadcast =>
    obtain ⟨⟨rfl, rfl⟩, rfl⟩ := hs
    simp [unmarked]
  case mark w =>
    obtain ⟨-, rfl⟩ := hs
    simp [unmarked]
  case done =>
    obtain ⟨rfl, rfl⟩ := hs
    simp [unmarked]
  case back w => exact hs.2 ▸ Nat.le_refl _

/-- **Whoever has arrived has been marked once, unless it is among the unmarked.** -/
theorem marks_of_run (hr : run h = some f) (w : α) :
    if w ∈ f.unmarked then marks w h = some 0 else ∀ n ∈ marks w h, n = 1 := by
  induction h generalizing f with
  | nil =>
    cases hr
    simp [empty, unmarked, marks]
  | cons e h ih =>
    obtain ⟨f₀, hr, hs⟩ := run_cons.mp hr
    have ih := ih hr
    have hmem := mem_unmarked_step (w := w) hs (nodup hr)
    by_cases he : e = .arrive w
    · simp [hmem, he, marks]
    by_cases hm : e = .mark w
    · subst hm
      rw [if_pos (mem_of_mark hs)] at ih
      simp [hmem, marks, ih]
    · simpa [hmem, he, hm, marks_cons he hm] using ih

/-! ## Whom a signal marks, and whom a broadcast -/

/-- Between the ends of a section the woken and the owed are the same, and the marks move them. -/
theorem inner_step (hs : f.step e = some f') (he : e.inner = true) :
    f'.woken ++ f'.owed = f.woken ++ f.owed ∧ f'.woken = f.woken ++ marked [e] := by
  obtain ⟨q, o, k⟩ := f
  cases e <;> first | exact absurd he Bool.false_ne_true | skip
  all_goals simp only [step, Option.ite_none_right_eq_some, Option.ite_none_left_eq_some,
    Option.some.injEq] at hs
  case tau => simp [← hs, marked]
  case arrive w =>
    obtain ⟨⟨rfl, rfl, -⟩, rfl⟩ := hs
    simp [marked]
  case mark w =>
    obtain ⟨ho, rfl⟩ := hs
    obtain ⟨o, rfl⟩ := List.head?_eq_some_iff.mp ho
    simp [marked]
  case back w => simp [← hs.2, marked]

omit [DecidableEq α] in
theorem marked_cons (ρ : List (Event α)) : marked (e :: ρ) = marked ρ ++ marked [e] := by
  cases e <;> simp [marked]

theorem inner_run {ρ : List (Event α)} (hr : run (ρ ++ h) = some f') (hf : run h = some f)
    (hρ : ∀ e ∈ ρ, e.inner = true) :
    f'.woken ++ f'.owed = f.woken ++ f.owed ∧ f'.woken = f.woken ++ marked ρ := by
  induction ρ generalizing f' with
  | nil =>
    obtain rfl := Option.some.inj (hf.symm.trans hr)
    simp [marked]
  | cons e ρ ih =>
    obtain ⟨he, hρ⟩ := List.forall_mem_cons.mp hρ
    obtain ⟨f₁, hr, hs⟩ := run_cons.mp hr
    obtain ⟨h₁, h₂⟩ := ih hr hρ
    obtain ⟨h₃, h₄⟩ := inner_step hs he
    exact ⟨h₃.trans h₁, by rw [h₄, h₂, marked_cons ρ, List.append_assoc]⟩

theorem exists_run {ρ : List (Event α)} (hr : run (ρ ++ h) = some f') : ∃ f, run h = some f := by
  induction ρ generalizing f' with
  | nil => exact ⟨f', hr⟩
  | cons e ρ ih =>
    obtain ⟨f₁, hr, -⟩ := run_cons.mp hr
    exact ih hr

/-- **A section marks exactly those it began by owing.** -/
theorem marked_of_section {ρ : List (Event α)} (hr : run (.done :: (ρ ++ h)) = some f')
    (hρ : ∀ e ∈ ρ, e.inner = true) (hf : run h = some f) (hk : f.woken = []) :
    marked ρ = f.owed := by
  obtain ⟨f₁, hr, hs⟩ := run_cons.mp hr
  rw [step, Option.ite_none_right_eq_some] at hs
  obtain ⟨h₁, h₂⟩ := inner_run hr hf hρ
  rw [hk, List.nil_append] at h₁ h₂
  rw [← h₂, ← h₁, hs.1, List.append_nil]

/-- **A signal marks the oldest**, if there is one… -/
theorem marked_of_signal {ρ : List (Event α)} (hr : run (.done :: (ρ ++ .signal :: h)) = some f')
    (hρ : ∀ e ∈ ρ, e.inner = true) : ∃ f, run h = some f ∧ marked ρ = f.queue.take 1 := by
  obtain ⟨f₂, hr₂, -⟩ := run_cons.mp hr
  obtain ⟨f₁, hf₁⟩ := exists_run hr₂
  obtain ⟨f, hf, hs⟩ := run_cons.mp hf₁
  rw [step, Option.ite_none_right_eq_some] at hs
  obtain ⟨-, hs⟩ := hs
  obtain rfl := Option.some.inj hs
  exact ⟨f, hf, marked_of_section hr hρ hf₁ rfl⟩

/-- …and a broadcast everybody. -/
theorem marked_of_broadcast {ρ : List (Event α)}
    (hr : run (.done :: (ρ ++ .broadcast :: h)) = some f') (hρ : ∀ e ∈ ρ, e.inner = true) :
    ∃ f, run h = some f ∧ marked ρ = f.queue := by
  obtain ⟨f₂, hr₂, -⟩ := run_cons.mp hr
  obtain ⟨f₁, hf₁⟩ := exists_run hr₂
  obtain ⟨f, hf, hs⟩ := run_cons.mp hf₁
  rw [step, Option.ite_none_right_eq_some] at hs
  obtain ⟨-, hs⟩ := hs
  obtain rfl := Option.some.inj hs
  exact ⟨f, hf, marked_of_section hr hρ hf₁ rfl⟩

end Fifo

end Libult.Qthreads
