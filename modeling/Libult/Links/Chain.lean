import Mathlib.Data.List.Basic
import Mathlib.Logic.Function.Basic

/-!
# Links/Chain — singly linked lists that end

From an optional first node a partial map `next` is followed until it is undefined.  A list that
ends determines its nodes, and no node occurs twice; it grows by linking its last node to a new one.

    o ──▸ a ──▸ b ──▸ … ──▸ z ──▸ none
-/

namespace Links

universe u

variable {α : Type u}

/-- **Followed from `o`, `next` lists exactly `l`**, and ends. -/
def Chain (next : α → Option α) : Option α → List α → Prop
  | o, [] => o = none
  | o, a :: l => o = some a ∧ Chain next (next a) l

/-- What `next` reaches from `o`. -/
inductive Reachable (next : α → Option α) : Option α → α → Prop
  | here (a : α) : Reachable next (some a) a
  | next {a b : α} : Reachable next (next a) b → Reachable next (some a) b

variable {next next' : α → Option α} {o : Option α} {l l₁ l₂ : List α} {a x z : α}

theorem Chain.nil : Chain next none [] := rfl

theorem Chain.singleton (h : next x = none) : Chain next (some x) [x] := ⟨rfl, h⟩

/-- A chain starts where its list does. -/
theorem Chain.head (h : Chain next o l) : o = l.head? := by
  cases l with
  | nil => exact h
  | cons a l => exact h.1

theorem Chain.eq_nil_iff (h : Chain next o l) : o = none ↔ l = [] := by
  rw [h.head, List.head?_eq_none_iff]

/-- Only the links of its nodes matter. -/
theorem Chain.congr (h : Chain next o l) (hn : ∀ a ∈ l, next' a = next a) : Chain next' o l := by
  induction l generalizing o with
  | nil => exact h
  | cons a l ih =>
    obtain ⟨hn₀, hn⟩ := List.forall_mem_cons.mp hn
    exact ⟨h.1, hn₀.symm ▸ ih h.2 hn⟩

theorem Chain.of_append (h : Chain next o (l₁ ++ l₂)) : Chain next l₂.head? l₂ := by
  induction l₁ generalizing o with
  | nil => exact h.head ▸ h
  | cons a l₁ ih => exact ih h.2

/-- The last node has nothing after it. -/
theorem Chain.next_last (h : Chain next o l) (hz : l.getLast? = some z) : next z = none := by
  obtain ⟨l', rfl⟩ : ∃ l', l = l' ++ [z] := List.getLast?_eq_some_iff.mp hz
  exact h.of_append.2

/-- **The nodes of a chain are determined.** -/
theorem Chain.unique (h₁ : Chain next o l₁) (h₂ : Chain next o l₂) : l₁ = l₂ := by
  induction l₁ generalizing o l₂ with
  | nil => exact (h₂.eq_nil_iff.mp h₁).symm
  | cons a l₁ ih =>
    cases l₂ with
    | nil => exact absurd (h₁.1.symm.trans h₂) (by simp)
    | cons b l₂ =>
      obtain rfl := Option.some.inj (h₁.1.symm.trans h₂.1)
      rw [ih h₁.2 h₂.2]

/-- …so none occurs twice: what follows a node would follow itself. -/
theorem Chain.nodup (h : Chain next o l) : l.Nodup := by
  induction l generalizing o with
  | nil => exact .nil
  | cons a l ih =>
    refine List.nodup_cons.mpr ⟨fun ha => ?_, ih h.2⟩
    obtain ⟨l₁, l₂, rfl⟩ := List.append_of_mem ha
    have hlen := congrArg List.length (h.2.of_append.2.unique h.2)
    simp only [List.length_append, List.length_cons] at hlen
    omega

/-- **A chain grows by one write**, of a node that was not there and ends the list. -/
theorem Chain.snoc [DecidableEq α] (h : Chain next o (l ++ [z])) (hx : x ∉ l ++ [z])
    (hn : next x = none) : Chain (Function.update next z (some x)) o (l ++ [z, x]) := by
  have hz : z ∉ l := fun hz =>
    (List.nodup_append.mp h.nodup).2.2 z hz z (by simp) rfl
  have hxz : x ≠ z := fun hxz => hx (by simp [hxz])
  have hend : Chain (Function.update next z (some x)) (some z) [z, x] :=
    ⟨rfl, by rw [Function.update_self]; exact ⟨rfl, by rw [Function.update_of_ne hxz]; exact hn⟩⟩
  clear hx
  induction l generalizing o with
  | nil => exact h.1 ▸ hend
  | cons a l ih =>
    refine ⟨h.1, ?_⟩
    rw [Function.update_of_ne (fun haz : a = z => hz (haz ▸ List.mem_cons_self))]
    exact ih h.2 (mt (List.mem_cons_of_mem a) hz)

/-- **What a chain reaches are its nodes.** -/
theorem Chain.reachable_iff (h : Chain next o l) : Reachable next o a ↔ a ∈ l := by
  constructor
  · intro hr
    induction hr generalizing l with
    | here a =>
      cases l with
      | nil => exact absurd h (by simp [Chain])
      | cons b l =>
        obtain rfl := Option.some.inj h.1
        exact List.mem_cons_self
    | @next b _ _ ih =>
      cases l with
      | nil => exact absurd h (by simp [Chain])
      | cons c l =>
        obtain rfl := Option.some.inj h.1
        exact List.mem_cons_of_mem _ (ih h.2)
  · intro ha
    induction l generalizing o with
    | nil => exact absurd ha (by simp)
    | cons b l ih =>
      rw [h.1]
      rcases List.mem_cons.mp ha with rfl | ha
      · exact .here a
      · exact .next (ih h.2 ha)

end Links
