import Mathlib.Logic.Relation
import Mathlib.Data.Nat.Notation

/-!
# Interleaving/WaitFor — who waits for whom, and when nobody waits in a circle

A thread waits for another when it wants a lock that the other holds.  A **rank** that drops along
every such edge excludes cycles, whatever order the locks are taken in: it ranks what threads are
doing, not locks.
-/

namespace Interleaving

universe u

variable {τ κ : Type u} (wants : τ → Option κ) (holder : κ → Option τ)

/-- `t` is blocked acquiring a lock that `t'` holds. -/
def WaitsFor (t t' : τ) : Prop := ∃ k, wants t = some k ∧ holder k = some t'

/-- A cycle of threads, each blocked acquiring a lock held by the next. -/
def Deadlocked (t : τ) : Prop := Relation.TransGen (WaitsFor wants holder) t t

variable {wants holder} {rank : τ → ℕ}
  (drops : ∀ t t', WaitsFor wants holder t t' → rank t' < rank t)

include drops

theorem rank_lt_of_transGen {t t' : τ} (h : Relation.TransGen (WaitsFor wants holder) t t') :
    rank t' < rank t := by
  induction h with
  | single h => exact drops _ _ h
  | tail _ h ih => exact Nat.lt_trans (drops _ _ h) ih

/-- **A rank that drops along every wait excludes deadlock.** -/
theorem not_deadlocked_of_rank (t : τ) : ¬ Deadlocked wants holder t :=
  fun h => Nat.lt_irrefl _ (rank_lt_of_transGen drops h)

/-- …and every wait leads to a thread that is not waiting. -/
theorem exists_unblocked (t : τ) : ∃ t', Relation.ReflTransGen (WaitsFor wants holder) t t' ∧
    ∀ t'', ¬ WaitsFor wants holder t' t'' := by
  induction hr : rank t using Nat.strongRecOn generalizing t with
  | _ n ih =>
    by_cases h : ∃ t', WaitsFor wants holder t t'
    · obtain ⟨t', ht⟩ := h
      obtain ⟨u, hu, hfree⟩ := ih (rank t') (hr ▸ drops t t' ht) t' rfl
      exact ⟨u, .head ht hu, hfree⟩
    · exact ⟨t, .refl, fun t'' ht => h ⟨t'', ht⟩⟩

end Interleaving
