import Libult.Links.Ring

/-!
# Links/Laid — walking a list that may or may not come back

A list is **laid out** from its head when `next` leads from each node to the one after it; after the
last node there may be nothing, or the head again, as in a ring.  A walk that stops at either end
cannot tell the two apart, and need not.

    head ──▸ a ──▸ b ──▸ … ──▸ z ──▸ none, or a again
-/

namespace Links

universe u

variable {α : Type u}

/-- **Laid out from `o`**: distinct nodes, each followed by the one after it, the last by nothing
or by the head. -/
structure Laid (next : α → Option α) (o : Option α) (l : List α) : Prop where
  nodup : l.Nodup
  head : o = l.head?
  next : ∀ l₁ a l₂, l = l₁ ++ a :: l₂ → next a = l₂.head? ∨ l₂ = [] ∧ next a = o

variable {next next' prev : α → Option α} {o o' : Option α} {l l₁ l₂ : List α} {a : α}

/-- Only the links of its nodes matter. -/
theorem Laid.congr (h : Laid next o l) (ho : o' = o) (hn : ∀ a ∈ l, next' a = next a) :
    Laid next' o' l where
  nodup := h.nodup
  head := ho.trans h.head
  next l₁ a l₂ hl := by
    rw [hn a (by simp [hl]), ho]
    exact h.next l₁ a l₂ hl

/-- **A ring is laid out from its first node.** -/
theorem Ring.laid (h : Ring next prev l) : Laid next l.head? l where
  nodup := h.nodup
  head := rfl
  next l₁ a l₂ hl := by
    subst hl
    cases l₂ with
    | nil =>
      obtain ⟨y, hy, hay⟩ := h.linked_last
      exact .inr ⟨rfl, hay.next.trans hy.symm⟩
    | cons b l₂ =>
      have hab := List.isChain_iff_forall_rel_of_append_cons_cons.mp h.chain rfl
      exact .inl hab.next

/-- **The walk is back at the head** only after the last node. -/
theorem Laid.eq_nil_of_next (h : Laid next o (l₁ ++ a :: l₂)) (ha : next a = o) : l₂ = [] := by
  rcases h.next l₁ a l₂ rfl with hn | ⟨hl, -⟩
  · cases l₂ with
    | nil => rfl
    | cons b l₂ =>
      have hb : (l₁ ++ a :: b :: l₂).head? = some b := by rw [← h.head, ← ha, hn, List.head?_cons]
      have hd := List.nodup_append.mp h.nodup
      cases l₁ with
      | nil =>
        obtain rfl : a = b := by simpa using hb
        simp at hd
      | cons c l₁ =>
        obtain rfl : c = b := by simpa using hb
        exact absurd rfl (hd.2.2 c (by simp) c (by simp))
  · exact hl

/-- **Away from the head** it goes on to the node after, if there is one. -/
theorem Laid.next_of_ne (h : Laid next o (l₁ ++ a :: l₂)) (ha : next a ≠ o) :
    next a = l₂.head? :=
  (h.next l₁ a l₂ rfl).resolve_right fun hc => ha hc.2

end Links
