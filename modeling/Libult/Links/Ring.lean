import Mathlib.Data.List.Rotate
import Mathlib.Data.List.Chain
import Mathlib.Logic.Function.Basic

/-!
# Links/Ring — doubly linked rings, and splicing them one write at a time

Nodes are linked by two partial maps, `next` and `prev`.  A **strand** is a list of distinct nodes,
each linked to the one after it; a **ring** is a strand whose last node is linked to its first.  A
splice is four or two writes, and between them the nodes form a strand: it grows at its end
(`Strand.snoc`), gives up the outer links at its ends (`Strand.set_next_last`,
`Strand.set_prev_head`) and closes by one write (`Strand.close`).

    a ⇄ b ⇄ … ⇄ z          next z = a, then prev a := z, is a ring again
-/

namespace Links

universe u

variable {α : Type u}

/-- `b` follows `a`, and both know. -/
structure Linked (next prev : α → Option α) (a b : α) : Prop where
  next : next a = some b
  prev : prev b = some a

/-- **A strand**: distinct nodes, each linked to the one after it. -/
structure Strand (next prev : α → Option α) (l : List α) : Prop where
  nodup : l.Nodup
  chain : l.IsChain (Linked next prev)

/-- **A ring**: a strand whose last node is linked to its first. -/
structure Ring (next prev : α → Option α) (l : List α) : Prop extends Strand next prev l where
  closed : ∀ z ∈ l.getLast?, ∀ a ∈ l.head?, Linked next prev z a

/-- **A ring opened at `x`**: the others make a strand whose last node already skips `x`, while the
first still points back to it. -/
structure Opened (next prev : α → Option α) (x : α) (l : List α) : Prop where
  strand : Strand next prev l
  out : x ∉ l
  skip : ∀ z ∈ l.getLast?, next z = l.head?
  next : next x = (l ++ [x]).head?
  prev : prev x = (x :: l).getLast?

/-- The node `n` links after `a`. -/
def follow (next : α → Option α) : ℕ → α → Option α
  | 0, a => some a
  | n + 1, a => (next a).bind (follow next n)

variable {next prev next' prev' : α → Option α} {l l₁ l₂ : List α} {a x z : α}

theorem Ring.nil : Ring next prev [] := ⟨⟨.nil, .nil⟩, by simp⟩

/-! ## Only the links of the nodes matter -/

theorem Linked.congr {b : α} (h : Linked next prev a b) (hn : next' a = next a)
    (hp : prev' b = prev b) : Linked next' prev' a b :=
  ⟨hn.trans h.next, hp.trans h.prev⟩

/-- The outer links of a strand's ends do not matter. -/
theorem Strand.congr (h : Strand next prev l) (hn : ∀ x ∈ l.dropLast, next' x = next x)
    (hp : ∀ x ∈ l.tail, prev' x = prev x) : Strand next' prev' l where
  nodup := h.nodup
  chain := by
    refine List.isChain_iff_forall_rel_of_append_cons_cons.mpr fun a b l₁ l₂ hl => ?_
    refine (List.isChain_iff_forall_rel_of_append_cons_cons.mp h.chain hl).congr (hn a ?_) (hp b ?_)
    · rw [hl, List.dropLast_append_cons]
      simp
    · rw [hl]
      cases l₁ <;> simp

theorem Opened.congr (h : Opened next prev x l) (hn : ∀ y, y = x ∨ y ∈ l → next' y = next y)
    (hp : ∀ y, y = x ∨ y ∈ l → prev' y = prev y) : Opened next' prev' x l where
  strand := h.strand.congr (fun y hy => hn y (.inr (List.mem_of_mem_dropLast hy)))
    fun y hy => hp y (.inr (List.mem_of_mem_tail hy))
  out := h.out
  next := (hn x (.inl rfl)).trans h.next
  prev := (hp x (.inl rfl)).trans h.prev
  skip z hz := (hn z (.inr (List.mem_of_getLast? hz))).trans (h.skip z hz)

theorem Ring.congr (h : Ring next prev l) (hn : ∀ x ∈ l, next' x = next x)
    (hp : ∀ x ∈ l, prev' x = prev x) : Ring next' prev' l where
  toStrand := h.toStrand.congr (fun x hx => hn x (List.mem_of_mem_dropLast hx))
    fun x hx => hp x (List.mem_of_mem_tail hx)
  closed z hz a ha :=
    (h.closed z hz a ha).congr (hn z (List.mem_of_getLast? hz)) (hp a (List.mem_of_head? ha))

/-! ## A ring has no first node -/

/-- **A ring may be entered anywhere.** -/
theorem Ring.rotate (h : Ring next prev (l₁ ++ l₂)) : Ring next prev (l₂ ++ l₁) := by
  obtain ⟨⟨hd, hc⟩, hz⟩ := h
  rcases l₁ with _ | ⟨a₁, k₁⟩
  · simpa using Ring.mk ⟨hd, hc⟩ hz
  rcases l₂ with _ | ⟨a₂, k₂⟩
  · simpa using Ring.mk ⟨hd, hc⟩ hz
  obtain ⟨hc₁, hc₂, hj⟩ := List.isChain_append.mp hc
  refine ⟨⟨List.nodup_append_comm.mp hd, hc₂.append hc₁ fun x hx y hy => hz x ?_ y ?_⟩,
    fun x hx y hy => hj x ?_ y ?_⟩
  · rw [List.getLast?_append, hx]
    rfl
  · simpa using hy
  · rw [List.getLast?_append, List.getLast?_cons] at hx
    rwa [List.getLast?_cons]
  · simpa using hy

/-- …so at the node after any given one. -/
theorem Ring.rotate_cons (h : Ring next prev (l₁ ++ x :: l₂)) :
    Ring next prev ((l₂ ++ l₁) ++ [x]) := by
  have h' : Ring next prev ((l₁ ++ [x]) ++ l₂) := by simpa using h
  rw [List.append_assoc]
  exact h'.rotate

/-- The first node points back to the last. -/
theorem Ring.prev_head (h : Ring next prev l) (ha : l.head? = some a) : prev a = l.getLast? := by
  obtain ⟨z, hz⟩ := Option.ne_none_iff_exists'.mp (show l.getLast? ≠ none by
    rw [Ne, List.getLast?_eq_none_iff]; rintro rfl; cases ha)
  rw [hz]
  exact (h.closed z hz a ha).prev

/-- The node after the last is the first. -/
theorem Ring.linked_last (h : Ring next prev (l ++ [x])) :
    ∃ y, (l ++ [x]).head? = some y ∧ Linked next prev x y := by
  obtain ⟨y, hy⟩ := Option.ne_none_iff_exists'.mp
    (show (l ++ [x]).head? ≠ none by simp)
  exact ⟨y, hy, h.closed x (by simp) y hy⟩

/-- The node before the last is the one before it in the list, or itself. -/
theorem Ring.last_linked (h : Ring next prev (l ++ [x])) :
    ∃ z, (x :: l).getLast? = some z ∧ Linked next prev z x := by
  rcases l.eq_nil_or_concat with rfl | ⟨k, z, rfl⟩
  · exact ⟨x, rfl, h.closed x (by simp) x (by simp)⟩
  · rw [List.concat_eq_append] at h ⊢
    refine ⟨z, by rw [List.getLast?_cons, List.getLast?_concat]; rfl, ?_⟩
    exact (List.isChain_append.mp h.chain).2.2 z (by simp) x (by simp)

/-- **Every node is linked to a node**… -/
theorem Ring.exists_next (h : Ring next prev l) (hx : x ∈ l) : ∃ y ∈ l, Linked next prev x y := by
  obtain ⟨l₁, l₂, rfl⟩ := List.append_of_mem hx
  obtain ⟨y, hy, hl⟩ := h.rotate_cons.linked_last
  refine ⟨y, ?_, hl⟩
  have := List.mem_of_head? hy
  simp only [List.mem_append, List.mem_cons, List.not_mem_nil, or_false] at this ⊢
  tauto

/-- …and has a node linked to it. -/
theorem Ring.exists_prev (h : Ring next prev l) (hx : x ∈ l) : ∃ z ∈ l, Linked next prev z x := by
  obtain ⟨l₁, l₂, rfl⟩ := List.append_of_mem hx
  obtain ⟨z, hz, hl⟩ := h.rotate_cons.last_linked
  refine ⟨z, ?_, hl⟩
  have := List.mem_of_getLast? hz
  simp only [List.mem_append, List.mem_cons] at this ⊢
  tauto

/-- **`prev` is the inverse of `next`.** -/
theorem Ring.prev_eq_some (h : Ring next prev l) {y : α} (hx : x ∈ l) (hy : y ∈ l) :
    prev y = some x ↔ next x = some y := by
  constructor
  · intro hp
    obtain ⟨z, -, hl⟩ := h.exists_prev hy
    obtain rfl : z = x := Option.some.inj (hl.prev.symm.trans hp)
    exact hl.next
  · intro hn
    obtain ⟨z, -, hl⟩ := h.exists_next hx
    obtain rfl : z = y := Option.some.inj (hl.next.symm.trans hn)
    exact hl.prev

/-- **Following `next` from the first node** visits the nodes in order and comes back. -/
theorem Ring.follow (h : Ring next prev l) (ha : a ∈ l.head?) (i : ℕ) :
    follow next i a = l[i % l.length]? := by
  induction i generalizing l a with
  | zero => rw [Nat.zero_mod, ← List.head?_eq_getElem?, ha]; rfl
  | succ i ih =>
    obtain ⟨k, rfl⟩ : ∃ k, l = a :: k := by
      cases l with
      | nil => cases ha
      | cons b k => cases ha; exact ⟨k, rfl⟩
    have hr : Ring next prev (k ++ [a]) := @Ring.rotate _ _ _ [a] k h
    obtain ⟨b, hb, hl⟩ := hr.linked_last
    rw [Links.follow, hl.next, Option.bind_some, ih hr hb]
    have := List.getElem?_rotate (l := a :: k) (n := 1) (m := i % (k.length + 1))
      (Nat.mod_lt _ (Nat.succ_pos _))
    simpa using this

/-! ## Splicing -/

section Splice

variable [DecidableEq α]

/-- **A strand grows at its end**: the new node knows the last one, then the last one learns of
it. -/
theorem Strand.snoc (h : Strand next prev l) (hx : x ∉ l) (hz : l.getLast? = some z)
    (hp : prev x = some z) : Strand (Function.update next z (some x)) prev (l ++ [x]) := by
  obtain ⟨k, rfl⟩ := List.getLast?_eq_some_iff.mp hz
  have hzk : z ∉ k := fun hm => (List.nodup_append.mp h.nodup).2.2 z hm z (by simp) rfl
  have keep : Strand (Function.update next z (some x)) prev (k ++ [z]) := by
    refine h.congr (fun y hy => Function.update_of_ne ?_ _ _) fun _ _ => rfl
    rintro rfl
    exact hzk (by simpa using hy)
  refine ⟨List.nodup_append.mpr ⟨h.nodup, by simp, ?_⟩, keep.chain.append (by simp) ?_⟩
  · rintro y hy _ hx' rfl
    exact hx (List.mem_singleton.mp hx' ▸ hy)
  · rintro y hy _ hx'
    rw [hz, Option.mem_some_iff] at hy
    subst hy
    obtain rfl : x = _ := by simpa using hx'
    exact ⟨Function.update_self .., hp⟩

/-- The last node of a strand may be pointed anywhere… -/
theorem Strand.set_next_last (h : Strand next prev (l ++ [x])) (v : Option α) :
    Strand (Function.update next x v) prev (l ++ [x]) := by
  refine h.congr (fun y hy => Function.update_of_ne ?_ _ _) fun _ _ => rfl
  rintro rfl
  rw [List.dropLast_concat] at hy
  exact (List.nodup_append.mp h.nodup).2.2 y hy y (by simp) rfl

/-- …and so may the first one, backwards. -/
theorem Strand.set_prev_head (h : Strand next prev (a :: l)) (v : Option α) :
    Strand next (Function.update prev a v) (a :: l) := by
  refine h.congr (fun _ _ => rfl) fun y hy => Function.update_of_ne ?_ _ _
  rintro rfl
  exact (List.nodup_cons.mp h.nodup).1 hy

/-- **A strand closes**: once its last node points to its first, the first learns of it. -/
theorem Strand.close (h : Strand next prev l) (hz : l.getLast? = some z) (ha : l.head? = some a)
    (hn : next z = some a) : Ring next (Function.update prev a (some z)) l where
  toStrand := by
    obtain ⟨k, rfl⟩ := List.head?_eq_some_iff.mp ha
    exact h.set_prev_head _
  closed z' hz' a' ha' := by
    obtain rfl : z = z' := Option.some.inj (hz.symm.trans hz')
    obtain rfl : a = a' := Option.some.inj (ha.symm.trans ha')
    exact ⟨hn, Function.update_self ..⟩

/-- **The first write of a removal**: the node before `x` skips it. -/
theorem Ring.opened (h : Ring next prev (l ++ [x])) (hz : prev x = some z) :
    Opened (Function.update next z (next x)) prev x l := by
  obtain ⟨y, hy, hxy⟩ := h.linked_last
  obtain ⟨z', hz', hzx⟩ := h.last_linked
  obtain rfl : z' = z := Option.some.inj (hzx.prev.symm.trans hz)
  have hd := List.nodup_append.mp h.nodup
  have out : x ∉ l := fun hm => hd.2.2 x hm x (by simp) rfl
  have hx : Function.update next z' (next x) x = (l ++ [x]).head? := by
    rw [hy, ← hxy.next]
    by_cases hxz : x = z'
    · rw [hxz, Function.update_self]
    · rw [Function.update_of_ne hxz]
  rcases l.eq_nil_or_concat with rfl | ⟨k, w, rfl⟩
  · exact ⟨⟨.nil, .nil⟩, out, by simp, hx, hzx.prev.trans hz'.symm⟩
  · rw [List.concat_eq_append] at *
    obtain rfl : w = z' := by
      rw [List.getLast?_cons, List.getLast?_concat] at hz'
      exact Option.some.inj hz'
    refine ⟨Strand.set_next_last ⟨hd.1, h.chain.left_of_append⟩ _, out, fun z hz => ?_, hx,
      hzx.prev.trans hz'.symm⟩
    obtain rfl : w = z := by simpa using hz
    rw [Function.update_self, hxy.next, ← hy]
    simp

/-- **The second write of a removal**: the node after `x` skips it too. -/
theorem Opened.close {y : α} (h : Opened next prev x l) (hy : next x = some y) :
    Ring next (Function.update prev y (prev x)) l := by
  rcases l.eq_nil_or_concat with rfl | ⟨k, z, rfl⟩
  · exact .nil
  · rw [List.concat_eq_append] at *
    have hz : (k ++ [z]).getLast? = some z := List.getLast?_concat
    have hl : (k ++ [z]).head? = some y := by
      rw [← hy, h.next]
      simp
    have hp : prev x = some z := by
      rw [h.prev, List.getLast?_cons, hz]
      rfl
    rw [hp]
    exact h.strand.close hz hl ((h.skip z hz).trans hl)

end Splice

end Links
