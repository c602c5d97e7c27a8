import Libult.Tsd.Teardown

/-!
# Tsd/Drain — the loop that empties the list

The loop holds two items, `tsd` and `next`; as long as no exiting thread has come for either, they
are the first two of the list, and it ends with the list empty.  With a user destructor installed,
every item is then torn down once: unlinked, handed to it, released.
-/

namespace Libult.Tsd

open Interleaving Program Links

/-! ## The list during the loop -/

/-- What the list looks like at a line of the loop. -/
def DestroyPc.shape (l : List Iid) : DestroyPc → Prop
  | .l36 | .l37 => True
  | .l38 tsd next => ∃ r, l = tsd :: r ∧ next = r.head?
  | .l39 _ next | .l40 _ next | .l42 _ next | .l37n next => next = l.head?
  | .l44 | .l45 => l = []

/-- The items of the list the loop holds. -/
def DestroyPc.captured : DestroyPc → List Iid
  | .l38 tsd next => tsd :: next.toList
  | .l39 _ next | .l40 _ next | .l42 _ next | .l37n next => next.toList
  | _ => []

/-- **The loop empties the list**, and nobody exits with what it holds. -/
structure Drained (s : St) : Prop where
  shape : ∀ t pc, s.loc t = .destroying pc → pc.shape s.mem.tsd_list
  mine : ∀ t pc, s.loc t = .destroying pc → ∀ i ∈ pc.captured, ∀ t', (s.loc t').entered ≠ some i
  emptied : s.mem.deleted = true → (∀ t, (s.loc t).destroys = false) → s.mem.tsd_list = []

theorem start_drained (item : Iid → Item) : Drained (start item) :=
  ⟨by simp [start], by simp [start], by simp [start, Mem.construct]⟩

theorem Loc.destroys_iff {l : Loc} : l.destroys = true ↔ ∃ pc, l = .destroying pc := by
  cases l <;> simp [Loc.destroys]

theorem listNext_self (i : Iid) (l : List Iid) : listNext i (i :: l) = l.head? := if_pos rfl

/-- The shape survives the removal of an item the loop does not hold. -/
theorem DestroyPc.shape_erase {pc : DestroyPc} {l : List Iid} {i : Iid} (h : pc.shape l)
    (hi : i ∉ pc.captured) : pc.shape (l.erase i) := by
  -- the head of a list survives the removal of another item
  have head : ∀ {l : List Iid}, i ∉ l.head?.toList → (l.erase i).head? = l.head? := fun {l} hl => by
    cases l with
    | nil => rfl
    | cons a l =>
      have hne : a ≠ i := fun hai => hl (by simp [hai])
      rw [List.erase_cons_tail (by simpa using hne)]
      rfl
  cases pc with
  | l36 | l37 => trivial
  | l38 tsd next =>
    obtain ⟨r, rfl, rfl⟩ := h
    obtain ⟨hne, hr⟩ := not_or.mp (mt List.mem_cons.mpr hi)
    exact ⟨r.erase i, List.erase_cons_tail (by simpa using Ne.symm hne), (head hr).symm⟩
  | l39 _ next | l40 _ next | l42 _ next | l37n next =>
    obtain rfl : next = l.head? := h
    exact (head hi).symm
  | l44 | l45 =>
    obtain rfl : l = [] := h
    rfl

section Moves

variable {t : Tid} {a : Act} {l₀ l : Loc} {m₀ m : Mem} {e : Event}

/-- Out of a call and out of the loop, the list changes by line 15 only. -/
theorem tsd_list_of_moves (hm : Moves t a l₀ m₀ l m e) (hc : l₀.calling = false)
    (hd : l₀.destroys = false) :
    m.tsd_list = m₀.tsd_list ∨ ∃ i, l₀.entered = some i ∧ m.tsd_list = m₀.tsd_list.erase i := by
  cases hm <;> first | exact .inl rfl | exact .inr ⟨_, rfl, rfl⟩ | (cases hc; done) | cases hd

/-- Nobody enters `_tracked_destructor` once the key has been deleted. -/
theorem entered_of_moves {i : Iid} (hm : Moves t a l₀ m₀ l m e) (hd : m₀.deleted = true)
    (hl : l.entered = some i) : l₀.entered = some i := by
  cases hm <;> first | exact hl | cases hl
  case callback hnot _ => exact absurd (hd.symm.trans hnot) Bool.noConfusion

/-- A destruction is called before it begins. -/
theorem callDestroy_of_moves (hm : Moves t .destroy l₀ m₀ l m e) : l = .destroying .l36 := by
  cases hm
  rfl

/-- **The loop takes the first two items**, and ends when there is none. -/
theorem drained_of_moves {pc : DestroyPc} (hm : Moves t a l₀ m₀ l m e) (hl₀ : l₀ = .destroying pc)
    (hs : pc.shape m₀.tsd_list) : l = .idle ∧ m.tsd_list = [] ∨ ∃ pc', l = .destroying pc' ∧
      pc'.shape m.tsd_list ∧ ∀ i ∈ pc'.captured, i ∈ pc.captured ∨ i ∈ l₀.taking m₀.tsd_list := by
  cases hm <;> cases hl₀
  case destroy36 => exact .inr ⟨_, rfl, trivial, by simp [DestroyPc.captured]⟩
  case destroy37null hn => exact .inr ⟨_, rfl, hn, by simp [DestroyPc.captured]⟩
  case destroy37 tsd hh =>
    obtain ⟨r, hr⟩ := List.head?_eq_some_iff.mp hh
    refine .inr ⟨_, rfl, ⟨r, hr, hr ▸ listNext_self tsd r⟩, fun i hi => .inr ?_⟩
    simpa [Loc.taking, taken, hh, DestroyPc.captured] using hi
  case destroy38 tsd next =>
    obtain ⟨r, hr, hn⟩ := hs
    refine .inr ⟨_, rfl, ?_, fun i hi => .inl (List.mem_cons_of_mem _ hi)⟩
    rw [DestroyPc.shape, Mem.remove, hr, List.erase_cons_head, hn]
  case destroy39 | destroy39null | destroy40 | destroy42 =>
    exact .inr ⟨_, rfl, hs, fun i hi => .inl hi⟩
  case destroy37nnull =>
    exact .inr ⟨_, rfl, List.head?_eq_none_iff.mp hs.symm, by simp [DestroyPc.captured]⟩
  case destroy37n tsd hmem =>
    obtain ⟨r, hr⟩ := List.head?_eq_some_iff.mp hs.symm
    refine .inr ⟨_, rfl, ⟨r, hr, hr ▸ listNext_self tsd r⟩, fun i hi => .inr ?_⟩
    simpa [Loc.taking, taken, DestroyPc.captured] using hi
  case destroy44 => exact .inr ⟨_, rfl, hs, by simp [DestroyPc.captured]⟩
  case destroy45 => exact .inl ⟨rfl, hs⟩
  case stale tsd hnot =>
    obtain ⟨r, hr⟩ := List.head?_eq_some_iff.mp hs.symm
    exact absurd (hr ▸ List.mem_cons_self) hnot

end Moves

section Step

variable {s : St} {t : Tid} {a : Act} {l : Loc} {m : Mem} {e : Event}

/-- A line of the loop itself: nobody else destroys, so whoever does after it is this thread. -/
theorem Drained.step_self (d : Drained s) (i : InOrder s) (hA : Apart s t a)
    (hm : Moves t a (s.loc t) s.mem l m e) (hdes : (s.loc t).destroys = true) :
    Drained (s.move t l m) := by
  obtain ⟨pc, hl₀⟩ := Loc.destroys_iff.mp hdes
  have hself : ∀ t₁ pc₁, (s.move t l m).loc t₁ = .destroying pc₁ → t₁ = t := fun t₁ pc₁ h₁ => by
    by_contra ht₁
    rw [State.move_loc_of_ne _ _ _ _ ht₁] at h₁
    exact absurd ((i.alone t hdes t₁).2 ht₁) (by simp [h₁, Loc.destroys])
  rcases drained_of_moves hm hl₀ (d.shape t pc hl₀) with ⟨rfl, hn⟩ | ⟨pc', rfl, hshape, hcap⟩
  · refine ⟨fun t₁ pc₁ h₁ => ?_, fun t₁ pc₁ h₁ => ?_, fun _ _ => hn⟩ <;>
    · obtain rfl := hself t₁ pc₁ h₁
      exact absurd (State.move_loc_self s t₁ .idle m ▸ h₁) (by simp)
  · refine ⟨fun t₁ pc₁ h₁ => ?_, fun t₁ pc₁ h₁ j hj => ?_, fun _ hno => ?_⟩
    · obtain rfl := hself t₁ pc₁ h₁
      obtain rfl : pc' = pc₁ := by simpa using h₁
      exact hshape
    · obtain rfl := hself t₁ pc₁ h₁
      obtain rfl : pc' = pc₁ := by simpa using h₁
      refine (State.forall_move (A := fun _ l => l.entered ≠ some j) s t₁ _ m).mpr
        ⟨by simp [Loc.entered], fun t' _ => ?_⟩
      rcases hcap j hj with hj | hj
      · exact d.mine t₁ pc hl₀ j hj t'
      · exact hA j hj t'
    · exact absurd (hno t) (by simp [Loc.destroys])

/-- The destructor is called. -/
theorem drained_of_destroy (hE : InTurn s t .destroy)
    (hm : Moves t .destroy (s.loc t) s.mem l m e) : Drained (s.move t l m) := by
  obtain rfl := callDestroy_of_moves hm
  have hself : ∀ t₁ pc₁, (s.move t (.destroying .l36) m).loc t₁ = .destroying pc₁ → pc₁ = .l36 :=
    fun t₁ pc₁ h₁ => by
      by_cases ht₁ : t₁ = t
      · rw [ht₁, State.move_loc_self] at h₁
        exact (Loc.destroying.inj h₁).symm
      · rw [State.move_loc_of_ne _ _ _ _ ht₁] at h₁
        exact absurd (hE.2 t₁).2 (by simp [h₁, Loc.destroys])
  refine ⟨fun t₁ pc₁ h₁ => ?_, fun t₁ pc₁ h₁ => ?_, fun _ hno => ?_⟩
  · obtain rfl := hself t₁ pc₁ h₁
    trivial
  · obtain rfl := hself t₁ pc₁ h₁
    simp [DestroyPc.captured]
  · exact absurd (hno t) (by simp [Loc.destroys])

/-- Another thread moves: while the loop runs, nobody is in a call, and what the others take off the
list is not what the loop has in its hands. -/
theorem Drained.step_other (d : Drained s) (i : InOrder s) (hm : Moves t a (s.loc t) s.mem l m e)
    (hdes : (s.loc t).destroys = false) (hl : l.destroys = false) : Drained (s.move t l m) := by
  have hother : ∀ t₁ pc₁, (s.move t l m).loc t₁ = .destroying pc₁ → s.loc t₁ = .destroying pc₁ :=
    fun t₁ pc₁ h₁ => by
      by_cases ht₁ : t₁ = t
      · rw [ht₁, State.move_loc_self] at h₁
        exact absurd hl (by simp [h₁, Loc.destroys])
      · rwa [State.move_loc_of_ne _ _ _ _ ht₁] at h₁
  refine ⟨fun t₁ pc₁ h₁ => ?_, fun t₁ pc₁ h₁ j hj => ?_, fun hd hno => ?_⟩
  · have h₁ := hother t₁ pc₁ h₁
    have hcalm : (s.loc t).calling = false := (i.alone t₁ (by simp [h₁, Loc.destroys]) t).1
    rw [State.move_mem]
    rcases tsd_list_of_moves hm hcalm hdes with hsame | ⟨j, hj, hrem⟩
    · rw [hsame]
      exact d.shape t₁ pc₁ h₁
    · rw [hrem]
      exact pc₁.shape_erase (d.shape t₁ pc₁ h₁) fun hcap => d.mine t₁ pc₁ h₁ j hcap t hj
  · have h₁ := hother t₁ pc₁ h₁
    have hdel := i.deleted t₁ pc₁ h₁ fun h36 => by simp [h36, DestroyPc.captured] at hj
    exact (State.forall_move (A := fun _ l => l.entered ≠ some j) s t l m).mpr
      ⟨fun hl => d.mine t₁ pc₁ h₁ j hj t (entered_of_moves hm hdel hl),
        fun t' _ => d.mine t₁ pc₁ h₁ j hj t'⟩
  · have hdel : s.mem.deleted = true := by
      rcases deleted_of_moves hm with hsame | ⟨hl₀, -, -⟩
      · exact hsame ▸ hd
      · exact absurd hdes (by simp [hl₀, Loc.destroys])
    have hnil := d.emptied hdel fun t' => by
      by_cases ht' : t' = t
      · rwa [ht']
      · exact State.move_loc_of_ne s t l m ht' ▸ hno t'
    rw [State.move_mem]
    rcases tsd_list_of_moves hm (i.calm hdel t) hdes with hsame | ⟨j, -, hrem⟩
    · rw [hsame, hnil]
    · rw [hrem, hnil]
      rfl

/-- **One step keeps the loop on its way.** -/
theorem Drained.step (d : Drained s) (i : InOrder s) (hE : InTurn s t a) (hA : Apart s t a)
    (hm : Moves t a (s.loc t) s.mem l m e) : Drained (s.move t l m) := by
  cases hdes : (s.loc t).destroys with
  | true => exact d.step_self i hA hm hdes
  | false =>
    by_cases ha : a = .destroy
    · subst ha
      exact drained_of_destroy hE hm
    · refine d.step_other i hm hdes (Bool.not_eq_true _ ▸ fun hl => ?_)
      exact (destroys_of_moves hm hl).elim (by simp [hdes]) ha

end Step

end Libult.Tsd
