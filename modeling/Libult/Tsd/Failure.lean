import Libult.Tsd.Sequence

/-!
# Tsd/Failure — a set that returns an error

A set can fail in two places: `OBJ_NEW` finds no memory, or, at the very end, `tsd_set` returns an
error.  By then the item has been linked, or the item that was there overwritten, and nothing takes
that back: the failed call goes unnoticed only if it wrote what was there.
-/

namespace Libult.Tsd

open Interleaving Program Links

/-! ## What shows of a call -/

/-- What `tsd_tracked_key_get` returns in a thread. -/
def value (m : Mem) (t : Tid) : Ptr := (m.slot t).bind fun i => (m.item i).data

/-- The calls of the user destructor under a schedule, from a state on. -/
def callsOf (s : St) (as : List (Tid × Act)) : Option (List (Fid × Ptr)) :=
  (trackedKey.run s [] as).map fun r => calls (events r.2)

/-- **As if the call had not been made**: the list, the values and all later calls of the user
destructor are the same. -/
structure Unmade (s s' : St) : Prop where
  list : s'.mem.tsd_list = s.mem.tsd_list
  values : ∀ t, value s'.mem t = value s.mem t
  calls : ∀ as, callsOf s' as = callsOf s as

/-- **A set that fails at line `pc`**: called in `s`, it returns an error in `s'`. -/
def FailedSet (t : Tid) (p : Ptr) (pc : SetPc) (s s' : St) : Prop :=
  ∃ s₁ s₂ ρ, trackedKey.step s t (.set p) = some (s₁, .tau) ∧ trackedKey.Path s₁ ρ s₂ ∧
    (∀ x ∈ ρ, x.tid = t ∧ x.act = .run) ∧ s₂.loc t = .set p pc ∧
    trackedKey.step s₂ t .fail = some (s', .failed t)

/-- What a set has done when it comes to a line: linked a new item, or written the one it found. -/
def SetPc.done (t : Tid) (p : Ptr) (m₀ m : Mem) : SetPc → Prop
  | .l53 => m = m₀
  | .l55 tsd => m = m₀ ∧ tsd = m₀.slot t
  | .l56 => m = m₀ ∧ m₀.slot t = none
  | .l61 _ | .l62 _ => m₀.slot t = none ∧ m.tsd_list = m₀.tsd_list
  | .l63 i => m₀.slot t = none ∧ m.tsd_list = m₀.tsd_list ++ [i]
  | .l66 i => m₀.slot t = none ∧ m.tsd_list = m₀.tsd_list ++ [i] ∨ m₀.slot t = some i ∧ m = m₀
  | .l67 i => m₀.slot t = none ∧ m.tsd_list = m₀.tsd_list ++ [i] ∨
      m₀.slot t = some i ∧ m = m₀.setItem i { m₀.item i with data := p }
  | .l69 i => m₀.slot t = none ∧ m.tsd_list = m₀.tsd_list ++ [i] ∨
      m₀.slot t = some i ∧ m = m₀.setItem i ⟨true, p⟩

section Step

variable {t : Tid} {p : Ptr} {m₀ m m' : Mem} {l : Loc} {e : Event} {pc : SetPc}

/-- One line of a set does its part. -/
theorem done_of_moves (hm : Moves t .run (.set p pc) m l m' e) (h : pc.done t p m₀ m) :
    l = .idle ∨ ∃ pc', l = .set p pc' ∧ pc'.done t p m₀ m' := by
  cases hm
  case set69 => exact .inl rfl
  all_goals refine .inr ⟨_, rfl, ?_⟩
  case set53 => exact ⟨h, congrArg (Mem.slot · t) h⟩
  case set55null => exact ⟨h.1, h.2.symm⟩
  case set55 => exact .inr ⟨h.2.symm, h.1⟩
  case set56 => exact ⟨h.2, h.1 ▸ rfl⟩
  case set61 => exact h
  case set62 => exact ⟨h.1, congrArg (· ++ [_]) h.2⟩
  case set63 => exact .inl h
  case set66 =>
    rcases h with h | ⟨hs, rfl⟩
    · exact .inl h
    · exact .inr ⟨hs, rfl⟩
  case set67 tsd =>
    rcases h with h | ⟨hs, rfl⟩
    · exact .inl h
    · exact .inr ⟨hs, by simp [Mem.setItem]⟩

end Step

/-- **What a failed set leaves behind**: the memory as it came to the failing line, and the threads
where they were. -/
theorem FailedSet.left {t : Tid} {p : Ptr} {pc : SetPc} {s s' : St} (h : FailedSet t p pc s s') :
    pc.done t p s.mem s'.mem ∧ (pc = .l56 ∨ ∃ i, pc = .l69 i) ∧ s'.loc = s.loc := by
  obtain ⟨s₁, s₂, ρ, hcall, hρ, hrun, hl₂, hfail⟩ := h
  obtain ⟨l₁, m₁, hexec, rfl⟩ := step_eq_some.mp hcall
  obtain ⟨l', m', hexec', rfl⟩ := step_eq_some.mp hfail
  have hcall := moves_of_exec hexec
  have hidle : s.loc t = .idle ∧ l₁ = .set p .l53 ∧ m₁ = s.mem := by
    generalize s.loc t = l₀ at hcall
    cases hcall
    exact ⟨rfl, rfl, rfl⟩
  obtain ⟨hidle, rfl, rfl⟩ := hidle
  -- the lines of the call, one after the other
  have hdone : s₂.loc t = .idle ∨ ∃ pc', s₂.loc t = .set p pc' ∧ pc'.done t p s.mem s₂.mem := by
    refine hρ.invariant (fun _ (x : St) => x.loc t = .idle ∨
      ∃ pc', x.loc t = .set p pc' ∧ pc'.done t p s.mem x.mem) (fun _ t' a => t' = t ∧ a = Act.run)
      ?_ hrun (.inr ⟨.l53, State.move_loc_self .., rfl⟩)
    intro _ x t' a l m e hx hE hexec
    obtain ⟨rfl, rfl⟩ := hE
    have hm : Moves t' .run (x.loc t') x.mem l m e := moves_of_exec hexec
    rw [State.move_loc_self]
    rcases hx with hx | ⟨pc', hx, hd⟩
    · rw [hx] at hm
      cases hm
    · rw [hx] at hm
      exact done_of_moves hm hd
  obtain ⟨pc', hl₂', hd⟩ := hdone.resolve_left (by simp [hl₂])
  obtain rfl : pc = pc' := (Loc.set.inj (hl₂.symm.trans hl₂')).2
  have hfail := moves_of_exec hexec'
  rw [hl₂] at hfail
  have hend : l' = .idle ∧ m' = s₂.mem ∧ (pc = .l56 ∨ ∃ i, pc = .l69 i) := by
    cases hfail
    · exact ⟨rfl, rfl, .inl rfl⟩
    · exact ⟨rfl, rfl, .inr ⟨_, rfl⟩⟩
  obtain ⟨rfl, rfl, hpc⟩ := hend
  refine ⟨hd, hpc, ?_⟩
  funext t'
  by_cases ht' : t' = t
  · subst ht'
    rw [State.move_loc_self, hidle]
  · rw [State.move_loc_of_ne _ _ _ _ ht',
      (hρ.untouched (A := (· = t)) fun x hx => (hrun x hx).1).1 t' ht',
      State.move_loc_of_ne _ _ _ _ ht']

/-- **Items in slots have been marked as the key's.** -/
structure Marked (s : St) : Prop where
  slot : ∀ t i, s.mem.slot t = some i → (s.mem.item i).tracked_key = true
  set : ∀ t p i, s.loc t = .set p (.l69 i) → (s.mem.item i).tracked_key = true

section Step

variable {s : St} {t : Tid} {a : Act} {l₀ l : Loc} {m₀ m : Mem} {e : Event}

/-- A mark is never taken away. -/
theorem tracked_key_of_moves {i : Iid} (hm : Moves t a l₀ m₀ l m e)
    (h : (m₀.item i).tracked_key = true) : (m.item i).tracked_key = true := by
  cases hm <;> first | exact h | skip
  case set66 p tsd =>
    rcases eq_or_ne i tsd with rfl | hi
    · simpa [Mem.setItem] using h
    · simpa [Mem.setItem, hi] using h
  case set67 p tsd =>
    rcases eq_or_ne i tsd with rfl | hi
    · simp [Mem.setItem]
    · simpa [Mem.setItem, hi] using h

theorem slot_from_set {i : Iid} (hm : Moves t a l₀ m₀ l m e) (hs : m.slot t = some i) :
    m₀.slot t = some i ∨ ∃ p, l₀ = .set p (.l69 i) := by
  cases hm <;> first | exact .inl hs | skip
  case callback => exact absurd hs (by simp [Mem.setSlot])
  case set69 p tsd =>
    obtain rfl : tsd = i := by simpa [Mem.setSlot] using hs
    exact .inr ⟨p, rfl⟩

/-- What goes into a slot has been marked. -/
theorem marked_of_moves {p : Ptr} {i : Iid} (hm : Moves t a l₀ m₀ l m e)
    (hl : l = .set p (.l69 i)) : (m.item i).tracked_key = true := by
  cases hm <;> cases hl
  case set67 => simp [Mem.setItem]

theorem Marked.step (k : Marked s) (hm : Moves t a (s.loc t) s.mem l m e) :
    Marked (s.move t l m) := by
  have keep := fun i => tracked_key_of_moves (i := i) hm
  have hset : ∀ i, m.slot t = some i → s.mem.slot t = some i ∨ ∃ p, s.loc t = .set p (.l69 i) :=
    fun i hi => slot_from_set hm hi
  refine ⟨fun t' i hi => keep i ?_, fun t' p i hl => ?_⟩
  · rcases eq_or_ne t' t with rfl | ht'
    · rcases hset i hi with hi | ⟨p, hl⟩
      exacts [k.slot t' i hi, k.set t' p i hl]
    · exact k.slot t' i (slot_of_moves hm ht' ▸ hi)
  · rcases eq_or_ne t' t with rfl | ht'
    · exact marked_of_moves hm (State.move_loc_self s t' l m ▸ hl)
    · exact keep i (k.set t' p i (State.move_loc_of_ne s t l m ht' ▸ hl))

end Step

theorem start_marked (item : Iid → Item) : Marked (start item) :=
  ⟨by simp [start, Mem.construct], by simp [start]⟩

/-! ## Failed sets in reachable states -/

/-- What leaves the state alone does not show. -/
theorem Unmade.refl (s : St) : Unmade s s := ⟨rfl, fun _ => rfl, fun _ => rfl⟩

/-- **A failed set does not show** if and only if it failed for want of memory, or the value was
there already. -/
theorem set_unmade_iff {item : Iid → Item} {s s' : St} {π : List (Transition Tid Loc Mem Act Event)}
    {t : Tid} {p : Ptr} {pc : SetPc} (hp : trackedKey.Path (start item) π s)
    (h : FailedSet t p pc s s') :
    Unmade s s' ↔ pc = .l56 ∨ ∃ i, s.mem.slot t = some i ∧ (s.mem.item i).data = p := by
  have k : Marked s := hp.invariant (fun _ => Marked) (fun _ _ _ => True)
    (fun _ _ _ _ _ _ _ k _ hexec => k.step (moves_of_exec hexec)) (fun _ _ => trivial)
    (start_marked item)
  obtain ⟨hdone, hpc, hloc⟩ := h.left
  have hsame : s'.mem = s.mem → Unmade s s' := fun hmem => by
    have hs : s' = s := by
      obtain ⟨loc, mem⟩ := s
      obtain ⟨loc', mem'⟩ := s'
      obtain rfl : loc' = loc := hloc
      obtain rfl : mem' = mem := hmem
      rfl
    exact hs ▸ Unmade.refl s
  rcases hpc with rfl | ⟨i, rfl⟩
  · exact iff_of_true (hsame hdone.1) (.inl rfl)
  · rcases hdone with ⟨hnone, hlist⟩ | ⟨hsome, hmem⟩
    · -- a new item has been linked
      refine iff_of_false (fun hu => ?_) ?_
      · have hlen := congrArg List.length (hlist.symm.trans hu.list)
        simp at hlen
      · rintro (hpc | ⟨j, hj, -⟩)
        · cases hpc
        · exact absurd (hnone.symm.trans hj) (by simp)
    · -- the item that was there has been written
      constructor
      · intro hu
        refine .inr ⟨i, hsome, ?_⟩
        have hv := hu.values t
        rw [value, value, hmem] at hv
        simpa [Mem.setItem, hsome] using hv.symm
      · rintro (hpc | ⟨j, hj, hdata⟩)
        · cases hpc
        · obtain rfl := Option.some.inj (hsome.symm.trans hj)
          refine hsame (hmem.trans ?_)
          have hitem : (⟨true, p⟩ : Item) = s.mem.item i := by
            rw [← hdata, ← k.slot t i hsome]
          rw [Mem.setItem, hitem, Function.update_eq_self]

/-! ## Failed sets that run -/

/-- Run a set of `n` lines and have the next one fail. -/
def failAfter (n : ℕ) (t : Tid) (p : Ptr) (s : St) : Option (SetPc × St) :=
  (trackedKey.step s t (.set p)).bind fun r₁ =>
    (trackedKey.run r₁.1 [] (lines n t)).bind fun r₂ =>
      match r₂.1.loc t with
      | .set p' pc => if p' = p then (trackedKey.step r₂.1 t .fail).map fun r => (pc, r.1) else none
      | _ => none

theorem event_of_callSet {t : Tid} {p : Ptr} {l₀ l : Loc} {m₀ m : Mem} {e : Event}
    (hm : Moves t (.set p) l₀ m₀ l m e) : e = .tau := by
  cases hm
  rfl

theorem event_of_fail {t : Tid} {l₀ l : Loc} {m₀ m : Mem} {e : Event}
    (hm : Moves t .fail l₀ m₀ l m e) : e = .failed t := by
  cases hm <;> rfl

theorem failedSet_of_failAfter {n : ℕ} {t : Tid} {p : Ptr} {pc : SetPc} {s s' : St}
    (h : failAfter n t p s = some (pc, s')) : FailedSet t p pc s s' := by
  obtain ⟨⟨s₁, e₁⟩, hcall, h₁⟩ := Option.bind_eq_some_iff.mp h
  obtain ⟨⟨s₂, ρ⟩, hrun, h₂⟩ := Option.bind_eq_some_iff.mp h₁
  dsimp only at hrun h₂
  split at h₂
  case h_2 => cases h₂
  case h_1 p' pc' hl =>
    obtain ⟨rfl, h₃⟩ := Option.ite_none_right_eq_some.mp h₂
    obtain ⟨⟨s₃, e₃⟩, hfail, hs₃⟩ := Option.map_eq_some_iff.mp h₃
    obtain ⟨rfl, rfl⟩ := Prod.mk.injEq .. ▸ hs₃
    obtain ⟨l₁, m₁, hexec₁, -⟩ := step_eq_some.mp hcall
    obtain ⟨l₃, m₃, hexec₃, -⟩ := step_eq_some.mp hfail
    obtain rfl := event_of_callSet (moves_of_exec hexec₁)
    obtain rfl := event_of_fail (moves_of_exec hexec₃)
    refine ⟨s₁, s₂, ρ, hcall, path_of_run hrun, fun x hx => ?_, hl, hfail⟩
    have hmem : (x.tid, x.act) ∈ ρ.map fun x => (x.tid, x.act) := List.mem_map_of_mem hx
    rw [run_schedule hrun, lines, List.reverse_replicate, List.map_nil, List.append_nil] at hmem
    exact Prod.mk.injEq .. ▸ List.eq_of_mem_replicate hmem

/-- **The value that is there, set again**: the failure does not show. -/
theorem set_unmade_again : ∃ s π s', trackedKey.Path (start fun _ => ⟨false, none⟩) π s ∧
    FailedSet 0 (some 10) (.l69 0) s s' ∧ Unmade s s' := by
  obtain ⟨s, π, hp, hs, hd, hf⟩ := exists_path_of_run (p := trackedKey)
    (s := start fun _ => ⟨false, none⟩) (firstSet 0 (some 10))
    (P := fun s _ => s.mem.slot 0 = some 0 ∧ (s.mem.item 0).data = some 10 ∧
      ((failAfter 4 0 (some 10) s).map Prod.fst) = some (.l69 0)) (by decide)
  obtain ⟨⟨pc, s'⟩, hf, rfl⟩ := Option.map_eq_some_iff.mp hf
  have hf := failedSet_of_failAfter hf
  exact ⟨s, π, s', hp, hf, (set_unmade_iff hp hf).mpr (.inr ⟨0, hs, hd⟩)⟩

/-- **A first set fails at its end**: its item stays in the list.  Each failed try leaves one there,
and the destruction of the key calls the user destructor for every one. -/
theorem not_set_unmade : (¬ ∀ (item : Iid → Item) (s s' : St)
      (π : List (Transition Tid Loc Mem Act Event)) (t : Tid) (p : Ptr) (pc : SetPc),
      trackedKey.Path (start item) π s → FailedSet t p pc s s' → Unmade s s') ∧
    ∃ s π, trackedKey.Path (start fun _ => ⟨false, none⟩) π s ∧ lastSet 0 (events π) = none ∧
      calls (events π) = [(7, some 10), (7, some 10)] := by
  constructor
  · intro h
    obtain ⟨s, π, hp, hf⟩ := exists_path_of_run (p := trackedKey)
      (s := start fun _ => ⟨false, none⟩) [(0, .setDestructor 7)]
      (P := fun s _ => (failAfter 8 0 (some 10) s).any fun r =>
        r.2.mem.tsd_list.length ≠ s.mem.tsd_list.length) (by decide)
    obtain ⟨⟨pc, s'⟩, hfail, hne⟩ := (Option.any_eq_true _ _).mp hf
    have hu := h _ s s' π 0 (some 10) pc hp (failedSet_of_failAfter hfail)
    exact of_decide_eq_true hne (congrArg List.length hu.list)
  · exact exists_path_of_run
      ((1, .setDestructor 7) :: (0, .set (some 10)) :: lines 8 0 ++ (0, .fail) ::
        (0, .set (some 10)) :: lines 8 0 ++ (0, .fail) :: (1, .destroy) :: lines 14 1)
      (by decide)

end Libult.Tsd
