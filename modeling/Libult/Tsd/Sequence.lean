import Libult.Tsd.Values

/-!
# Tsd/Sequence — sets, gets and exits, then the destruction

When the key is destroyed only once its callers are done, the two sides that tear items down never
meet: the list is always the items of the live threads that have set a value, and the user
destructor is called once for each thread that ever did.
-/

namespace Libult.Tsd

open Interleaving Program Links

/-- The calls of the user destructor. -/
def Event.call : Event → Option (Fid × Ptr)
  | .called f _ p => some (f, p)
  | _ => none

/-- …in a history, latest first. -/
def calls (h : List Event) : List (Fid × Ptr) := h.filterMap Event.call

/-- **Nobody exits during the destruction.** -/
def Calm (s : St) : Prop := ∀ t, (s.loc t).destroys = true → ∀ t', (s.loc t').exits = false

/-- Every call of the user destructor is one of `f`. -/
structure OneDestructor (f : Fid) (h : List Event) (s : St) : Prop where
  installed : s.mem.user_destructor = none ∨ s.mem.user_destructor = some f
  calls : ∀ g i p, .called g i p ∈ h → g = f

/-- **The state of a key used in sequence**, with its history. -/
structure Kept (own : Iid → Tid) (h : List Event) (s : St) : Prop where
  order : InOrder s
  drained : Drained s
  led : Accounted h s
  calm : Calm s
  owned : Owned own h s
  valued : Valued own h s

theorem start_kept (own : Iid → Tid) (item : Iid → Item) : Kept own [] (start item) :=
  ⟨start_inOrder item, start_drained item, Ledger.empty fun i => Nat.not_lt_zero i,
    fun _ h => by simp [start, Loc.destroys] at h, start_owned own item, start_valued own item⟩

theorem Loc.exits_of_entered {l : Loc} {i : Iid} (h : l.entered = some i) : l.exits = true := by
  cases l <;> first | rfl | cases h

theorem Loc.destroys_of_taking {l : Loc} {L : List Iid} {i : Iid} (h : i ∈ l.taking L) :
    l.destroys = true := by
  cases l <;> first | rfl | exact absurd h List.not_mem_nil

/-- Then the two sides keep apart. -/
theorem Calm.apart {s : St} (c : Calm s) (t : Tid) (a : Act) : Apart s t a := fun i hi t' ht' => by
  have hx := c t (Loc.destroys_of_taking hi) t'
  rw [Loc.exits_of_entered ht'] at hx
  cases hx

theorem Loc.needsKey_of_not_exits {l : Loc} (h : l.exits = false) :
    l.needsMutex = false ∧ l.needsKey = false := by
  cases l with
  | exiting => cases h
  | _ => exact ⟨rfl, rfl⟩

/-- …and there is nobody under whom the key could end. -/
theorem Calm.last {s : St} (c : Calm s) (t : Tid) (a : Act) : Last s t a :=
  ⟨fun hl t' => (Loc.needsKey_of_not_exits (c t (by rw [hl]; rfl) t')).1,
    fun hl t' => (Loc.needsKey_of_not_exits (c t (by rw [hl]; rfl) t')).2⟩

section Step

variable {own : Iid → Tid} {s : St} {t : Tid} {a : Act} {l : Loc} {m : Mem} {e : Event}
  {h : List Event}

/-- A callback is entered before the key is deleted. -/
theorem deleted_of_exit {l₀ : Loc} {m₀ : Mem} (hm : Moves t .exit l₀ m₀ l m e)
    (hx : l.exits = true) : m₀.deleted = false := by
  cases hm with
  | callback _ hd => exact hd
  | die => cases hx

theorem Calm.step (c : Calm s) (hE : InSequence s t a) (hm : Moves t a (s.loc t) s.mem l m e) :
    Calm (s.move t l m) := by
  intro t₁ hdes t₂
  refine Bool.not_eq_true _ ▸ fun hx => ?_
  have hdes₀ : (s.loc t₁).destroys = true ∨ a = .destroy := by
    rcases eq_or_ne t₁ t with rfl | ht
    · exact destroys_of_moves hm (State.move_loc_self s t₁ l m ▸ hdes)
    · exact .inl (State.move_loc_of_ne s t l m ht ▸ hdes)
  have hx₀ : (s.loc t₂).exits = true ∨ a = .exit ∧ s.mem.deleted = false := by
    rcases eq_or_ne t₂ t with rfl | ht
    · rw [State.move_loc_self] at hx
      refine (exits_of_moves hm hx).imp_right fun ha => ⟨ha, ?_⟩
      subst ha
      exact deleted_of_exit hm hx
    · exact .inl (State.move_loc_of_ne s t l m ht ▸ hx)
  rcases hdes₀ with hdes₀ | rfl
  · rcases hx₀ with hx₀ | ⟨rfl, hd⟩
    · exact absurd (c t₁ hdes₀ t₂) (by simp [hx₀])
    · exact absurd (hE hd t₁) (by simp [hdes₀])
  · rcases hx₀ with hx₀ | ⟨ha, -⟩
    · exact absurd (hE.2 t₂).2.1 (by simp [hx₀])
    · cases ha

/-- **One step in sequence.** -/
theorem Kept.step (k : Kept own h s) (hE : InSequence s t a)
    (hm : Moves t a (s.loc t) s.mem l m e) :
    Kept (Function.update own s.mem.fresh t) (e :: h) (s.move t l m) := by
  have ha : a ≠ .fail := fun ha => by subst ha; exact hE
  exact ⟨k.order.step hE.inTurn hm, k.drained.step k.order hE.inTurn (k.calm.apart t a) hm,
    k.led.step k.order hE.inTurn (fun _ _ hl => k.drained.free k.order hl) hm, k.calm.step hE hm,
    k.owned.step k.order ha hm, k.valued.step k.owned k.order ha k.calm k.led hm⟩

theorem user_destructor_cases {l₀ : Loc} {m₀ : Mem} (hm : Moves t a l₀ m₀ l m e) :
    m.user_destructor = m₀.user_destructor ∨
      ∃ g, a = .setDestructor g ∧ m.user_destructor = some g := by
  cases hm <;> first | exact .inl rfl | exact .inr ⟨_, rfl, rfl⟩

theorem installed_of_called {l₀ : Loc} {m₀ : Mem} {f : Fid} {i : Iid} {p : Ptr}
    (hm : Moves t a l₀ m₀ l m (.called f i p)) : m₀.user_destructor = some f := by
  cases hm <;> assumption

theorem OneDestructor.step {f : Fid} (d : OneDestructor f h s) (hF : Fixed f s t a)
    (hm : Moves t a (s.loc t) s.mem l m e) : OneDestructor f (e :: h) (s.move t l m) := by
  constructor
  · rcases user_destructor_cases hm with hsame | ⟨g, rfl, hg⟩
    · exact hsame ▸ d.installed
    · exact .inr (hg.trans (congrArg some hF.2))
  · intro g i p hc
    rcases List.mem_cons.mp hc with rfl | hc
    · have hg := installed_of_called hm
      rcases d.installed with hn | hf
      · exact absurd (hn.symm.trans hg) (by simp)
      · exact Option.some.inj (hg.symm.trans hf)
    · exact d.calls g i p hc

end Step

/-! ## The key at rest -/

section Rest

variable {own : Iid → Tid} {h : List Event} {s : St}

theorem Kept.slot_of_listed (k : Kept own h s) (hrest : ∀ t, s.loc t = .idle ∨ s.loc t = .dead)
    {i : Iid} (hi : i ∈ s.mem.tsd_list) : s.mem.slot (own i) = some i := by
  obtain ⟨hf, hwhole⟩ := k.led.listed i hi
  rcases k.owned.has i hf with hs | hs | ⟨-, hs⟩
  · exact hs
  · rcases hrest (own i) with ht | ht <;> exact absurd hs (by simp [ht, Loc.item])
  · exact absurd hs (notMem_of_torn hwhole)

/-- At rest a live thread that has set a value has its item in the list. -/
theorem Kept.listed_of_setter (k : Kept own h s)
    (hd : s.mem.deleted = false) {t : Tid} (ht : s.loc t = .idle) (hl : lastSet t h ≠ none) :
    ∃ i ∈ s.mem.tsd_list, own i = t := by
  obtain ⟨i, hi, rfl⟩ := k.valued.setter t hl
  refine ⟨i, ?_, rfl⟩
  rcases k.owned.has i hi with hs | hs | ⟨hs, -⟩
  · exact k.led.gripped (own i) i (by simp [grips, ht, Loc.grip, hd, hs])
  · exact absurd hs (by simp [ht, Loc.item])
  · exact absurd (ht.symm.trans hs) (by simp)

/-- **Between calls the list is that of the live threads that have set a value.** -/
theorem Kept.list (k : Kept own h s) (hrest : ∀ t, s.loc t = .idle ∨ s.loc t = .dead)
    (hd : s.mem.deleted = false) :
    ∃ ts : List Tid, ts.Nodup ∧ (∀ t, t ∈ ts ↔ s.loc t = .idle ∧ lastSet t h ≠ none) ∧
      List.Forall₂ (fun t i => s.mem.slot t = some i ∧ lastSet t h = some (s.mem.item i).data)
        ts s.mem.tsd_list := by
  have hvalue : ∀ i ∈ s.mem.tsd_list, s.mem.slot (own i) = some i ∧
      lastSet (own i) h = some (s.mem.item i).data := fun i hi => by
    have hs := k.slot_of_listed hrest hi
    refine ⟨hs, k.valued.stored _ i hs ?_⟩
    rcases hrest (own i) with ht | ht <;> rw [ht] <;> rfl
  refine ⟨s.mem.tsd_list.map own, ?_, fun t => ⟨fun ht => ?_, fun ⟨ht, hl⟩ => ?_⟩, ?_⟩
  · refine (List.nodup_map_iff_inj_on k.led.nodup).mpr fun i hi j hj hij => ?_
    exact k.owned.inj i j (k.led.listed i hi).1 (k.led.listed j hj).1 hij
  · obtain ⟨i, hi, rfl⟩ := List.mem_map.mp ht
    obtain ⟨hs, hl⟩ := hvalue i hi
    refine ⟨(hrest (own i)).resolve_right fun hdead => ?_, by simp [hl]⟩
    rcases k.owned.buried _ hdead with hdel | hn
    · exact absurd (hd.symm.trans hdel) (by simp)
    · exact absurd (hn.symm.trans hs) (by simp)
  · exact List.mem_map.mpr (k.listed_of_setter hd ht hl)
  · exact List.forall₂_map_left_iff.mpr (List.forall₂_same.mpr hvalue)

theorem mem_filterMap_calls {i : Iid} :
    i ∈ h.filterMap Event.calls ↔ ∃ f p, .called f i p ∈ h := by
  rw [List.mem_filterMap]
  constructor
  · rintro ⟨e, he, hi⟩
    cases e <;> cases hi
    exact ⟨_, _, he⟩
  · rintro ⟨f, p, he⟩
    exact ⟨_, he, rfl⟩

/-- An item released, or one of a destroyed key at rest, has been handed on once. -/
theorem Kept.called_of_setter (k : Kept own h s) (w : Teardown h s)
    (hrest : ∀ t, s.loc t = .idle ∨ s.loc t = .dead) {i : Iid} (hi : i < s.mem.fresh)
    (hend : s.mem.deleted = true ∨ s.loc (own i) = .dead) : called h i = 1 := by
  have hgone : torn h i = (1, 1) := by
    rcases hend with hd | hdead
    · exact w.gone hd hrest hi
    · rcases k.owned.has i hi with hs | hs | ⟨-, hrel⟩
      · rcases k.owned.buried _ hdead with hd | hn
        · exact w.gone hd hrest hi
        · exact absurd (hn.symm.trans hs) (by simp)
      · exact absurd hs (by simp [hdead, Loc.item])
      · rcases w.strokes i with ⟨ht, -⟩ | ⟨ht, -⟩ | ⟨ht, -⟩
        · exact absurd hrel (notMem_of_torn ht)
        · exact absurd hrel (notMem_of_torn ht)
        · exact ht
  rcases w.strokes i with ⟨ht, -⟩ | ⟨ht, -⟩ | ⟨-, hc⟩
  · exact absurd (ht.symm.trans hgone) (by simp)
  · exact absurd (ht.symm.trans hgone) (by simp)
  · exact hc

/-- **The user destructor is called once for each thread that has set a value**, with its last, when
the thread has died or the key has been destroyed. -/
theorem Kept.calls {f : Fid} (k : Kept own h s) (w : Teardown h s) (d : OneDestructor f h s)
    (hrest : ∀ t, s.loc t = .idle ∨ s.loc t = .dead) :
    ∃ ts : List Tid, ts.Nodup ∧
      (∀ t, t ∈ ts ↔ lastSet t h ≠ none ∧ (s.mem.deleted = true ∨ s.loc t = .dead)) ∧
      calls h = ts.map fun t => (f, (lastSet t h).getD none) := by
  refine ⟨(h.filterMap Event.calls).map own, ?_, fun t => ⟨fun ht => ?_, fun ⟨hl, hend⟩ => ?_⟩, ?_⟩
  · have hnodup : (h.filterMap Event.calls).Nodup := List.nodup_iff_count_le_one.mpr fun i => by
      have hcount : (h.filterMap Event.calls).count i = called h i := by
        rw [List.count_filterMap, called]
        exact List.countP_congr fun e _ => by simp
      rw [hcount]
      rcases w.strokes i with ⟨-, hc⟩ | ⟨-, hc⟩ | ⟨-, hc⟩ <;> omega
    refine (List.nodup_map_iff_inj_on hnodup).mpr fun i hi j hj hij => ?_
    obtain ⟨g, p, hi⟩ := mem_filterMap_calls.mp hi
    obtain ⟨g', p', hj⟩ := mem_filterMap_calls.mp hj
    exact k.owned.inj i j (k.valued.calls g i p hi).1 (k.valued.calls g' j p' hj).1 hij
  · obtain ⟨i, hi, rfl⟩ := List.mem_map.mp ht
    obtain ⟨g, p, hi⟩ := mem_filterMap_calls.mp hi
    obtain ⟨hf, hu, hl⟩ := k.valued.calls g i p hi
    refine ⟨by simp [hl], ?_⟩
    -- otherwise it would still be listed
    by_contra hend
    obtain ⟨hd, hdead⟩ := not_or.mp hend
    obtain ⟨j, hj, hown⟩ := k.listed_of_setter (Bool.not_eq_true _ ▸ hd)
      ((hrest (own i)).resolve_right hdead) (by simp [hl])
    obtain rfl := k.owned.inj i j hf (k.led.listed j hj).1 hown.symm
    exact absurd hu (List.count_eq_zero.mp (Prod.mk.injEq .. ▸ (k.led.listed i hj).2).1)
  · obtain ⟨i, hi, rfl⟩ := k.valued.setter t hl
    refine List.mem_map.mpr ⟨i, ?_, rfl⟩
    have hpos : 0 < called h i := by simp [k.called_of_setter w hrest hi hend]
    obtain ⟨e, he, hcall⟩ := List.countP_pos_iff.mp hpos
    exact List.mem_filterMap.mpr ⟨e, he, by simpa using hcall⟩
  · rw [List.map_map, List.map_filterMap]
    refine List.filterMap_congr fun e he => ?_
    cases e with
    | called g i p =>
      simp [Event.call, Event.calls, d.calls g i p he, (k.valued.calls g i p he).2.2]
    | _ => rfl

end Rest

/-! ## Runs -/

/-- **A tracked key keeps each thread's value and destroys it once.**  Between calls the list has
one item for each live thread that has set a value, which holds its last; a get returns the thread's
last value; and the user destructor is called once for each thread that has set one, with it. -/
theorem values_kept {item : Iid → Item} {s : St} {π : List (Transition Tid Loc Mem Act Event)}
    (hp : trackedKey.Path (start item) π s) (hE : Allowed InSequence π) :
    ((∀ t, s.loc t = .idle ∨ s.loc t = .dead) → s.mem.deleted = false →
      ∃ ts : List Tid, ts.Nodup ∧
        (∀ t, t ∈ ts ↔ s.loc t = .idle ∧ lastSet t (events π) ≠ none) ∧
        List.Forall₂ (fun t i => s.mem.slot t = some i ∧
          lastSet t (events π) = some (s.mem.item i).data) ts s.mem.tsd_list) ∧
    (∀ h₁ h₂ t o p, events π = h₂ ++ .got t o p :: h₁ → p = (lastSet t h₁).getD none) ∧
    ∀ f, Allowed (Fixed f) π → (∀ t, s.loc t = .idle ∨ s.loc t = .dead) →
      ∃ ts : List Tid, ts.Nodup ∧ (∀ t, t ∈ ts ↔
        lastSet t (events π) ≠ none ∧ (s.mem.deleted = true ∨ s.loc t = .dead)) ∧
        calls (events π) = ts.map fun t => (f, (lastSet t (events π)).getD none) := by
  obtain ⟨own, k⟩ : ∃ own, Kept own (events π) s := hp.invariant (fun h s => ∃ own, Kept own h s) _
    (fun h s t a l m e ⟨own, k⟩ hE hexec => ⟨_, k.step hE (moves_of_exec hexec)⟩) hE
    ⟨fun _ => 0, start_kept _ item⟩
  refine ⟨k.list, k.valued.gots, fun f hF hrest => ?_⟩
  obtain ⟨-, w, d⟩ := hp.invariant
    (fun h s => (∃ own, Kept own h s) ∧ Teardown h s ∧ OneDestructor f h s)
    (fun s t a => InSequence s t a ∧ Fixed f s t a)
    (fun h s t a l m e ⟨⟨own, k⟩, w, d⟩ hE hexec =>
      ⟨⟨_, k.step hE.1 (moves_of_exec hexec)⟩,
        w.step hE.1.inTurn hE.2.installed (k.calm.apart t a) (k.calm.last t a)
          (moves_of_exec hexec),
        d.step hE.2 (moves_of_exec hexec)⟩)
    (fun x hx => ⟨hE x hx, hF x hx⟩)
    ⟨⟨fun _ => 0, start_kept _ item⟩, start_teardown item, .inl rfl, by simp⟩
  exact k.calls w d hrest

/-- `InSequence` and `Fixed`, where only threads below `n` have acted. -/
def InSequenceBelow (n : ℕ) (f : Fid) (s : St) (_ : Tid) : Act → Prop
  | .fail => False
  | .set _ | .get => s.mem.deleted = false ∧ ∀ t' < n, (s.loc t').destroys = false
  | .exit => s.mem.user_destructor = some f ∧
      (s.mem.deleted = false → ∀ t' < n, (s.loc t').destroys = false)
  | .destroy => s.mem.user_destructor = some f ∧ s.mem.deleted = false ∧ ∀ t' < n,
      (s.loc t').calling = false ∧ (s.loc t').exits = false ∧ (s.loc t').destroys = false
  | .setDestructor g => s.mem.user_destructor = none ∧ g = f
  | _ => True

instance (n : ℕ) (f : Fid) (s : St) (t : Tid) (a : Act) : Decidable (InSequenceBelow n f s t a) :=
  match a with
  | .fail => inferInstanceAs (Decidable False)
  | .set _ | .get =>
      inferInstanceAs (Decidable (s.mem.deleted = false ∧ ∀ t' < n, (s.loc t').destroys = false))
  | .exit => inferInstanceAs (Decidable (s.mem.user_destructor = some f ∧
      (s.mem.deleted = false → ∀ t' < n, (s.loc t').destroys = false)))
  | .destroy => inferInstanceAs (Decidable (s.mem.user_destructor = some f ∧
      s.mem.deleted = false ∧ ∀ t' < n,
        (s.loc t').calling = false ∧ (s.loc t').exits = false ∧ (s.loc t').destroys = false))
  | .setDestructor g => inferInstanceAs (Decidable (s.mem.user_destructor = none ∧ g = f))
  | .run | .stale _ => inferInstanceAs (Decidable True)

theorem inSequence_of_below {n : ℕ} {f : Fid} {s : St} {t : Tid} {a : Act}
    (hs : ∀ t, ¬ t < n → s.loc t = .idle) (h : InSequenceBelow n f s t a) :
    InSequence s t a ∧ Fixed f s t a := by
  have hdes := forall_of_below (A := fun l => l.destroys = false) hs rfl
  cases a with
  | set p | get => exact ⟨⟨h.1, hdes h.2⟩, trivial⟩
  | exit => exact ⟨fun hd => hdes (h.2 hd), h.1⟩
  | destroy =>
    exact ⟨⟨h.2.1, forall_of_below
      (A := fun l => l.calling = false ∧ l.exits = false ∧ l.destroys = false) hs ⟨rfl, rfl, rfl⟩
      h.2.2⟩, h.1⟩
  | setDestructor g => exact ⟨trivial, h⟩
  | fail => exact absurd h id
  | _ => exact ⟨trivial, trivial⟩

/-- **Two threads**: thread 0 sets twice, reads, exits; thread 1 sets; thread 2 destroys the key. -/
theorem values_kept_two : ∃ s π, trackedKey.Path (start fun _ => ⟨false, none⟩) π s ∧
    s.mem.deleted = true ∧ Event.got 0 (some 0) (some 20) ∈ events π ∧
    calls (events π) = [(7, some 11), (7, some 20)] ∧
    ∃ ts : List Tid, ts.Nodup ∧ (∀ t, t ∈ ts ↔
      lastSet t (events π) ≠ none ∧ (s.mem.deleted = true ∨ s.loc t = .dead)) ∧
      calls (events π) = ts.map fun t => (7, (lastSet t (events π)).getD none) := by
  obtain ⟨s, π, hp, hA, hE, hrest, hd, hgot, hcalls⟩ := exists_path_of_run (p := trackedKey)
    (s := start fun _ => ⟨false, none⟩)
    ((2, .setDestructor 7) :: firstSet 0 (some 10) ++ (0, .set (some 20)) :: lines 5 0 ++
      firstSet 1 (some 11) ++ (0, .get) :: lines 2 0 ++ (0, .exit) :: lines 8 0 ++
      (2, .destroy) :: lines 9 2)
    (P := fun s π => (∀ x ∈ π, x.tid < 3) ∧ Allowed (InSequenceBelow 3 7) π ∧
      (∀ t ∈ List.range 3, s.loc t = .idle ∨ s.loc t = .dead) ∧ s.mem.deleted = true ∧
      Event.got 0 (some 0) (some 20) ∈ events π ∧
      calls (events π) = [(7, some 11), (7, some 20)]) (by decide)
  have hall := hp.allowed_of_acting (A := (· < 3)) hA
    (fun _ _ _ hs h => inSequence_of_below hs h) hE
  have hidle := (hp.untouched (A := (· < 3)) hA).1
  exact ⟨s, π, hp, hd, hgot, hcalls, (values_kept hp (hall.mono fun _ _ _ h => h.1)).2.2 7
    (hall.mono fun _ _ _ h => h.2)
    (forall_of_below (A := fun l => l = .idle ∨ l = .dead) hidle (.inl rfl)
      fun t ht => hrest t (List.mem_range.mpr ht))⟩

end Libult.Tsd
