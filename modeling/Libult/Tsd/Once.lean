import Libult.Tsd.Drain
import Libult.Tsd.Lifetime

/-!
# Tsd/Once — every item is torn down once

Whoever takes an item off the list has it in its hand until it has released it, and hands it to the
user destructor on the way: each of the three strokes falls once.  Outside `Apart` the two sides may
both unlink one item, and one of them goes on with it after the other has released it; outside
`Last` the key ends under a thread that is still at it.
-/

namespace Libult.Tsd

open Interleaving Program Links

/-! ## The calls of the user destructor -/

/-- **Every item taken is handed on**: not yet by the hand that is about to, once otherwise. -/
structure Handed (h : List Event) (s : St) : Prop where
  served : ∀ t, (s.loc t).exits = true ∨ (s.loc t).destroys = true → s.mem.user_destructor ≠ none
  pending : ∀ t i, (s.loc t).uncalled = some i → called h i = 0
  done : ∀ i, (∀ t, (s.loc t).uncalled ≠ some i) → called h i = (torn h i).1

theorem start_handed (item : Iid → Item) : Handed [] (start item) :=
  ⟨by simp [start, Loc.exits, Loc.destroys], by simp [start, Loc.uncalled], by simp [called, torn]⟩

/-- What has yet to be handed on is in the hand. -/
theorem Loc.hand_of_uncalled {l : Loc} {i : Iid} (h : l.uncalled = some i) :
    l.hand = some (i, (1, 0)) := by
  unfold Loc.uncalled at h
  split at h <;> first | (obtain rfl := Option.some.inj h; rfl) | cases h

section Moves

variable {t : Tid} {a : Act} {l₀ l : Loc} {m₀ m : Mem} {e : Event}

theorem exits_of_moves (hm : Moves t a l₀ m₀ l m e) (hl : l.exits = true) :
    l₀.exits = true ∨ a = .exit := by
  cases hm <;> first | exact absurd hl Bool.false_ne_true | exact .inl rfl | exact .inr rfl

/-- A user destructor is replaced, never taken away. -/
theorem user_destructor_of_moves (hm : Moves t a l₀ m₀ l m e) (hd : m₀.user_destructor ≠ none) :
    m.user_destructor ≠ none := by
  cases hm <;> first | exact hd | exact Option.some_ne_none _

/-- A step takes an item, hands one on, or does neither. -/
theorem uncalled_of_moves (hm : Moves t a l₀ m₀ l m e)
    (hd : l₀.exits = true ∨ l₀.destroys = true → m₀.user_destructor ≠ none) :
    (l.uncalled = l₀.uncalled ∧ e.calls = none ∧ ∀ i, e ≠ .unlinked i) ∨
      (∃ i, l₀.uncalled = none ∧ l.uncalled = some i ∧ e = .unlinked i) ∨
      ∃ f i p, l₀.uncalled = some i ∧ l.uncalled = none ∧ e = .called f i p := by
  cases hm
  case exit15 | destroy38 => exact .inr (.inl ⟨_, rfl, rfl, rfl⟩)
  case exit19 | destroy40 => exact .inr (.inr ⟨_, _, _, rfl, rfl, rfl⟩)
  case exit18null hn => exact absurd hn (hd (.inl rfl))
  case destroy39null hn => exact absurd hn (hd (.inr rfl))
  all_goals exact .inl ⟨rfl, rfl, by simp⟩

/-- What a step uses is in the list, in the thread's hand or in its grip. -/
theorem used_of_moves {i : Iid} (hm : Moves t a l₀ m₀ l m e)
    (hs : ∀ pc, l₀ = .destroying pc → pc.shape m₀.tsd_list) (hu : e.uses = some i) :
    i ∈ m₀.tsd_list ∨ l₀.hand = some (i, (1, 0)) ∨
      l₀.grip (m₀.slot t) m₀.deleted = some i := by
  cases hm <;> cases hu
  case destroy37 hh => exact .inl (List.mem_of_head? hh)
  case destroy38 =>
    obtain ⟨r, hr, -⟩ := hs _ rfl
    exact .inl (hr ▸ List.mem_cons_self)
  case destroy37n hmem => exact .inl hmem
  case stale hnot =>
    exact absurd (List.mem_of_head? (hs _ rfl).symm) hnot
  case exit19 | destroy40 => exact .inr (.inl rfl)
  all_goals exact .inr (.inr rfl)

end Moves

section Step

variable {s : St} {t : Tid} {a : Act} {l : Loc} {m : Mem} {e : Event} {h : List Event}

theorem count_unlinked_cons {i : Iid} (he : e ≠ .unlinked i) :
    (torn (e :: h) i).1 = (torn h i).1 := List.count_cons_of_ne he

/-- Whoever is on either side finds a user destructor. -/
theorem Handed.served_step (c : Handed h s) (hI : Installed s t a)
    (hm : Moves t a (s.loc t) s.mem l m e) (t' : Tid)
    (h' : ((s.move t l m).loc t').exits = true ∨ ((s.move t l m).loc t').destroys = true) :
    m.user_destructor ≠ none := by
  refine user_destructor_of_moves hm ?_
  rcases eq_or_ne t' t with rfl | ht'
  · rw [State.move_loc_self] at h'
    rcases h' with h' | h'
    · rcases exits_of_moves hm h' with h₀ | rfl
      exacts [c.served t' (.inl h₀), hI]
    · rcases destroys_of_moves hm h' with h₀ | rfl
      exacts [c.served t' (.inr h₀), hI]
  · rw [State.move_loc_of_ne _ _ _ _ ht'] at h'
    exact c.served t' h'

/-- **One step keeps the calls.** -/
theorem Handed.step (c : Handed h s) (led : Accounted h s)
    (led' : Accounted (e :: h) (s.move t l m)) (hI : Installed s t a)
    (hm : Moves t a (s.loc t) s.mem l m e) : Handed (e :: h) (s.move t l m) := by
  have hhand : ∀ t' i, (s.loc t').uncalled = some i → hands s t' = some (i, (1, 0)) :=
    fun t' i hi => Loc.hand_of_uncalled hi
  have hself : (s.move t l m).loc t = l := State.move_loc_self ..
  have hother : ∀ t', t' ≠ t → (s.move t l m).loc t' = s.loc t' :=
    fun t' ht' => State.move_loc_of_ne _ _ _ _ ht'
  have hserved := c.served_step hI hm
  rcases uncalled_of_moves hm (c.served t) with
    ⟨hl, he, hu⟩ | ⟨i, hl₀, hl, rfl⟩ | ⟨f, i, p, hl₀, hl, rfl⟩
  · -- nothing is taken, nothing handed on
    have hsame : ∀ t', ((s.move t l m).loc t').uncalled = (s.loc t').uncalled := fun t' => by
      rcases eq_or_ne t' t with rfl | ht'
      · rw [hself, hl]
      · rw [hother t' ht']
    refine ⟨hserved, fun t' j hj => ?_, fun j hj => ?_⟩
    · rw [called_cons (by simp [he])]
      exact c.pending t' j (hsame t' ▸ hj)
    · rw [called_cons (by simp [he]), count_unlinked_cons (hu j)]
      exact c.done j fun t' => hsame t' ▸ hj t'
  · -- `i` is taken: its first stroke
    have htorn : torn (.unlinked i :: h) i = (1, 0) :=
      (led'.held t i (1, 0) (Loc.hand_of_uncalled ((congrArg Loc.uncalled hself).trans hl))).2.2
    have hfirst : (torn h i).1 = 0 := by simpa [torn] using congrArg Prod.fst htorn
    have hnobody : ∀ t', (s.loc t').uncalled ≠ some i := fun t' hi => by
      simp [(led.held t' i (1, 0) (hhand t' i hi)).2.2] at hfirst
    refine ⟨hserved, fun t' j hj => ?_, fun j hj => ?_⟩
    · rw [called_cons (by simp [Event.calls])]
      rcases eq_or_ne t' t with rfl | ht'
      · obtain rfl := Option.some.inj (hl.symm.trans (hself ▸ hj))
        rw [c.done i hnobody, hfirst]
      · exact c.pending t' j (hother t' ht' ▸ hj)
    · have hji : i ≠ j := fun hij => hj t (hself.symm ▸ hij ▸ hl)
      rw [called_cons (by simp [Event.calls]), count_unlinked_cons (by simpa using hji)]
      refine c.done j fun t' hj' => ?_
      rcases eq_or_ne t' t with rfl | ht'
      · exact absurd (hl₀.symm.trans hj') (by simp)
      · exact hj t' (hother t' ht' ▸ hj')
  · -- `i` is handed on
    have hheld := hhand t i hl₀
    refine ⟨hserved, fun t' j hj => ?_, fun j hj => ?_⟩
    · rcases eq_or_ne t' t with rfl | ht'
      · exact absurd (hl.symm.trans (hself ▸ hj)) (by simp)
      · have hj₀ : (s.loc t').uncalled = some j := hother t' ht' ▸ hj
        have hij : j ≠ i := led.ne_of_held hheld ht' (hhand t' j hj₀)
        rw [called_cons (by simpa [Event.calls] using hij.symm)]
        exact c.pending t' j hj₀
    · rw [count_unlinked_cons (by simp)]
      rcases eq_or_ne j i with rfl | hij
      · rw [called_called, c.pending t j hl₀, (led.held t j (1, 0) hheld).2.2]
      · rw [called_cons (by simpa [Event.calls] using hij.symm)]
        refine c.done j fun t' hj' => ?_
        rcases eq_or_ne t' t with rfl | ht'
        · exact hij (Option.some.inj (hj'.symm.trans hl₀))
        · exact hj t' (hother t' ht' ▸ hj')

/-- **Nothing is used after its release.** -/
theorem NoUseAfterRelease.step (n : NoUseAfterRelease h) (d : Drained s) (led : Accounted h s)
    (hm : Moves t a (s.loc t) s.mem l m e) : NoUseAfterRelease (e :: h) := by
  refine List.pairwise_cons.mpr ⟨fun e' he' i hi hrel => ?_, n⟩
  have hclean : ∃ n, torn h i = (n, 0) := by
    rcases used_of_moves hm (d.shape t) hi with hL | hhand | hgrip
    · exact ⟨0, (led.listed i hL).2⟩
    · exact ⟨1, (led.held t i (1, 0) hhand).2.2⟩
    · exact ⟨0, (led.listed i (led.gripped t i hgrip)).2⟩
  obtain ⟨n, hn⟩ := hclean
  exact notMem_of_torn hn (hrel ▸ he')

end Step

/-! ## Runs -/

/-- **The state of the teardown**, with its history. -/
structure Teardown (h : List Event) (s : St) : Prop where
  order : InOrder s
  drained : Drained s
  led : Accounted h s
  handed : Handed h s
  clean : NoUseAfterRelease h
  outlived : Outlived s
  born : ∀ i, .appended i ∈ h → i < s.mem.fresh

theorem start_teardown (item : Iid → Item) : Teardown [] (start item) :=
  ⟨start_inOrder item, start_drained item, Ledger.empty fun i => Nat.not_lt_zero i,
    start_handed item, .nil, start_outlived item, by simp⟩

section Step

variable {s : St} {t : Tid} {a : Act} {l : Loc} {m : Mem} {e : Event} {h : List Event}

/-- What the loop is about to unlink is in the list, and nobody else's. -/
theorem Drained.free (d : Drained s) (o : InOrder s) {tsd : Iid} {next : Option Iid}
    (hl : s.loc t = .destroying (.l38 tsd next)) :
    tsd ∈ s.mem.tsd_list ∧ ∀ t', grips s t' ≠ some tsd := by
  obtain ⟨r, hr, -⟩ := d.shape t _ hl
  have hdel := o.deleted t _ hl (by simp)
  refine ⟨hr ▸ List.mem_cons_self, fun t' hg => ?_⟩
  rw [grips, hdel] at hg
  exact d.mine t _ hl tsd List.mem_cons_self t' (Loc.entered_of_grip (o.calm hdel t') hg)

/-- Items are appended by the hand that allocated them. -/
theorem appended_of_moves {l₀ : Loc} {m₀ : Mem} {i : Iid} (hm : Moves t a l₀ m₀ l m (.appended i)) :
    l₀.hand = some (i, (0, 0)) := by
  cases hm
  rfl

theorem fresh_of_moves {l₀ : Loc} {m₀ : Mem} (hm : Moves t a l₀ m₀ l m e) :
    m₀.fresh ≤ m.fresh := by
  cases hm <;> first | exact Nat.le_refl _ | exact Nat.le_succ _

/-- **One step of the teardown.** -/
theorem Teardown.step (w : Teardown h s) (hE : InTurn s t a) (hI : Installed s t a)
    (hA : Apart s t a) (hL : Last s t a) (hm : Moves t a (s.loc t) s.mem l m e) :
    Teardown (e :: h) (s.move t l m) := by
  have led' := w.led.step w.order hE (fun _ _ hl => w.drained.free w.order hl) hm
  refine ⟨w.order.step hE hm, w.drained.step w.order hE hA hm, led',
    w.handed.step w.led led' hI hm, w.clean.step w.drained w.led hm,
    w.outlived.step w.order hE hL hm, fun i hi => ?_⟩
  refine Nat.lt_of_lt_of_le ?_ (fresh_of_moves hm)
  rcases List.mem_cons.mp hi with rfl | hi
  · exact (w.led.held t i (0, 0) (appended_of_moves hm)).1
  · exact w.born i hi

end Step

/-- **What destruction comes to**: no stroke falls twice on an item and none after its release, no
line uses the mutex, the list or the key when it is no more, and once the key is destroyed and all
is quiet each stroke has fallen on every item that was in the list. -/
structure TornDownOnce (π : List (Transition Tid Loc Mem Act Event)) (s : St) : Prop where
  strokes : ∀ i, (events π).count (.unlinked i) ≤ 1 ∧ called (events π) i ≤ 1 ∧
    (events π).count (.released i) ≤ 1
  clean : NoUseAfterRelease (events π)
  alive : ∀ x ∈ π, ¬ Misuses x.pre x.tid
  complete : s.mem.deleted = true → (∀ t, s.loc t = .idle ∨ s.loc t = .dead) →
    ∀ i, .appended i ∈ events π → (events π).count (.unlinked i) = 1 ∧ called (events π) i = 1 ∧
      (events π).count (.released i) = 1

theorem Loc.hand_stage {l : Loc} {i : Iid} {v : ℕ × ℕ} (h : l.hand = some (i, v)) :
    v = (0, 0) ∨ v = (1, 0) := by
  unfold Loc.hand at h
  split at h <;> cases h
  exacts [.inl rfl, .inl rfl, .inr rfl, .inr rfl, .inr rfl, .inr rfl, .inr rfl, .inr rfl, .inr rfl]

/-- **How far an item has been torn down**: not at all, in a hand, or to the end. -/
theorem Teardown.strokes {h : List Event} {s : St} (w : Teardown h s) (i : Iid) :
    torn h i = (0, 0) ∧ called h i = 0 ∨ torn h i = (1, 0) ∧ called h i ≤ 1 ∨
      torn h i = (1, 1) ∧ called h i = 1 := by
  -- unless it is in a hand, all that has been unlinked has been handed on
  have hdone : torn h i ≠ (1, 0) → called h i = (torn h i).1 := fun hne =>
    w.handed.done i fun t hi => hne (w.led.held t i (1, 0) (Loc.hand_of_uncalled hi)).2.2
  have hstage : torn h i = (0, 0) ∨ torn h i = (1, 0) ∨ torn h i = (1, 1) := by
    by_cases hA : i < s.mem.fresh
    · rcases w.led.accounted i hA with hL | ⟨t, v, hv⟩ | hgone
      · exact .inl (w.led.listed i hL).2
      · rw [(w.led.held t i v hv).2.2]
        exact (Loc.hand_stage hv).imp_right .inl
      · exact .inr (.inr hgone)
    · exact .inl (w.led.unborn i hA)
  rcases hstage with h₀ | h₁ | h₂
  · exact .inl ⟨h₀, by simp [hdone (by simp [h₀]), h₀]⟩
  · refine .inr (.inl ⟨h₁, ?_⟩)
    by_cases hex : ∃ t, (s.loc t).uncalled = some i
    · obtain ⟨t, ht⟩ := hex
      simp [w.handed.pending t i ht]
    · simp [w.handed.done i (not_exists.mp hex), h₁]
  · exact .inr (.inr ⟨h₂, by simp [hdone (by simp [h₂]), h₂]⟩)

/-- At rest after its destruction the key has no item left. -/
theorem Teardown.gone {h : List Event} {s : St} (w : Teardown h s) (hd : s.mem.deleted = true)
    (hrest : ∀ t, s.loc t = .idle ∨ s.loc t = .dead) {i : Iid} (hi : i < s.mem.fresh) :
    torn h i = (1, 1) := by
  have hnil : s.mem.tsd_list = [] := w.drained.emptied hd fun t => by
    rcases hrest t with ht | ht <;> rw [ht] <;> rfl
  rcases w.led.accounted i hi with hL | ⟨t, v, hv⟩ | hgone
  · exact absurd (hnil ▸ hL) List.not_mem_nil
  · rcases hrest t with ht | ht <;> exact absurd hv (by simp [hands, ht, Loc.hand])
  · exact hgone

/-- **The condition**: the calls are in turn and a user destructor is installed, the two sides keep
apart, and the mutex and the key end last. -/
def Orderly (s : St) (t : Tid) (a : Act) : Prop :=
  InTurn s t a ∧ Installed s t a ∧ Apart s t a ∧ Last s t a

theorem teardown_of_path {item : Iid → Item} {s : St} {π : List (Transition Tid Loc Mem Act Event)}
    (hp : trackedKey.Path (start item) π s) (hE : Allowed Orderly π) : Teardown (events π) s :=
  hp.invariant Teardown Orderly (fun _ _ _ _ _ _ _ w hE hexec =>
    w.step hE.1 hE.2.1 hE.2.2.1 hE.2.2.2 (moves_of_exec hexec)) hE (start_teardown item)

/-- `InTurn` and `Installed`, where only threads below `n` have acted. -/
def InTurnBelow (n : ℕ) (s : St) (_ : Tid) : Act → Prop
  | .set _ | .get => s.mem.deleted = false ∧ ∀ t' < n, (s.loc t').destroys = false
  | .exit => s.mem.user_destructor ≠ none
  | .destroy => s.mem.user_destructor ≠ none ∧ s.mem.deleted = false ∧
      ∀ t' < n, (s.loc t').calling = false ∧ (s.loc t').destroys = false
  | _ => True

instance (n : ℕ) (s : St) (t : Tid) (a : Act) : Decidable (InTurnBelow n s t a) := by
  cases a <;> (unfold InTurnBelow; infer_instance)

/-- `Apart`, likewise. -/
def ApartBelow (n : ℕ) (s : St) (t : Tid) (_ : Act) : Prop :=
  ∀ i ∈ (s.loc t).taking s.mem.tsd_list, ∀ t' < n, (s.loc t').entered ≠ some i

instance (n : ℕ) (s : St) (t : Tid) (a : Act) : Decidable (ApartBelow n s t a) := by
  unfold ApartBelow
  infer_instance

/-- `Last`, likewise. -/
def LastBelow (n : ℕ) (s : St) (t : Tid) (_ : Act) : Prop :=
  (s.loc t = .destroying .l44 → ∀ t' < n, (s.loc t').needsMutex = false) ∧
    (s.loc t = .destroying .l45 → ∀ t' < n, (s.loc t').needsKey = false)

instance (n : ℕ) (s : St) (t : Tid) (a : Act) : Decidable (LastBelow n s t a) := by
  unfold LastBelow
  infer_instance

theorem forall_of_below {A : Loc → Prop} {n : ℕ} {s : St} (hs : ∀ t, ¬ t < n → s.loc t = .idle)
    (hidle : A .idle) (h : ∀ t < n, A (s.loc t)) (t : Tid) : A (s.loc t) := by
  by_cases ht : t < n
  · exact h t ht
  · exact hs t ht ▸ hidle

theorem inTurn_of_below {n : ℕ} {s : St} {t : Tid} {a : Act}
    (hs : ∀ t, ¬ t < n → s.loc t = .idle) (h : InTurnBelow n s t a) :
    InTurn s t a ∧ Installed s t a := by
  cases a with
  | set p | get =>
    exact ⟨⟨h.1, forall_of_below (A := fun l => l.destroys = false) hs rfl h.2⟩, trivial⟩
  | exit => exact ⟨trivial, h⟩
  | destroy =>
    exact ⟨⟨h.2.1, forall_of_below (A := fun l => l.calling = false ∧ l.destroys = false) hs
      ⟨rfl, rfl⟩ h.2.2⟩, h.1⟩
  | _ => exact ⟨trivial, trivial⟩

theorem apart_of_below {n : ℕ} {s : St} {t : Tid} {a : Act}
    (hs : ∀ t, ¬ t < n → s.loc t = .idle) (h : ApartBelow n s t a) : Apart s t a :=
  fun i hi => forall_of_below (A := fun l => l.entered ≠ some i) hs (by simp [Loc.entered]) (h i hi)

theorem last_of_below {n : ℕ} {s : St} {t : Tid} {a : Act}
    (hs : ∀ t, ¬ t < n → s.loc t = .idle) (h : LastBelow n s t a) : Last s t a :=
  ⟨fun hl => forall_of_below (A := fun l => l.needsMutex = false) hs rfl (h.1 hl),
    fun hl => forall_of_below (A := fun l => l.needsKey = false) hs rfl (h.2 hl)⟩

/-- `n` lines of one thread. -/
def lines (n : ℕ) (t : Tid) : List (Tid × Act) := List.replicate n (t, .run)

/-- A first set, from its call to its return. -/
def firstSet (t : Tid) (p : Ptr) : List (Tid × Act) := (t, .set p) :: lines 9 t

end Libult.Tsd
