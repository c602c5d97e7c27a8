import Libult.Tsd.Accounts

/-!
# Tsd/Teardown — two sides tear down the same items

An exiting thread unlinks its item under `key->mutex`; the loop of `tsd_tracked_key_destructor`
unlinks every item without.  Nobody tears an item down twice as long as the loop takes no item —
into `tsd`, or into `next` — that an exiting thread has come for (`Apart`).
-/

namespace Libult.Tsd

open Interleaving Program Links

/-! ## The callers' side -/

/-- **Calls in turn**: none is in progress, and none begins, once the key's destructor has been
called. -/
def InTurn (s : St) (_ : Tid) : Act → Prop
  | .set _ | .get => s.mem.deleted = false ∧ ∀ t', (s.loc t').destroys = false
  | .destroy => s.mem.deleted = false ∧
      ∀ t', (s.loc t').calling = false ∧ (s.loc t').destroys = false
  | _ => True

/-- A user destructor is installed before any exit, and before the key's destruction. -/
def Installed (s : St) (_ : Tid) : Act → Prop
  | .exit | .destroy => s.mem.user_destructor ≠ none
  | _ => True

/-- What the loop takes with `o`: the item and the one after it. -/
def taken (l : List Iid) (o : Option Iid) : List Iid :=
  o.toList ++ (o.bind fun i => listNext i l).toList

/-- The items a step of the loop takes. -/
def Loc.taking (l : List Iid) : Loc → List Iid
  | .destroying .l37 => taken l l.head?
  | .destroying (.l37n next) => taken l next
  | _ => []

/-- **The two sides keep apart**: the loop takes an item only if no exiting thread has entered
`_tracked_destructor` with it and has yet to unlink it. -/
def Apart (s : St) (t : Tid) (_ : Act) : Prop :=
  ∀ i ∈ (s.loc t).taking s.mem.tsd_list, ∀ t', (s.loc t').entered ≠ some i

theorem Loc.calling_of_destroys {l : Loc} (h : l.destroys = true) : l.calling = false := by
  cases l <;> first | rfl | exact absurd h Bool.false_ne_true

/-- Once the key is deleted, only threads in its destructor have a grip. -/
theorem Loc.entered_of_grip {l : Loc} {slot : Option Iid} {i : Iid} (hc : l.calling = false)
    (h : l.grip slot true = some i) : l.entered = some i := by
  cases l with
  | idle | destroying _ => exact absurd h (by simp [Loc.grip])
  | set _ _ | get _ => exact absurd hc (by simp [Loc.calling])
  | exiting _ => exact h
  | dead => cases h

theorem Loc.grip_of_entered {l : Loc} {slot : Option Iid} {d : Bool} {i : Iid}
    (h : l.entered = some i) : l.grip slot d = some i := by
  cases l with
  | exiting _ => exact h
  | _ => cases h

/-! ## The order of the calls -/

/-- What a thread read from its slot is still there; what it is going to put there is new, or was
there. -/
def Loc.cached (slot : Option Iid) : Loc → Prop
  | .set _ (.l55 tsd) | .get (.l115 tsd) => slot = tsd
  | .set _ .l56 | .set _ (.l61 _) | .set _ (.l62 _) | .set _ (.l63 _) => slot = none
  | .set _ (.l66 tsd) | .set _ (.l67 tsd) | .set _ (.l69 tsd) => slot = none ∨ slot = some tsd
  | _ => True

/-- **The calls are in order.** -/
structure InOrder (s : St) : Prop where
  alone : ∀ t, (s.loc t).destroys = true →
    ∀ t', (s.loc t').calling = false ∧ (t' ≠ t → (s.loc t').destroys = false)
  calm : s.mem.deleted = true → ∀ t, (s.loc t).calling = false
  deleted : ∀ t pc, s.loc t = .destroying pc → pc ≠ .l36 → s.mem.deleted = true
  cached : ∀ t, (s.loc t).cached (s.mem.slot t)

theorem start_inOrder (item : Iid → Item) : InOrder (start item) :=
  ⟨by simp [start, Loc.destroys], by simp [start, Mem.construct], by simp [start],
    fun _ => trivial⟩

section Moves

variable {t : Tid} {a : Act} {l₀ l : Loc} {m₀ m : Mem} {e : Event}

/-- A call in progress was so before, or has just been made. -/
theorem calling_of_moves (hm : Moves t a l₀ m₀ l m e) (hl : l.calling = true) :
    l₀.calling = true ∨ a = .get ∨ ∃ p, a = .set p := by
  cases hm <;> first | exact absurd hl Bool.false_ne_true | exact .inl rfl | skip
  case callSet p => exact .inr (.inr ⟨p, rfl⟩)
  case callGet => exact .inr (.inl rfl)

/-- …and so is the destruction. -/
theorem destroys_of_moves (hm : Moves t a l₀ m₀ l m e) (hl : l.destroys = true) :
    l₀.destroys = true ∨ a = .destroy := by
  cases hm <;> first | exact absurd hl Bool.false_ne_true | exact .inl rfl | exact .inr rfl

/-- The key is deleted by line 36. -/
theorem deleted_of_moves (hm : Moves t a l₀ m₀ l m e) :
    m.deleted = m₀.deleted ∨ l₀ = .destroying .l36 ∧ l = .destroying .l37 ∧ m.deleted = true := by
  cases hm <;> first | exact .inl rfl | exact .inr ⟨rfl, rfl, rfl⟩

/-- Past line 36 a destruction has been there. -/
theorem destroying_of_moves {pc : DestroyPc} (hm : Moves t a l₀ m₀ l m e)
    (hl : l = .destroying pc) (hpc : pc ≠ .l36) :
    m.deleted = true ∨ ∃ pc₀, l₀ = .destroying pc₀ ∧ pc₀ ≠ .l36 := by
  cases hm <;> cases hl
  case callDestroy => exact absurd rfl hpc
  case destroy36 => exact .inl rfl
  all_goals exact .inr ⟨_, rfl, by simp⟩

/-- A slot is its thread's own. -/
theorem slot_of_moves (hm : Moves t a l₀ m₀ l m e) {t' : Tid} (ht : t' ≠ t) :
    m.slot t' = m₀.slot t' := by
  cases hm <;> first | exact Function.update_of_ne ht .. | rfl

theorem cached_of_moves (hm : Moves t a l₀ m₀ l m e) (h₀ : l₀.cached (m₀.slot t)) :
    l.cached (m.slot t) := by
  cases hm <;> first | exact h₀ | trivial | skip
  case set55 => exact .inr h₀
  case set63 => exact .inl h₀

end Moves

section Step

variable {s : St} {t : Tid} {a : Act} {l : Loc} {m : Mem} {e : Event} {h : List Event}

/-- **One step keeps the order of the calls.** -/
theorem InOrder.step (i : InOrder s) (hE : InTurn s t a) (hm : Moves t a (s.loc t) s.mem l m e) :
    InOrder (s.move t l m) := by
  have hdel := deleted_of_moves hm
  -- who calls, and who destroys, after the step
  have hcall : l.calling = true → (s.loc t).calling = true ∨
      s.mem.deleted = false ∧ ∀ t', (s.loc t').destroys = false := fun hl => by
    refine (calling_of_moves hm hl).imp_right ?_
    rintro (rfl | ⟨p, rfl⟩) <;> exact hE
  have hdestroy : l.destroys = true → (s.loc t).destroys = true ∨
      ∀ t', (s.loc t').calling = false ∧ (s.loc t').destroys = false := fun hl => by
    refine (destroys_of_moves hm hl).imp_right ?_
    rintro rfl
    exact hE.2
  refine ⟨fun t₁ h₁ t' => ?_, fun hd => ?_, fun t₁ pc h₁ hpc => ?_, ?_⟩
  · by_cases ht₁ : t₁ = t
    · rw [ht₁, State.move_loc_self] at h₁
      by_cases ht' : t' = t
      · rw [ht', State.move_loc_self]
        exact ⟨Loc.calling_of_destroys h₁, fun hne => absurd ht₁.symm hne⟩
      · rw [State.move_loc_of_ne _ _ _ _ ht']
        rcases hdestroy h₁ with h₁ | h₁
        · exact ⟨(i.alone t h₁ t').1, fun _ => (i.alone t h₁ t').2 ht'⟩
        · exact ⟨(h₁ t').1, fun _ => (h₁ t').2⟩
    · rw [State.move_loc_of_ne _ _ _ _ ht₁] at h₁
      by_cases ht' : t' = t
      · rw [ht', State.move_loc_self]
        refine ⟨Bool.not_eq_true _ ▸ fun hl => ?_, fun hne => Bool.not_eq_true _ ▸ fun hl => ?_⟩
        · rcases hcall hl with hl | ⟨-, hl⟩
          · exact absurd (i.alone t₁ h₁ t).1 (by simp [hl])
          · exact absurd h₁ (by simp [hl t₁])
        · rcases hdestroy hl with hl | hl
          · exact absurd ((i.alone t₁ h₁ t).2 hne) (by simp [hl])
          · exact absurd h₁ (by simp [(hl t₁).2])
      · rw [State.move_loc_of_ne _ _ _ _ ht']
        exact i.alone t₁ h₁ t'
  · refine (State.forall_move (A := fun _ l => l.calling = false) s t l m).mpr ?_
    rcases hdel with hsame | ⟨hl₀, rfl, -⟩
    · have hd₀ : s.mem.deleted = true := hsame ▸ hd
      refine ⟨Bool.not_eq_true _ ▸ fun hl => ?_, fun t' _ => i.calm hd₀ t'⟩
      rcases hcall hl with hl | ⟨hl, -⟩
      · exact absurd (i.calm hd₀ t) (by simp [hl])
      · exact absurd hd₀ (by simp [hl])
    · exact ⟨rfl, fun t' _ => (i.alone t (by rw [hl₀]; rfl) t').1⟩
  · have hmono : s.mem.deleted = true → m.deleted = true := fun hd => by
      rcases hdel with hsame | ⟨-, -, hd'⟩
      exacts [hsame.trans hd, hd']
    by_cases ht₁ : t₁ = t
    · rw [ht₁, State.move_loc_self] at h₁
      rcases destroying_of_moves hm h₁ hpc with hd | ⟨pc₀, hl₀, hpc₀⟩
      · exact hd
      · exact hmono (i.deleted t pc₀ hl₀ hpc₀)
    · rw [State.move_loc_of_ne _ _ _ _ ht₁] at h₁
      exact hmono (i.deleted t₁ pc h₁ hpc)
  · refine (State.forall_move (A := fun t' l => l.cached (m.slot t')) s t l m).mpr
      ⟨cached_of_moves hm (i.cached t), fun t' ht' => ?_⟩
    rw [slot_of_moves hm ht']
    exact i.cached t'

/-! ## The ledger of the items -/

/-- The ledger of the items of a state, with its history. -/
def Accounted (h : List Event) (s : St) : Prop :=
  Ledger (0, 0) (1, 1) (· < s.mem.fresh) s.mem.tsd_list (torn h) (hands s) (grips s)

/-- A move that leaves the other threads' slots alone. -/
theorem Accounted.of_move (hd : m.deleted = s.mem.deleted)
    (hs : ∀ t', t' ≠ t → m.slot t' = s.mem.slot t')
    (led : Ledger (0, 0) (1, 1) (· < m.fresh) m.tsd_list (torn h)
      (Function.update (hands s) t l.hand)
      (Function.update (grips s) t (l.grip (m.slot t) m.deleted))) :
    Accounted h (s.move t l m) := by
  rwa [Accounted, hands_move, grips_move hd hs]

/-- A step that moves no item. -/
theorem Accounted.quiet (led : Accounted h s) (hL : m.tsd_list = s.mem.tsd_list)
    (hf : m.fresh = s.mem.fresh) (ht : torn (e :: h) = torn h) (hh : l.hand = (s.loc t).hand)
    (hd : m.deleted = s.mem.deleted) (hs : ∀ t', t' ≠ t → m.slot t' = s.mem.slot t')
    (hg : ∀ i, l.grip (m.slot t) m.deleted = some i → grips s t = some i) :
    Accounted (e :: h) (s.move t l m) := by
  rw [Accounted, hands_move_eq hh, grips_move hd hs, State.move_mem, hL, hf, ht]
  refine Ledger.regrip led fun t' i hi => ?_
  rcases update_eq_some hi with ⟨rfl, hi⟩ | ⟨-, hi⟩
  exacts [hg i hi, hi]

/-- **One step keeps the ledger.** -/
theorem Accounted.step (i : InOrder s) (hE : InTurn s t a) (led : Accounted h s)
    (hdrain : ∀ tsd next, s.loc t = .destroying (.l38 tsd next) →
      tsd ∈ s.mem.tsd_list ∧ ∀ t', grips s t' ≠ some tsd)
    (hm : Moves t a (s.loc t) s.mem l m e) : Accounted (e :: h) (s.move t l m) := by
  have hslot : ∀ t', t' ≠ t → m.slot t' = s.mem.slot t' := fun _ ht => slot_of_moves hm ht
  have hcached := i.cached t
  have hgrip : grips s t = (s.loc t).grip (s.mem.slot t) s.mem.deleted := rfl
  have hcalm : (s.loc t).calling = true → s.mem.deleted = false := fun hc =>
    Bool.not_eq_true _ ▸ fun hd => by simp [i.calm hd t] at hc
  have hnew : a = .get ∨ (∃ p, a = .set p) → s.mem.deleted = false := by
    rintro (rfl | ⟨p, rfl⟩) <;> exact hE.1
  have hdeleted := i.deleted t
  have hsole := led.gripped_sole
  obtain ⟨loc, m₀⟩ := s
  dsimp only at hm hcalm hcached hgrip hdrain hslot hdeleted hnew
  generalize hl₀ : loc t = l₀ at hm hcalm hcached hgrip hdrain hdeleted
  have quiet := led.quiet (t := t) (l := l) (m := m) (e := e)
  dsimp only at quiet
  rw [hl₀, hgrip] at quiet
  have hhand : hands ⟨loc, m₀⟩ t = l₀.hand := congrArg Loc.hand hl₀
  have ungrip : ∀ t' j, Function.update (grips ⟨loc, m₀⟩) t none t' = some j →
      grips ⟨loc, m₀⟩ t' = some j := fun t' j hj => by
    rcases update_eq_some hj with ⟨-, hn⟩ | ⟨-, hj⟩
    exacts [absurd hn (by simp), hj]
  cases hm with
  | callSet =>
    refine quiet rfl rfl (torn_cons (by simp) (by simp)) rfl rfl hslot fun j hj => ?_
    simpa [Loc.grip, hnew (.inr ⟨_, rfl⟩)] using hj
  | callback hs hd =>
    refine quiet rfl rfl (torn_cons (by simp) (by simp)) rfl rfl hslot fun j hj => ?_
    simpa [Loc.grip, Loc.entered, hd, hs] using hj
  | set69 =>
    refine quiet rfl rfl (torn_cons (by simp) (by simp)) rfl rfl hslot fun j hj => ?_
    simpa [Loc.grip, Mem.setSlot, hcalm rfl] using hj
  | get114 =>
    refine quiet rfl rfl (torn_cons (by simp) (by simp)) rfl rfl hslot fun j hj => ?_
    simpa [Loc.grip, hcalm rfl] using hj
  | get115null =>
    refine quiet rfl rfl (torn_cons (by simp) (by simp)) rfl rfl hslot fun j hj => ?_
    have hnone : m.slot t = none := hcached
    exact absurd hj (by simp [Loc.grip, hnone])
  | @get115 _ tsd =>
    refine quiet rfl rfl (torn_cons (by simp) (by simp)) rfl rfl hslot fun j hj => ?_
    have hslot : m.slot t = some tsd := hcached
    simpa [Loc.grip, hcalm rfl, hslot] using hj
  | fail56 =>
    refine quiet rfl rfl (torn_cons (by simp) (by simp)) rfl rfl hslot fun j hj => ?_
    have hnone : m.slot t = none := hcached
    exact absurd hj (by simp [Loc.grip, hnone])
  | @fail69 _ p tsd =>
    refine quiet rfl rfl (torn_cons (by simp) (by simp)) rfl rfl hslot fun j hj => ?_
    have hor : m.slot t = none ∨ m.slot t = some tsd := hcached
    rcases hor with hnone | hsome
    · exact absurd hj (by simp [Loc.grip, hnone])
    · simpa [Loc.grip, hcalm rfl, hsome] using hj
  | set56 =>
    have hborn : ((· < m₀.fresh + 1) : Iid → Prop) = fun j => j = m₀.fresh ∨ j < m₀.fresh := by
      funext j
      exact propext (Nat.lt_succ_iff_lt_or_eq.trans or_comm)
    refine .of_move rfl hslot ?_
    change Ledger _ _ (· < m₀.fresh + 1) _ _ _ _
    rw [hborn, torn_cons (by simp) (by simp)]
    exact (Ledger.alloc led (Nat.lt_irrefl _) hhand).regrip ungrip
  | set62 =>
    refine .of_move rfl hslot ?_
    rw [torn_cons (by simp) (by simp)]
    exact Ledger.enlist led hhand
  | @exit15 _ tsd =>
    have hlisted := led.gripped t tsd hgrip
    refine .of_move rfl hslot ?_
    rw [torn_unlinked (led.listed tsd hlisted).2]
    exact led.take hlisted hhand (fun t' ht' hg => ht' (hsole t' t tsd tsd hg hgrip rfl)) (1, 0)
  | exit21 =>
    refine .of_move rfl hslot ?_
    rw [torn_released (led.held t _ _ hhand).2.2]
    exact (Ledger.drop led hhand).regrip ungrip
  | destroy36 =>
    rw [Accounted, hands_move_eq (l := .destroying .l37) hhand.symm, torn_cons (by simp) (by simp)]
    refine Ledger.regrip led fun t' j hj => ?_
    rcases eq_or_ne t' t with rfl | ht'
    · exact absurd hj (by simp [grips, Loc.grip])
    · rw [grips, State.move_loc_of_ne _ _ _ _ ht'] at hj
      exact Loc.grip_of_entered
        (Loc.entered_of_grip (i.alone t (congrArg Loc.destroys hl₀) t').1 hj)
  | @destroy38 _ tsd next =>
    obtain ⟨hlisted, hfree⟩ := hdrain tsd next rfl
    refine .of_move rfl hslot ?_
    rw [torn_unlinked (led.listed tsd hlisted).2]
    refine (led.take hlisted hhand (fun t' _ => hfree t') (1, 0)).regrip fun t' j hj => ?_
    rcases update_eq_some hj with ⟨-, hj⟩ | ⟨ht', hj⟩
    · exact absurd hj (by simp [Loc.grip, Mem.remove, hdeleted _ rfl (by simp)])
    · rwa [Function.update_of_ne ht']
  | destroy42 =>
    have hd := hdeleted _ rfl (by simp)
    refine .of_move rfl hslot ?_
    rw [torn_released (led.held t _ _ hhand).2.2]
    refine (Ledger.drop led hhand).regrip fun t' j hj => ?_
    rcases update_eq_some hj with ⟨-, hj⟩ | ⟨-, hj⟩
    · exact absurd hj (by simp [Loc.grip, hd])
    · exact hj
  | _ =>
    refine quiet rfl rfl (torn_cons (by simp) (by simp)) rfl rfl hslot fun j hj => ?_
    first | exact hj | (exact absurd hj (by simp [Loc.grip]))

end Step

end Libult.Tsd
