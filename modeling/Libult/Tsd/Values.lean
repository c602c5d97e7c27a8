import Libult.Tsd.Once

/-!
# Tsd/Values — each thread's item holds its last value

Every item belongs to the thread that allocated it, and a thread has one item at most: in its slot,
or in its hands during a set or at its exit.  What the slot leads to is the value of its last set:
that is what `tsd_tracked_key_get` returns and what the user destructor is called with.
-/

namespace Libult.Tsd

open Interleaving Program Links

/-- The value of a thread's last set; `none` if there was none. -/
def lastSet (t : Tid) : List Event → Option Ptr
  | [] => none
  | .set t' p :: h => if t' = t then some p else lastSet t h
  | _ :: h => lastSet t h

/-- **Calls, then destruction**: sets succeed, and the key is destroyed once no set, get or exit
callback is in progress. -/
def InSequence (s : St) (_ : Tid) : Act → Prop
  | .fail => False
  | .set _ | .get => s.mem.deleted = false ∧ ∀ t', (s.loc t').destroys = false
  | .exit => s.mem.deleted = false → ∀ t', (s.loc t').destroys = false
  | .destroy => s.mem.deleted = false ∧
      ∀ t', (s.loc t').calling = false ∧ (s.loc t').exits = false ∧ (s.loc t').destroys = false
  | _ => True

/-- One user destructor, installed before any exit and never changed. -/
def Fixed (f : Fid) (s : St) (_ : Tid) : Act → Prop
  | .setDestructor g => s.mem.user_destructor = none ∧ g = f
  | .exit | .destroy => s.mem.user_destructor = some f
  | _ => True

instance (f : Fid) (s : St) (t : Tid) (a : Act) : Decidable (Fixed f s t a) :=
  match a with
  | .setDestructor g => inferInstanceAs (Decidable (s.mem.user_destructor = none ∧ g = f))
  | .exit | .destroy => inferInstanceAs (Decidable (s.mem.user_destructor = some f))
  | .set _ | .get | .run | .fail | .stale _ => inferInstanceAs (Decidable True)

theorem InSequence.inTurn {s : St} {t : Tid} {a : Act} (h : InSequence s t a) : InTurn s t a := by
  cases a with
  | set p | get => exact h
  | destroy => exact ⟨h.1, fun t' => ⟨(h.2 t').1, (h.2 t').2.2⟩⟩
  | fail => exact absurd h id
  | _ => trivial

theorem Fixed.installed {f : Fid} {s : St} {t : Tid} {a : Act} (h : Fixed f s t a) :
    Installed s t a := by
  cases a with
  | exit | destroy => exact fun hn => by simp [Fixed, hn] at h
  | _ => trivial

/-! ## The item of a thread -/

/-- The item a thread has in its hands. -/
def Loc.item : Loc → Option Iid
  | .set _ (.l61 i) | .set _ (.l62 i) | .set _ (.l63 i) | .set _ (.l66 i) | .set _ (.l67 i)
  | .set _ (.l69 i) => some i
  | .exiting (.l7 arg) => arg
  | .exiting (.l12 i) | .exiting (.l14 i) | .exiting (.l15 i) | .exiting (.l16 i)
  | .exiting (.l18 i) | .exiting (.l19 i) | .exiting (.l21 i) => some i
  | _ => none

/-- The item it has written, and what, before its set returns. -/
def Loc.writing : Loc → Option (Iid × Ptr)
  | .set p (.l67 i) | .set p (.l69 i) => some (i, p)
  | _ => none

section Moves

variable {t : Tid} {a : Act} {l₀ l : Loc} {m₀ m : Mem} {e : Event} {i : Iid}

theorem ne_dead_of_moves (hm : Moves t a l₀ m₀ l m e) : l₀ ≠ .dead := by
  cases hm <;> simp

/-- A thread gets an item from its slot or allocates it. -/
theorem item_of_moves (hm : Moves t a l₀ m₀ l m e) (hc : l₀.cached (m₀.slot t))
    (hl : l.item = some i) : l₀.item = some i ∨ m₀.slot t = some i ∨
      i = m₀.fresh ∧ m.fresh = m₀.fresh + 1 := by
  cases hm <;> first | exact .inl hl | cases hl
  case set55 => exact .inr (.inl hc)
  case set56 => exact .inr (.inr ⟨rfl, rfl⟩)
  case callback _ hs => exact .inr (.inl hs)

/-- Its slot gets an item from its hands, when a set returns. -/
theorem slot_of_moves_self (hm : Moves t a l₀ m₀ l m e) (hs : m.slot t = some i) :
    m₀.slot t = some i ∨ l₀.item = some i ∧ ∃ p, e = .set t p := by
  cases hm <;> first | exact .inl hs | skip
  case callback => exact absurd hs (by simp [Mem.setSlot])
  case set69 => exact .inr ⟨by simpa [Mem.setSlot, Loc.item] using hs, _, rfl⟩

/-- **It loses no item**, except by releasing it at its exit. -/
theorem kept_of_moves (hm : Moves t a l₀ m₀ l m e) (ha : a ≠ .fail) (hc : l₀.cached (m₀.slot t))
    (hi : m₀.slot t = some i ∨ l₀.item = some i) :
    m.slot t = some i ∨ l.item = some i ∨ l = .dead ∧ e = .released i := by
  rcases hi with hs | hi
  · cases hm <;> first | exact .inl hs | exact absurd rfl ha | skip
    case callback htsd _ => exact .inr (.inl (htsd.symm.trans hs))
    case set69 tsd =>
      have hor : m₀.slot t = none ∨ m₀.slot t = some tsd := hc
      rcases hor with hnone | hsome
      · exact absurd (hnone.symm.trans hs) (by simp)
      · exact .inl (by simpa [Mem.setSlot] using hsome.symm.trans hs)
  · cases hm <;> first | exact .inr (.inl hi) | exact absurd rfl ha | cases hi
    case set69.refl => exact .inl (Function.update_self ..)
    case exit21.refl => exact .inr (.inr ⟨rfl, rfl⟩)

/-- A thread that dies leaves its slot empty, unless the key has been deleted. -/
theorem slot_of_dead (hm : Moves t a l₀ m₀ l m e) (hl : l = .dead)
    (h₀ : l₀.exits = true → m₀.slot t = none) : m.deleted = true ∨ m.slot t = none := by
  cases hm <;> cases hl
  case die h => exact h.symm
  case exit7null | exit21 => exact .inr (h₀ rfl)

/-- …and so does one that is about to. -/
theorem slot_of_exits (hm : Moves t a l₀ m₀ l m e) (hl : l.exits = true)
    (h₀ : l₀.exits = true → m₀.slot t = none) : m.slot t = none := by
  cases hm <;> first | exact absurd hl Bool.false_ne_true | exact h₀ rfl | skip
  case callback => exact Function.update_self ..

/-- An item is written by the thread that has it in its hands. -/
theorem data_of_moves (hm : Moves t a l₀ m₀ l m e) (i : Iid) :
    (m.item i).data = (m₀.item i).data ∨
      l₀.item = some i ∧ ∃ p, l.writing = some (i, p) ∧ (m.item i).data = p := by
  cases hm <;> first | exact .inl rfl | skip
  case set66 p tsd =>
    rcases eq_or_ne i tsd with rfl | hi
    · exact .inr ⟨rfl, p, rfl, by simp [Mem.setItem]⟩
    · exact .inl (by simp [Mem.setItem, hi])
  case set67 p tsd =>
    rcases eq_or_ne i tsd with rfl | hi
    · exact .inl (by simp [Mem.setItem])
    · exact .inl (by simp [Mem.setItem, hi])

/-- What has been written is what is being written. -/
theorem writing_of_moves {p : Ptr} (hm : Moves t a l₀ m₀ l m e) (hl : l.writing = some (i, p)) :
    (m.item i).data = p ∨ l₀.writing = some (i, p) := by
  cases hm <;> first | exact .inr hl | cases hl
  case set66 => exact .inl (by simp [Mem.setItem])

/-- …until the set returns, with the item in the slot. -/
theorem written_of_moves {p : Ptr} (hm : Moves t a l₀ m₀ l m e) (ha : a ≠ .fail)
    (h₀ : l₀.writing = some (i, p)) :
    l.writing = some (i, p) ∨ e = .set t p ∧ m.slot t = some i := by
  cases hm <;> first | exact .inl h₀ | cases h₀
  case set69 => exact .inr ⟨rfl, Function.update_self ..⟩
  case fail69 => exact absurd rfl ha

/-- A set that returns has written an item it has a grip on. -/
theorem set_of_moves {t' : Tid} {p : Ptr} (hm : Moves t a l₀ m₀ l m (.set t' p)) :
    t' = t ∧ ∃ i, l₀.writing = some (i, p) ∧ l₀.grip (m₀.slot t) m₀.deleted = some i := by
  cases hm
  exact ⟨rfl, _, rfl, rfl⟩

/-- A thread leaves with the item of its slot. -/
theorem leaving_of_moves (hm : Moves t a l₀ m₀ l m e) (hx : l.exits = true) (hl : l.item = some i) :
    (∀ p, e ≠ .set t p) ∧ l.writing = none ∧
      (l₀.exits = true ∧ l₀.item = some i ∨ m₀.slot t = some i ∧ l₀.writing = none) := by
  cases hm <;> first
    | exact absurd hx Bool.false_ne_true | exact ⟨by simp, rfl, .inl ⟨rfl, hl⟩⟩ | skip
  case callback hs _ => exact ⟨by simp, rfl, .inr ⟨hs.trans hl, rfl⟩⟩

/-- The user destructor is called with the data of an item in the hand. -/
theorem called_of_moves {f : Fid} {p : Ptr} (hm : Moves t a l₀ m₀ l m (.called f i p)) :
    p = (m₀.item i).data ∧ l₀.hand = some (i, (1, 0)) ∧
      (l₀.exits = true ∧ l₀.item = some i ∨ l₀.destroys = true) := by
  cases hm
  case exit19 => exact ⟨rfl, rfl, .inl ⟨rfl, rfl⟩⟩
  case destroy40 => exact ⟨rfl, rfl, .inr rfl⟩

/-- A get returns what its slot leads to. -/
theorem got_of_moves {t' : Tid} {o : Option Iid} {p : Ptr} (hm : Moves t a l₀ m₀ l m (.got t' o p))
    (hc : l₀.cached (m₀.slot t)) : t' = t ∧ l₀.item = none ∧ l₀.writing = none ∧
      p = (m₀.slot t).bind fun i => (m₀.item i).data := by
  cases hm
  case get115null =>
    have hnone : m₀.slot t = none := hc
    exact ⟨rfl, rfl, rfl, by simp [hnone]⟩
  case get115 tsd =>
    have hsome : m₀.slot t = some tsd := hc
    exact ⟨rfl, rfl, rfl, by simp [hsome]⟩

end Moves

/-- **Every item is its thread's**, and a thread has one at most. -/
structure Owned (own : Iid → Tid) (h : List Event) (s : St) : Prop where
  inj : ∀ i j, i < s.mem.fresh → j < s.mem.fresh → own i = own j → i = j
  slot : ∀ t i, s.mem.slot t = some i → i < s.mem.fresh ∧ own i = t
  item : ∀ t i, (s.loc t).item = some i → i < s.mem.fresh ∧ own i = t
  has : ∀ i, i < s.mem.fresh → s.mem.slot (own i) = some i ∨ (s.loc (own i)).item = some i ∨
    s.loc (own i) = .dead ∧ .released i ∈ h
  left : ∀ t, (s.loc t).exits = true → s.mem.slot t = none
  buried : ∀ t, s.loc t = .dead → s.mem.deleted = true ∨ s.mem.slot t = none

theorem start_owned (own : Iid → Tid) (item : Iid → Item) : Owned own [] (start item) := by
  constructor <;> simp [start, Mem.construct, Loc.item, Loc.exits]

section Step

variable {own : Iid → Tid} {s : St} {t : Tid} {a : Act} {l : Loc} {m : Mem} {e : Event}
  {h : List Event}

theorem fresh_or_of_moves {l₀ : Loc} {m₀ : Mem} (hm : Moves t a l₀ m₀ l m e) :
    m.fresh = m₀.fresh ∨
      m.fresh = m₀.fresh + 1 ∧ ∃ p, l₀ = .set p .l56 ∧ l.item = some m₀.fresh := by
  cases hm <;> first | exact .inl rfl | exact .inr ⟨rfl, _, rfl, rfl⟩

/-- An item was there before, or the step has just allocated it. -/
theorem born_of_moves {l₀ : Loc} {m₀ : Mem} (hm : Moves t a l₀ m₀ l m e) {j : Iid}
    (hj : j < m.fresh) :
    j < m₀.fresh ∨ j = m₀.fresh ∧ ∃ p, l₀ = .set p .l56 ∧ l.item = some m₀.fresh := by
  rcases fresh_or_of_moves hm with hf | ⟨hf, hnew⟩
  · exact .inl (hf ▸ hj)
  · rcases Nat.lt_succ_iff_lt_or_eq.mp (hf ▸ hj) with hj | hj
    exacts [.inl hj, .inr ⟨hj, hnew⟩]

/-- A thread that allocates has no item. -/
theorem Owned.first (o : Owned own h s) (i : InOrder s) {p : Ptr} (hl : s.loc t = .set p .l56)
    {j : Iid} (hj : j < s.mem.fresh) : own j ≠ t := by
  rintro rfl
  have hcached := i.cached (own j)
  rw [hl] at hcached
  rcases o.has j hj with hs | hs | ⟨hs, -⟩
  · exact absurd (hcached.symm.trans hs) (by simp)
  · exact absurd hs (by simp [hl, Loc.item])
  · exact absurd hs (by simp [hl])

/-- What a slot leads to was in the slot or in the hands of its thread. -/
theorem Owned.slot_step (o : Owned own h s) (hm : Moves t a (s.loc t) s.mem l m e) {t' : Tid}
    {j : Iid} (hs : m.slot t' = some j) : j < s.mem.fresh ∧ own j = t' := by
  rcases eq_or_ne t' t with rfl | ht'
  · rcases slot_of_moves_self hm hs with hs | ⟨hs, -⟩
    exacts [o.slot t' j hs, o.item t' j hs]
  · exact o.slot t' j (slot_of_moves hm ht' ▸ hs)

/-- What a thread has in its hands was in its hands or in its slot, or is new. -/
theorem Owned.item_step (o : Owned own h s) (i : InOrder s) (hm : Moves t a (s.loc t) s.mem l m e)
    {t' : Tid} {j : Iid} (hs : ((s.move t l m).loc t').item = some j) :
    (j < s.mem.fresh ∧ own j = t') ∨ t' = t ∧ j = s.mem.fresh ∧ j < m.fresh := by
  rcases eq_or_ne t' t with rfl | ht'
  · rw [State.move_loc_self] at hs
    rcases item_of_moves hm (i.cached t') hs with hs | hs | ⟨rfl, hf⟩
    · exact .inl (o.item t' j hs)
    · exact .inl (o.slot t' j hs)
    · exact .inr ⟨rfl, rfl, hf ▸ Nat.lt_succ_self _⟩
  · rw [State.move_loc_of_ne _ _ _ _ ht'] at hs
    exact .inl (o.item t' j hs)

/-- The owner of an item still has it, or has exited and released it. -/
theorem Owned.has_step (o : Owned own h s) (i : InOrder s) (ha : a ≠ .fail)
    (hm : Moves t a (s.loc t) s.mem l m e) {j : Iid} (hj : j < s.mem.fresh) :
    m.slot (own j) = some j ∨ ((s.move t l m).loc (own j)).item = some j ∨
      (s.move t l m).loc (own j) = .dead ∧ .released j ∈ e :: h := by
  by_cases ht' : own j = t
  · rw [ht', State.move_loc_self]
    have hi : s.mem.slot t = some j ∨ (s.loc t).item = some j := by
      rcases o.has j hj with hs | hs | ⟨hs, -⟩
      · exact .inl (ht' ▸ hs)
      · exact .inr (ht' ▸ hs)
      · exact absurd (ht' ▸ hs) (ne_dead_of_moves hm)
    rcases kept_of_moves hm ha (i.cached t) hi with hs | hs | ⟨hd, rfl⟩
    · exact .inl hs
    · exact .inr (.inl hs)
    · exact .inr (.inr ⟨hd, List.mem_cons_self⟩)
  · rw [State.move_loc_of_ne _ _ _ _ ht', slot_of_moves hm ht']
    exact (o.has j hj).imp_right (.imp_right fun hd => ⟨hd.1, List.mem_cons_of_mem _ hd.2⟩)

/-- **One step keeps the owners**; what is allocated belongs to the thread that moves. -/
theorem Owned.step (o : Owned own h s) (i : InOrder s) (ha : a ≠ .fail)
    (hm : Moves t a (s.loc t) s.mem l m e) :
    Owned (Function.update own s.mem.fresh t) (e :: h) (s.move t l m) := by
  have hself : (s.move t l m).loc t = l := State.move_loc_self ..
  have hother : ∀ t', t' ≠ t → (s.move t l m).loc t' = s.loc t' :=
    fun t' ht' => State.move_loc_of_ne _ _ _ _ ht'
  have hold : ∀ {j}, j < s.mem.fresh → Function.update own s.mem.fresh t j = own j :=
    fun hj => Function.update_of_ne (Nat.ne_of_lt hj) ..
  have kept : ∀ {t' j}, j < s.mem.fresh ∧ own j = t' →
      j < m.fresh ∧ Function.update own s.mem.fresh t j = t' := fun hj =>
    ⟨Nat.lt_of_lt_of_le hj.1 (fresh_of_moves hm), (hold hj.1).trans hj.2⟩
  refine ⟨fun j k hj hk hjk => ?_, fun t' j hs => kept (o.slot_step hm hs), fun t' j hs => ?_,
    fun j hj => ?_, fun t' h' => ?_, fun t' h' => ?_⟩
  · rcases born_of_moves hm hj with hj | ⟨rfl, p, hnew, -⟩ <;>
      rcases born_of_moves hm hk with hk | ⟨rfl, p', hnew', -⟩
    · exact o.inj j k hj hk (by rwa [hold hj, hold hk] at hjk)
    · rw [hold hj, Function.update_self] at hjk
      exact absurd hjk (o.first i hnew' hj)
    · rw [hold hk, Function.update_self] at hjk
      exact absurd hjk.symm (o.first i hnew hk)
    · rfl
  · rcases o.item_step i hm hs with hj | ⟨rfl, rfl, hj⟩
    · exact kept hj
    · exact ⟨hj, Function.update_self ..⟩
  · rcases born_of_moves hm hj with hj | ⟨rfl, p, -, hl⟩
    · rw [hold hj, State.move_mem]
      exact o.has_step i ha hm hj
    · rw [Function.update_self, hself]
      exact .inr (.inl hl)
  · rcases eq_or_ne t' t with rfl | ht'
    · exact slot_of_exits hm (hself ▸ h') (o.left t')
    · exact (slot_of_moves hm ht').trans (o.left t' (hother t' ht' ▸ h'))
  · rcases eq_or_ne t' t with rfl | ht'
    · exact slot_of_dead hm (hself ▸ h') (o.left t')
    · rw [State.move_mem, slot_of_moves hm ht']
      refine (o.buried t' (hother t' ht' ▸ h')).imp_left fun hd => ?_
      rcases deleted_of_moves hm with hsame | ⟨-, -, hd'⟩
      exacts [hsame.trans hd, hd']

end Step

/-! ## The values -/

section LastSet

variable {t : Tid} {e : Event} {h : List Event} {p : Ptr}

theorem lastSet_cons (he : ∀ p, e ≠ .set t p) : lastSet t (e :: h) = lastSet t h := by
  cases e with
  | set t' p => exact if_neg fun ht : t' = t => he p (ht ▸ rfl)
  | _ => rfl

theorem lastSet_set : lastSet t (.set t p :: h) = some p := if_pos rfl

end LastSet

/-- **What an item holds is its thread's last value.** -/
structure Valued (own : Iid → Tid) (h : List Event) (s : St) : Prop where
  stored : ∀ t i, s.mem.slot t = some i → (s.loc t).writing = none →
    lastSet t h = some (s.mem.item i).data
  writing : ∀ t i p, (s.loc t).writing = some (i, p) → (s.mem.item i).data = p
  leaving : ∀ t i, (s.loc t).exits = true → (s.loc t).item = some i →
    lastSet t h = some (s.mem.item i).data
  setter : ∀ t, lastSet t h ≠ none → ∃ i, i < s.mem.fresh ∧ own i = t
  calls : ∀ f i p, .called f i p ∈ h →
    i < s.mem.fresh ∧ .unlinked i ∈ h ∧ lastSet (own i) h = some p
  gots : ∀ h₁ h₂ t o p, h = h₂ ++ .got t o p :: h₁ → p = (lastSet t h₁).getD none

theorem start_valued (own : Iid → Tid) (item : Iid → Item) : Valued own [] (start item) := by
  constructor <;> simp [start, Mem.construct, Loc.writing, Loc.exits, lastSet]

theorem Loc.item_of_writing {l : Loc} {i : Iid} {p : Ptr} (h : l.writing = some (i, p)) :
    l.item = some i := by
  unfold Loc.writing at h
  split at h <;> cases h <;> rfl

theorem Loc.item_eq_none {l : Loc} (hc : l.calling = false) (hx : l.exits = false) :
    l.item = none := by
  cases l <;> first | rfl | (cases hc; done) | cases hx

theorem Loc.writing_eq_none {l : Loc} (hc : l.calling = false) : l.writing = none := by
  cases l <;> first | rfl | cases hc

section Step

variable {own own' : Iid → Tid} {s : St} {t : Tid} {a : Act} {l : Loc} {m : Mem} {e : Event}
  {h : List Event}

/-- Another thread's item is not written. -/
theorem Owned.data_other (o : Owned own h s) (hm : Moves t a (s.loc t) s.mem l m e) {i : Iid}
    (hi : own i ≠ t) : (m.item i).data = (s.mem.item i).data :=
  (data_of_moves hm i).resolve_right fun hw => hi (o.item t i hw.1).2

/-- …nor one that its thread is not writing. -/
theorem data_of_not_writing {l₀ : Loc} {m₀ : Mem} (hm : Moves t a l₀ m₀ l m e) {i : Iid}
    (hl : l.writing = none) : (m.item i).data = (m₀.item i).data :=
  (data_of_moves hm i).resolve_right fun hw => by
    obtain ⟨p, hp, -⟩ := hw.2
    exact absurd (hl.symm.trans hp) (by simp)

/-- Only its own sets change a thread's last value. -/
theorem lastSet_other {l₀ : Loc} {m₀ : Mem} (hm : Moves t a l₀ m₀ l m e) {t' : Tid} (ht : t' ≠ t) :
    lastSet t' (e :: h) = lastSet t' h :=
  lastSet_cons fun p he => ht (by subst he; exact (set_of_moves hm).1)

theorem Valued.stored_step (v : Valued own h s) (o : Owned own h s) (ha : a ≠ .fail)
    (hm : Moves t a (s.loc t) s.mem l m e) (t' : Tid) (i : Iid) (hs : m.slot t' = some i)
    (hw : ((s.move t l m).loc t').writing = none) :
    lastSet t' (e :: h) = some (m.item i).data := by
  rcases eq_or_ne t' t with rfl | ht'
  · rw [State.move_loc_self] at hw
    rw [data_of_not_writing hm hw]
    by_cases he : ∃ p, e = .set t' p
    · obtain ⟨p, rfl⟩ := he
      obtain ⟨-, j, hj, -⟩ := set_of_moves hm
      rcases written_of_moves hm ha hj with hw' | ⟨-, hslot⟩
      · exact absurd (hw.symm.trans hw') (by simp)
      · obtain rfl := Option.some.inj (hs.symm.trans hslot)
        rw [lastSet_set, v.writing t' i p hj]
    · have he := not_exists.mp he
      rw [lastSet_cons he]
      refine v.stored t' i ?_ ?_
      · exact (slot_of_moves_self hm hs).resolve_right fun h => he _ h.2.choose_spec
      · rcases hw₀ : (s.loc t').writing with _ | ⟨j, p⟩
        · rfl
        · rcases written_of_moves hm ha hw₀ with hw' | ⟨he', -⟩
          · exact absurd (hw.symm.trans hw') (by simp)
          · exact absurd he' (he p)
  · rw [State.move_loc_of_ne _ _ _ _ ht'] at hw
    have hs₀ : s.mem.slot t' = some i := slot_of_moves hm ht' ▸ hs
    rw [lastSet_other hm ht', o.data_other hm ((o.slot t' i hs₀).2 ▸ ht')]
    exact v.stored t' i hs₀ hw

theorem Valued.writing_step (v : Valued own h s) (o : Owned own h s)
    (hm : Moves t a (s.loc t) s.mem l m e) (t' : Tid) (i : Iid) (p : Ptr)
    (hw : ((s.move t l m).loc t').writing = some (i, p)) : (m.item i).data = p := by
  rcases eq_or_ne t' t with rfl | ht'
  · rw [State.move_loc_self] at hw
    rcases writing_of_moves hm hw with hp | hw₀
    · exact hp
    · rcases data_of_moves hm i with hd | ⟨-, p', hp', hd⟩
      · exact hd.trans (v.writing t' i p hw₀)
      · obtain ⟨-, rfl⟩ := Prod.mk.injEq .. ▸ Option.some.inj (hw.symm.trans hp')
        exact hd
  · rw [State.move_loc_of_ne _ _ _ _ ht'] at hw
    rw [o.data_other hm ((o.item t' i (Loc.item_of_writing hw)).2 ▸ ht')]
    exact v.writing t' i p hw

theorem Valued.leaving_step (v : Valued own h s) (o : Owned own h s)
    (hm : Moves t a (s.loc t) s.mem l m e) (t' : Tid) (i : Iid)
    (hx : ((s.move t l m).loc t').exits = true) (hi : ((s.move t l m).loc t').item = some i) :
    lastSet t' (e :: h) = some (m.item i).data := by
  rcases eq_or_ne t' t with rfl | ht'
  · rw [State.move_loc_self] at hx hi
    obtain ⟨he, hw, hfrom⟩ := leaving_of_moves hm hx hi
    rw [lastSet_cons he, data_of_not_writing hm hw]
    rcases hfrom with ⟨hx₀, hi₀⟩ | ⟨hs₀, hw₀⟩
    · exact v.leaving t' i hx₀ hi₀
    · exact v.stored t' i hs₀ hw₀
  · rw [State.move_loc_of_ne _ _ _ _ ht'] at hx hi
    rw [lastSet_other hm ht', o.data_other hm ((o.item t' i hi).2 ▸ ht')]
    exact v.leaving t' i hx hi

theorem Valued.setter_step (v : Valued own h s) (o : Owned own h s)
    (hm : Moves t a (s.loc t) s.mem l m e) (t' : Tid) (hs : lastSet t' (e :: h) ≠ none) :
    ∃ i, i < s.mem.fresh ∧ own i = t' := by
  by_cases he : ∃ p, e = .set t' p
  · obtain ⟨p, rfl⟩ := he
    obtain ⟨rfl, i, hi, -⟩ := set_of_moves hm
    exact ⟨i, o.item t' i (Loc.item_of_writing hi)⟩
  · exact v.setter t' (lastSet_cons (not_exists.mp he) ▸ hs)

/-- What has been handed on stays its thread's last value: a set has a grip on what it writes. -/
theorem Valued.calls_kept (v : Valued own h s) (o : Owned own h s) (led : Accounted h s)
    (hm : Moves t a (s.loc t) s.mem l m e) {f : Fid} {i : Iid} {p : Ptr}
    (hc : .called f i p ∈ h) : lastSet (own i) (e :: h) = some p := by
  obtain ⟨hi, hu, hl⟩ := v.calls f i p hc
  by_cases he : ∃ p', e = .set (own i) p'
  · obtain ⟨p', rfl⟩ := he
    obtain ⟨ht, j, hj, hg⟩ := set_of_moves hm
    obtain ⟨hjf, hown⟩ := o.item t j (Loc.item_of_writing hj)
    obtain rfl := o.inj i j hi hjf (ht.trans hown.symm)
    -- the item is listed, and yet has been unlinked
    have hwhole := (led.listed i (led.gripped t i hg)).2
    exact absurd hu (List.count_eq_zero.mp (Prod.mk.injEq .. ▸ hwhole).1)
  · rw [lastSet_cons (not_exists.mp he), hl]

/-- What is handed on is its thread's last value. -/
theorem Valued.calls_new (v : Valued own h s) (o : Owned own h s) (i : InOrder s)
    (hcalm : ∀ t, (s.loc t).destroys = true → ∀ t', (s.loc t').exits = false)
    (led : Accounted h s) {f : Fid} {j : Iid} {p : Ptr}
    (hm : Moves t a (s.loc t) s.mem l m (.called f j p)) :
    j < s.mem.fresh ∧ .unlinked j ∈ h ∧ lastSet (own j) (.called f j p :: h) = some p := by
  obtain ⟨rfl, hhand, hside⟩ := called_of_moves hm
  obtain ⟨hj, -, hstage⟩ := led.held t j (1, 0) hhand
  obtain ⟨hu, hr⟩ := Prod.mk.injEq .. ▸ hstage
  refine ⟨hj, List.count_pos_iff.mp (by omega), ?_⟩
  rw [lastSet_cons (by simp)]
  rcases hside with ⟨hx, hitem⟩ | hdes
  · rw [(o.item t j hitem).2]
    exact v.leaving t j hx hitem
  · -- nobody calls and nobody exits: the item is in its thread's slot
    have hcalls := (i.alone t hdes (own j)).1
    rcases o.has j hj with hs | hs | ⟨-, hs⟩
    · exact v.stored _ j hs (Loc.writing_eq_none hcalls)
    · rw [Loc.item_eq_none hcalls (hcalm t hdes _)] at hs
      cases hs
    · exact absurd hs (List.count_eq_zero.mp hr)

theorem Valued.gots_step (v : Valued own h s) (o : Owned own h s) (i : InOrder s)
    (hm : Moves t a (s.loc t) s.mem l m e) (h₁ h₂ : List Event) (t' : Tid) (r : Option Iid)
    (p : Ptr) (hh : e :: h = h₂ ++ .got t' r p :: h₁) : p = (lastSet t' h₁).getD none := by
  cases h₂ with
  | cons _ h₂ => exact v.gots h₁ h₂ t' r p (List.cons.inj hh).2
  | nil =>
    obtain ⟨rfl, rfl⟩ := List.cons.inj hh
    obtain ⟨rfl, hitem, hw, rfl⟩ := got_of_moves hm (i.cached t)
    cases hs : s.mem.slot t' with
    | some j => simp [v.stored t' j hs hw]
    | none =>
      have hnone : lastSet t' h = none := by
        by_contra hne
        obtain ⟨j, hj, rfl⟩ := v.setter t' hne
        rcases o.has j hj with hs' | hi' | ⟨hd, -⟩
        · exact absurd (hs.symm.trans hs') (by simp)
        · exact absurd (hitem.symm.trans hi') (by simp)
        · exact ne_dead_of_moves hm hd
      simp [hnone]

/-- **One step keeps the values.** -/
theorem Valued.step (v : Valued own h s) (o : Owned own h s) (i : InOrder s) (ha : a ≠ .fail)
    (hcalm : ∀ t, (s.loc t).destroys = true → ∀ t', (s.loc t').exits = false)
    (led : Accounted h s) (hm : Moves t a (s.loc t) s.mem l m e) :
    Valued (Function.update own s.mem.fresh t) (e :: h) (s.move t l m) := by
  have hold : ∀ {j}, j < s.mem.fresh → Function.update own s.mem.fresh t j = own j :=
    fun hj => Function.update_of_ne (Nat.ne_of_lt hj) ..
  have hmono : s.mem.fresh ≤ m.fresh := fresh_of_moves hm
  refine ⟨v.stored_step o ha hm, v.writing_step o hm, v.leaving_step o hm, fun t' hs => ?_,
    fun f j p hc => ?_, v.gots_step o i hm⟩
  · obtain ⟨j, hj, hown⟩ := v.setter_step o hm t' hs
    exact ⟨j, Nat.lt_of_lt_of_le hj hmono, (hold hj).trans hown⟩
  · have hall : j < s.mem.fresh ∧ .unlinked j ∈ e :: h ∧ lastSet (own j) (e :: h) = some p := by
      rcases List.mem_cons.mp hc with rfl | hc
      · obtain ⟨hj, hu, hl⟩ := v.calls_new o i hcalm led hm
        exact ⟨hj, List.mem_cons_of_mem _ hu, hl⟩
      · obtain ⟨hj, hu, -⟩ := v.calls f j p hc
        exact ⟨hj, List.mem_cons_of_mem _ hu, v.calls_kept o led hm hc⟩
    rw [hold hall.1]
    exact ⟨Nat.lt_of_lt_of_le hall.1 hmono, hall.2⟩

end Step

end Libult.Tsd
