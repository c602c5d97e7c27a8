import Libult.Tsd.Key
import Libult.Links.Ledger

/-!
# Tsd/Accounts — what becomes of an item

Tearing an item down takes three strokes, on either side: unlink, hand the data to
`user_destructor`, release; the history counts them.  A thread has an item in its hand between
linking or unlinking it and being done with it, and a grip on an item of the list that it is going
to use; the hands, the grips and the list are a ledger.
-/

namespace Libult.Tsd

open Interleaving Program Links

/-! ## The three strokes -/

/-- The item whose data an event hands to `user_destructor`. -/
def Event.calls : Event → Option Iid
  | .called _ i _ => some i
  | _ => none

/-- How often an item has been unlinked and how often released. -/
def torn (h : List Event) (i : Iid) : ℕ × ℕ := (h.count (.unlinked i), h.count (.released i))

/-- How often its data have been handed to `user_destructor`. -/
def called (h : List Event) (i : Iid) : ℕ := h.countP fun e => e.calls = some i

/-- The item an event uses. -/
def Event.uses : Event → Option Iid
  | .unlinked i | .called _ i _ | .read i | .written i => some i
  | .got _ tsd _ => tsd
  | _ => none

/-- **No use after release**: in a history, latest first, no use of an item follows its release. -/
def NoUseAfterRelease (h : List Event) : Prop :=
  h.Pairwise fun e e' => ∀ i ∈ e.uses, e' ≠ .released i

instance (h : List Event) : Decidable (NoUseAfterRelease h) := by
  unfold NoUseAfterRelease
  infer_instance

section Strokes

variable {h : List Event} {e : Event} {i : Iid}

/-- Other events tear nothing down. -/
theorem torn_cons (hu : ∀ i, e ≠ .unlinked i) (hr : ∀ i, e ≠ .released i) :
    torn (e :: h) = torn h := by
  funext i
  rw [torn, List.count_cons_of_ne (hu i), List.count_cons_of_ne (hr i), torn]

theorem torn_unlinked (hi : torn h i = (0, 0)) :
    torn (.unlinked i :: h) = Function.update (torn h) i (1, 0) := by
  obtain ⟨hu, hr⟩ := Prod.mk.injEq .. ▸ hi
  funext j
  by_cases hj : j = i
  · subst hj
    simp [torn, hu, hr]
  · simp [torn, hj, Ne.symm hj]

theorem torn_released (hi : torn h i = (1, 0)) :
    torn (.released i :: h) = Function.update (torn h) i (1, 1) := by
  obtain ⟨hu, hr⟩ := Prod.mk.injEq .. ▸ hi
  funext j
  by_cases hj : j = i
  · subst hj
    simp [torn, hu, hr]
  · simp [torn, hj, Ne.symm hj]

theorem called_cons (he : e.calls ≠ some i) : called (e :: h) i = called h i :=
  List.countP_cons_of_neg (by simpa using he)

theorem called_called {f : Fid} {p : Ptr} : called (.called f i p :: h) i = called h i + 1 :=
  List.countP_cons_of_pos (by simp [Event.calls])

/-- An item whose releases count zero has not been released. -/
theorem notMem_of_torn {n : ℕ} (hi : torn h i = (n, 0)) : .released i ∉ h :=
  List.count_eq_zero.mp (Prod.mk.injEq .. ▸ hi).2

end Strokes

/-! ## Hands and grips -/

/-- The item a thread has in its hand, and how far it has been torn down there. -/
def Loc.hand : Loc → Option (Iid × (ℕ × ℕ))
  | .set _ (.l61 i) | .set _ (.l62 i) => some (i, (0, 0))
  | .exiting (.l16 i) | .exiting (.l18 i) | .exiting (.l19 i) | .exiting (.l21 i) =>
      some (i, (1, 0))
  | .destroying (.l39 i _) | .destroying (.l40 i _) | .destroying (.l42 i _) => some (i, (1, 0))
  | _ => none

/-- The item in its hand that it has yet to hand on to `user_destructor`. -/
def Loc.uncalled : Loc → Option Iid
  | .exiting (.l16 i) | .exiting (.l18 i) | .exiting (.l19 i) => some i
  | .destroying (.l39 i _) | .destroying (.l40 i _) => some i
  | _ => none

/-- The item of a thread that has entered `_tracked_destructor` and has yet to unlink it. -/
def Loc.entered : Loc → Option Iid
  | .exiting (.l7 arg) => arg
  | .exiting (.l12 i) | .exiting (.l14 i) | .exiting (.l15 i) => some i
  | _ => none

/-- The item of the list that a thread is going to use; its slot no longer counts once the key has
been deleted. -/
def Loc.grip (slot : Option Iid) (deleted : Bool) : Loc → Option Iid
  | .idle | .get .l114 | .destroying _ => if deleted then none else slot
  | .get (.l115 tsd) => tsd
  | .set _ .l53 => slot
  | .set _ (.l55 tsd) => tsd
  | .set _ (.l63 i) | .set _ (.l66 i) | .set _ (.l67 i) | .set _ (.l69 i) => some i
  | .set _ _ => none
  | .exiting pc => (Loc.exiting pc).entered
  | .dead => none

/-- A set or a get is in progress. -/
def Loc.calling : Loc → Bool
  | .set _ _ | .get _ => true
  | _ => false

def Loc.destroys : Loc → Bool
  | .destroying _ => true
  | _ => false

def Loc.exits : Loc → Bool
  | .exiting _ => true
  | _ => false

def hands (s : St) (t : Tid) : Option (Iid × (ℕ × ℕ)) := (s.loc t).hand

def grips (s : St) (t : Tid) : Option Iid := (s.loc t).grip (s.mem.slot t) s.mem.deleted

section Move

variable {s : St} {t : Tid} {l : Loc} {m : Mem}

theorem hands_move : hands (s.move t l m) = Function.update (hands s) t l.hand := by
  funext t'
  by_cases ht : t' = t
  · subst ht
    simp [hands]
  · simp [hands, State.move_loc_of_ne _ _ _ _ ht, ht]

/-- A hand that keeps what it holds. -/
theorem hands_move_eq (hh : l.hand = (s.loc t).hand) : hands (s.move t l m) = hands s := by
  rw [hands_move, hh]
  exact Function.update_eq_self t (hands s)

theorem grips_move (hd : m.deleted = s.mem.deleted)
    (hs : ∀ t', t' ≠ t → m.slot t' = s.mem.slot t') :
    grips (s.move t l m) = Function.update (grips s) t (l.grip (m.slot t) m.deleted) := by
  funext t'
  by_cases ht : t' = t
  · subst ht
    simp [grips]
  · simp [grips, State.move_loc_of_ne _ _ _ _ ht, ht, hd, hs t' ht]

end Move

end Libult.Tsd
