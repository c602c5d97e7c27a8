import Libult.Tsd.Sequence

/-!
# Tsd/Plain — a tracked key and a plain one

A plain key, made with `tsd_key_create(key, d)`, has the value itself in the slot, so a thread that
exits with NULL there passes `d` over; in a tracked key the slot has an item, never NULL, and `d` is
called with its data whatever they are.  The two call `d` alike exactly if no thread dies with NULL
for its last value.
-/

namespace Libult.Tsd

open Interleaving Program Links

/-! ## The plain key -/

/-- A plain key and the calls of its destructor, latest first. -/
structure Plain where
  slot : Tid → Ptr
  calls : List (Fid × Ptr)

/-- `tsd_set(key, p)`. -/
def Plain.set (k : Plain) (t : Tid) (p : Ptr) : Plain :=
  { k with slot := Function.update k.slot t p }

/-- POSIX: at thread exit a value that is not NULL is cleared and `d` called with it. -/
def Plain.exit (d : Fid) (k : Plain) (t : Tid) : Plain :=
  match k.slot t with
  | none => k
  | some v => ⟨Function.update k.slot t none, (d, some v) :: k.calls⟩

/-- **The plain key under the run of a tracked one**: its sets and its exits. -/
def plain (d : Fid) : List Event → Plain
  | [] => ⟨fun _ => none, []⟩
  | .set t p :: h => (plain d h).set t p
  | .exited t :: h => (plain d h).exit d t
  | _ :: h => plain d h

/-- The thread has exited, its callback perhaps still in progress. -/
def Loc.gone (l : Loc) : Prop := l.exits = true ∨ l = .dead

/-- **The two keys run alike**: the plain slot has the last value until its thread exits, and `d`
has been called for those that exited with one. -/
structure Alike (d : Fid) (h : List Event) (s : St) : Prop where
  slot : ∀ t, ¬ (s.loc t).gone → (plain d h).slot t = (lastSet t h).getD none
  log : ∃ us : List Tid, us.Nodup ∧
    (∀ t, t ∈ us ↔ (s.loc t).gone ∧ ∃ v, lastSet t h = some (some v)) ∧
    (plain d h).calls = us.map fun t => (d, (lastSet t h).getD none)

theorem start_alike (d : Fid) (item : Iid → Item) : Alike d [] (start item) :=
  ⟨fun _ _ => rfl, [], by simp, by simp [start, Loc.gone, Loc.exits], rfl⟩

section Step

variable {d : Fid} {s : St} {t : Tid} {a : Act} {l₀ l : Loc} {m₀ m : Mem} {e : Event}
  {h : List Event}

/-- Threads are gone by their exit, which they take when no call is in progress. -/
theorem gone_of_moves (hm : Moves t a l₀ m₀ l m e) :
    e = .exited t ∧ ¬ l₀.gone ∧ l.gone ∨ (∀ t', e ≠ .exited t') ∧ (l.gone ↔ l₀.gone) := by
  cases hm
  case callback => exact .inl ⟨rfl, by simp [Loc.gone, Loc.exits], .inl rfl⟩
  case die => exact .inl ⟨rfl, by simp [Loc.gone, Loc.exits], .inr rfl⟩
  all_goals exact .inr ⟨by simp, by simp [Loc.gone, Loc.exits]⟩

theorem not_gone_of_set {p : Ptr} (hm : Moves t a l₀ m₀ l m (.set t p)) : ¬ l₀.gone := by
  cases hm
  simp [Loc.gone, Loc.exits]

/-- Events other than sets and exits concern neither key. -/
theorem plain_cons (hs : ∀ t p, e ≠ .set t p) (hx : ∀ t, e ≠ .exited t) :
    plain d (e :: h) = plain d h := by
  cases e with
  | set t p => exact absurd rfl (hs t p)
  | exited t => exact absurd rfl (hx t)
  | _ => rfl

/-- **A thread exits**: `d` is called for it if its last value is not NULL. -/
theorem Alike.exited (k : Alike d h s) (hl₀ : ¬ (s.loc t).gone) (hl : l.gone) :
    Alike d (.exited t :: h) (s.move t l m) := by
  have hself : ((s.move t l m).loc t).gone := (State.move_loc_self s t l m).symm ▸ hl
  have hother : ∀ t', t' ≠ t → (s.move t l m).loc t' = s.loc t' :=
    fun t' ht' => State.move_loc_of_ne _ _ _ _ ht'
  have hslot := k.slot t hl₀
  obtain ⟨us, hnodup, hmem, hlog⟩ := k.log
  have hnot : t ∉ us := fun ht => hl₀ ((hmem t).mp ht).1
  cases hlast : (lastSet t h).getD none with
  | none =>
    have hp : plain d (.exited t :: h) = plain d h := by simp [plain, Plain.exit, hslot, hlast]
    refine ⟨fun t' h' => ?_, us, hnodup, fun t' => ?_, hp ▸ hlog⟩
    · have ht' : t' ≠ t := fun ht => h' (ht ▸ hself)
      rw [hp]
      exact k.slot t' (hother t' ht' ▸ h')
    · rcases eq_or_ne t' t with rfl | ht'
      · refine iff_of_false hnot fun ⟨_, v, hv⟩ => ?_
        rw [show lastSet t' h = some (some v) from hv] at hlast
        cases hlast
      · rw [hother t' ht']
        exact hmem t'
  | some v =>
    have hp : plain d (.exited t :: h) =
        ⟨Function.update (plain d h).slot t none, (d, some v) :: (plain d h).calls⟩ := by
      simp [plain, Plain.exit, hslot, hlast]
    have hv : lastSet t h = some (some v) := by
      cases hs : lastSet t h with
      | none => simp [hs] at hlast
      | some p => simpa [hs] using hlast
    refine ⟨fun t' h' => ?_, t :: us, List.nodup_cons.mpr ⟨hnot, hnodup⟩, fun t' => ?_, ?_⟩
    · have ht' : t' ≠ t := fun ht => h' (ht ▸ hself)
      rw [hp]
      exact (Function.update_of_ne ht' ..).trans (k.slot t' (hother t' ht' ▸ h'))
    · rcases eq_or_ne t' t with rfl | ht'
      · exact iff_of_true List.mem_cons_self ⟨hself, v, hv⟩
      · rw [List.mem_cons, hother t' ht', or_iff_right ht']
        exact hmem t'
    · rw [hp, hlog, List.map_cons]
      exact congrArg (· :: _) (by simp [lastSet, hv])

/-- **A set returns**: the plain key has the value in its slot. -/
theorem Alike.set {p : Ptr} (k : Alike d h s) (hl₀ : ¬ (s.loc t).gone) (hl : ¬ l.gone) :
    Alike d (.set t p :: h) (s.move t l m) := by
  have hother : ∀ t', t' ≠ t → (s.move t l m).loc t' = s.loc t' :=
    fun t' ht' => State.move_loc_of_ne _ _ _ _ ht'
  have hlast : ∀ t', t' ≠ t → lastSet t' (.set t p :: h) = lastSet t' h :=
    fun t' ht' => if_neg ht'.symm
  obtain ⟨us, hnodup, hmem, hlog⟩ := k.log
  have hne : ∀ t' ∈ us, t' ≠ t := fun t' ht' ht => hl₀ (ht ▸ ((hmem t').mp ht').1)
  refine ⟨fun t' h' => ?_, us, hnodup, fun t' => ?_, ?_⟩
  · rcases eq_or_ne t' t with rfl | ht'
    · simp [plain, Plain.set, lastSet_set]
    · rw [hlast t' ht']
      exact (Function.update_of_ne ht' ..).trans (k.slot t' (hother t' ht' ▸ h'))
  · rcases eq_or_ne t' t with rfl | ht'
    · refine iff_of_false (fun ht => hne t' ht rfl) fun ⟨hg, _⟩ => hl ?_
      rwa [State.move_loc_self] at hg
    · rw [hother t' ht', hlast t' ht']
      exact hmem t'
  · exact hlog.trans (List.map_congr_left fun t' ht' => by rw [hlast t' (hne t' ht')])

/-- **One step keeps the two keys alike.** -/
theorem Alike.step (k : Alike d h s) (hm : Moves t a (s.loc t) s.mem l m e) :
    Alike d (e :: h) (s.move t l m) := by
  rcases gone_of_moves hm with ⟨rfl, hl₀, hl⟩ | ⟨hx, hgone⟩
  · exact k.exited hl₀ hl
  · by_cases hs : ∃ t' p, e = .set t' p
    · obtain ⟨t', p, rfl⟩ := hs
      obtain ⟨rfl, -⟩ := set_of_moves hm
      have hl₀ := not_gone_of_set hm
      exact k.set hl₀ (mt hgone.mp hl₀)
    · have hs : ∀ t p, e ≠ .set t p := fun t p he => hs ⟨t, p, he⟩
      have hg : ∀ t', ((s.move t l m).loc t').gone ↔ (s.loc t').gone := fun t' => by
        rcases eq_or_ne t' t with rfl | ht'
        · rwa [State.move_loc_self]
        · rw [State.move_loc_of_ne _ _ _ _ ht']
      obtain ⟨us, hnodup, hmem, hlog⟩ := k.log
      refine ⟨fun t' h' => ?_, us, hnodup, fun t' => ?_, ?_⟩
      · rw [plain_cons hs hx, lastSet_cons (hs t')]
        exact k.slot t' (mt (hg t').mpr h')
      · rw [hg t', lastSet_cons (hs t')]
        exact hmem t'
      · rw [plain_cons hs hx, hlog]
        exact List.map_congr_left fun t' _ => by rw [lastSet_cons (hs t')]

end Step

/-! ## Runs without destruction -/

/-- Sets that succeed and exits, with `d` installed before any and never changed. -/
def Undestroyed (d : Fid) (s : St) (t : Tid) (a : Act) : Prop :=
  a ≠ .fail ∧ a ≠ .destroy ∧ Fixed d s t a

instance (d : Fid) (s : St) (t : Tid) (a : Act) : Decidable (Undestroyed d s t a) := by
  unfold Undestroyed
  infer_instance

/-- The key has not been destroyed. -/
def Stands (s : St) : Prop := s.mem.deleted = false ∧ ∀ t, (s.loc t).destroys = false

section Step

variable {d : Fid} {s : St} {t : Tid} {a : Act} {l : Loc} {m : Mem} {e : Event} {h : List Event}

theorem Stands.step (k : Stands s) (ha : a ≠ .destroy) (hm : Moves t a (s.loc t) s.mem l m e) :
    Stands (s.move t l m) := by
  constructor
  · rcases deleted_of_moves hm with hsame | ⟨hl₀, -, -⟩
    · exact hsame.trans k.1
    · exact absurd (k.2 t) (by simp [hl₀, Loc.destroys])
  · refine (State.forall_move (A := fun _ l => l.destroys = false) s t l m).mpr
      ⟨Bool.not_eq_true _ ▸ fun hl => ?_, fun t' _ => k.2 t'⟩
    rcases destroys_of_moves hm hl with hl₀ | rfl
    · simp [k.2 t] at hl₀
    · exact ha rfl

theorem Stands.inSequence (k : Stands s) (hE : Undestroyed d s t a) : InSequence s t a := by
  cases a with
  | set p | get => exact k
  | exit => exact fun _ => k.2
  | fail => exact hE.1 rfl
  | destroy => exact absurd rfl hE.2.1
  | _ => trivial

end Step

/-- **A tracked key calls `d` as a plain key does** if and only if no thread died with NULL for its
last value. -/
theorem calls_perm_plain_iff {d : Fid} {item : Iid → Item} {s : St}
    {π : List (Transition Tid Loc Mem Act Event)} (hp : trackedKey.Path (start item) π s)
    (hE : Allowed (Undestroyed d) π) (hrest : ∀ t, s.loc t = .idle ∨ s.loc t = .dead) :
    (calls (events π)).Perm (plain d (events π)).calls ↔
      ∀ t, s.loc t = .dead → lastSet t (events π) ≠ some none := by
  obtain ⟨hstands, ⟨own, k⟩, w, o, hlike⟩ := hp.invariant
    (fun h s => Stands s ∧ (∃ own, Kept own h s) ∧ Teardown h s ∧ OneDestructor d h s ∧ Alike d h s)
    (Undestroyed d)
    (fun h s t a l m e ⟨hstands, ⟨own, k⟩, w, o, hlike⟩ hE hexec => by
      have hm := moves_of_exec hexec
      have hseq := hstands.inSequence hE
      exact ⟨hstands.step hE.2.1 hm, ⟨_, k.step hseq hm⟩,
        w.step hseq.inTurn hE.2.2.installed (k.calm.apart t a) (k.calm.last t a) hm,
        o.step hE.2.2 hm, hlike.step hm⟩) hE
    ⟨⟨rfl, fun _ => rfl⟩, ⟨fun _ => 0, start_kept _ item⟩, start_teardown item,
      ⟨.inl rfl, by simp⟩, start_alike d item⟩
  obtain ⟨ts, hts, hmem, hcalls⟩ := k.calls w o hrest
  obtain ⟨us, hus, hmem', hlog⟩ := hlike.log
  have hgone : ∀ t, (s.loc t).gone ↔ s.loc t = .dead := fun t => by
    rcases hrest t with ht | ht <;> simp [ht, Loc.gone, Loc.exits]
  rw [hcalls, hlog]
  constructor
  · intro hperm t hdead hnull
    have ht : t ∈ ts := (hmem t).mpr ⟨by simp [hnull], .inr hdead⟩
    obtain ⟨u, hu, heq⟩ := List.mem_map.mp (hperm.subset (List.mem_map_of_mem ht))
    obtain ⟨-, v, hv⟩ := (hmem' u).mp hu
    simp [hnull, hv] at heq
  · intro hnull
    refine List.Perm.map _ ((List.perm_ext_iff_of_nodup hts hus).mpr fun t => ?_)
    rw [hmem, hmem', hgone, hstands.1]
    constructor
    · rintro ⟨hset, hdead⟩
      have hdead := hdead.resolve_left (by simp)
      obtain ⟨p, hlast⟩ := Option.ne_none_iff_exists'.mp hset
      cases p with
      | none => exact absurd hlast (hnull t hdead)
      | some v => exact ⟨hdead, v, hlast⟩
    · rintro ⟨hdead, v, hv⟩
      exact ⟨by simp [hv], .inr hdead⟩

/-- **Two threads that die**, the one with its second value. -/
theorem calls_perm_plain_overwrite : ∃ s π, trackedKey.Path (start fun _ => ⟨false, none⟩) π s ∧
    (calls (events π)).Perm (plain 7 (events π)).calls ∧
    calls (events π) = [(7, some 11), (7, some 20)] := by
  obtain ⟨s, π, hp, hA, hE, hrest, hnull, hcalls⟩ := exists_path_of_run (p := trackedKey)
    (s := start fun _ => ⟨false, none⟩)
    ((0, .setDestructor 7) :: firstSet 0 (some 10) ++ firstSet 1 (some 11) ++
      (0, .set (some 20)) :: lines 5 0 ++ (0, .exit) :: lines 8 0 ++ (1, .exit) :: lines 8 1)
    (P := fun s π => (∀ x ∈ π, x.tid < 2) ∧ Allowed (Undestroyed 7) π ∧
      (∀ t ∈ List.range 2, s.loc t = .idle ∨ s.loc t = .dead) ∧
      (∀ t ∈ List.range 2, lastSet t (events π) ≠ some none) ∧
      calls (events π) = [(7, some 11), (7, some 20)]) (by decide)
  have hidle := (hp.untouched (A := (· < 2)) hA).1
  refine ⟨s, π, hp, (calls_perm_plain_iff hp hE ?_).mpr fun t hdead => ?_, hcalls⟩
  · exact forall_of_below (A := fun l => l = .idle ∨ l = .dead) hidle (.inl rfl)
      fun t ht => hrest t (List.mem_range.mpr ht)
  · by_cases ht : t < 2
    · exact hnull t (List.mem_range.mpr ht)
    · exact absurd ((hidle t ht).symm.trans hdead) (by simp [start])

/-- **A thread that has overwritten its value with NULL**: its exit calls `d` with NULL, and a plain
key does not call it. -/
theorem not_calls_perm_plain : ¬ ∀ (d : Fid) (item : Iid → Item) (s : St)
    (π : List (Transition Tid Loc Mem Act Event)), trackedKey.Path (start item) π s →
      Allowed (Undestroyed d) π → (∀ t, s.loc t = .idle ∨ s.loc t = .dead) →
      (calls (events π)).Perm (plain d (events π)).calls := by
  intro h
  obtain ⟨s, π, hp, hA, hE, hrest, hbad⟩ := exists_path_of_run (p := trackedKey)
    (s := start fun _ => ⟨false, none⟩)
    ((0, .setDestructor 7) :: firstSet 0 (some 10) ++ (0, .set none) :: lines 5 0 ++
      (0, .exit) :: lines 8 0)
    (P := fun s π => (∀ x ∈ π, x.tid < 1) ∧ Allowed (Undestroyed 7) π ∧
      (∀ t ∈ List.range 1, s.loc t = .idle ∨ s.loc t = .dead) ∧
      (calls (events π)).length ≠ (plain 7 (events π)).calls.length) (by decide)
  refine hbad (h 7 _ s π hp hE ?_).length_eq
  exact forall_of_below (A := fun l => l = .idle ∨ l = .dead)
    (hp.untouched (A := (· < 1)) hA).1 (.inl rfl) fun t ht => hrest t (List.mem_range.mpr ht)

end Libult.Tsd
