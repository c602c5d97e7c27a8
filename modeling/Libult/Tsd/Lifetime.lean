import Libult.Tsd.Teardown

/-!
# Tsd/Lifetime — the key outlives those who use it

The key's destructor waits for nobody.  An exiting thread that has unlinked its item still unlocks
`key->mutex` and reads `key->user_destructor`; the one has to be over before the mutex is
destructed, the other before the key is (`Last`).

    exit      14 lock ─▸ 15 unlink ─▸ 16 unlock ─▸ 18, 19 user_destructor ─▸ 21
    destroy                    … 37 ─▸ 44 mutex ─────────────▸ 45 list, key
-/

namespace Libult.Tsd

open Interleaving Program

/-! ## What a line uses of the key -/

/-- The line locks, unlocks or destructs the mutex. -/
def Loc.usesMutex : Loc → Bool
  | .set _ (.l61 _) | .set _ (.l63 _) => true
  | .exiting (.l14 _) | .exiting (.l16 _) => true
  | .destroying .l44 => true
  | _ => false

/-- The line uses the list or a field of the key. -/
def Loc.usesKey : Loc → Bool
  | .set _ .l53 | .set _ (.l62 _) | .set _ (.l69 _) | .get .l114 => true
  | .exiting (.l15 _) | .exiting (.l18 _) | .exiting (.l19 _) => true
  | .destroying (.l42 _ _) | .destroying .l44 => false
  | .destroying _ => true
  | _ => false

/-- **A line uses what is no more**: the mutex is destructed while it is held, or used after that,
or the list or a field of the key is used after the key's destructor. -/
def Misuses (s : St) (t : Tid) : Prop :=
  s.loc t = .destroying .l44 ∧ s.mem.mutex ≠ none ∨
    (s.loc t).usesMutex = true ∧ s.mem.mutexEnded = true ∨
    (s.loc t).usesKey = true ∧ s.mem.ended = true

instance (s : St) (t : Tid) : Decidable (Misuses s t) := by
  unfold Misuses
  infer_instance

/-- The thread is in `_tracked_destructor`, and has yet to unlock the mutex. -/
def Loc.needsMutex : Loc → Bool
  | .exiting (.l7 arg) => arg.isSome
  | .exiting (.l12 _) | .exiting (.l14 _) | .exiting (.l15 _) | .exiting (.l16 _) => true
  | _ => false

/-- …and has yet to be done with the key. -/
def Loc.needsKey : Loc → Bool
  | .exiting (.l18 _) | .exiting (.l19 _) => true
  | l => l.needsMutex

/-- **What ends, ends last**: the mutex when no exiting thread has yet to unlock it, the key when
none has yet to read its `user_destructor`. -/
def Last (s : St) (t : Tid) (_ : Act) : Prop :=
  (s.loc t = .destroying .l44 → ∀ t', (s.loc t').needsMutex = false) ∧
    (s.loc t = .destroying .l45 → ∀ t', (s.loc t').needsKey = false)

/-- The thread holds the mutex. -/
def Loc.holdsMutex : Loc → Bool
  | .set _ (.l62 _) | .set _ (.l63 _) => true
  | .exiting (.l15 _) | .exiting (.l16 _) => true
  | _ => false

/-- Whoever holds the mutex has called a set, or exits and has yet to unlock it. -/
theorem Loc.calling_of_holdsMutex {l : Loc} (h : l.holdsMutex = true) :
    l.calling = true ∨ l.needsMutex = true := by
  cases l with
  | set => exact .inl rfl
  | exiting pc => cases pc <;> first | exact .inr rfl | exact absurd h Bool.false_ne_true
  | _ => exact absurd h Bool.false_ne_true

/-- So has whoever uses it, but for the key's destructor. -/
theorem Loc.calling_of_usesMutex {l : Loc} (h : l.usesMutex = true) :
    l.calling = true ∨ l.needsMutex = true ∨ l = .destroying .l44 := by
  cases l with
  | set => exact .inl rfl
  | exiting pc => cases pc <;> first | exact .inr (.inl rfl) | exact absurd h Bool.false_ne_true
  | destroying pc => cases pc <;> first | exact .inr (.inr rfl) | exact absurd h Bool.false_ne_true
  | _ => exact absurd h Bool.false_ne_true

theorem Loc.calling_of_usesKey {l : Loc} (h : l.usesKey = true) :
    l.calling = true ∨ l.needsKey = true ∨ l.destroys = true := by
  cases l with
  | set | get => exact .inl rfl
  | exiting pc => cases pc <;> first | exact .inr (.inl rfl) | exact absurd h Bool.false_ne_true
  | destroying pc => exact .inr (.inr rfl)
  | _ => exact absurd h Bool.false_ne_true

/-! ## The invariant -/

/-- **Nobody is left who would use what has ended.** -/
structure Outlived (s : St) : Prop where
  held : ∀ t, s.mem.mutex = some t → (s.loc t).holdsMutex = true
  mutex : s.mem.mutexEnded = true → s.mem.deleted = true ∧
    ∀ t, (s.loc t).needsMutex = false ∧ ∀ pc, s.loc t = .destroying pc → pc = .l45
  key : s.mem.ended = true → s.mem.deleted = true ∧
    ∀ t, (s.loc t).needsKey = false ∧ (s.loc t).destroys = false

theorem start_outlived (item : Iid → Item) : Outlived (start item) :=
  ⟨by simp [start, Mem.construct], by simp [start, Mem.construct], by simp [start, Mem.construct]⟩

section Moves

variable {t : Tid} {a : Act} {l₀ l : Loc} {m₀ m : Mem} {e : Event}

/-- The mutex is taken, given back or left alone. -/
theorem mutex_of_moves (hm : Moves t a l₀ m₀ l m e) :
    m.mutex = none ∨ m.mutex = some t ∧ l.holdsMutex = true ∨
      m.mutex = m₀.mutex ∧ (l₀.holdsMutex = true → l.holdsMutex = true) := by
  cases hm <;> first | exact .inl rfl | exact .inr (.inl ⟨rfl, rfl⟩) | exact .inr (.inr ⟨rfl, id⟩)

/-- Nobody comes to need the mutex once the key is deleted… -/
theorem needsMutex_of_moves (hm : Moves t a l₀ m₀ l m e) (hdel : m₀.deleted = true)
    (hl₀ : l₀.needsMutex = false) : l.needsMutex = false := by
  cases hm <;> first | rfl | exact hl₀ | exact absurd (hdel.symm.trans ‹_›) Bool.noConfusion

/-- …or the key. -/
theorem needsKey_of_moves (hm : Moves t a l₀ m₀ l m e) (hdel : m₀.deleted = true)
    (hl₀ : l₀.needsKey = false) : l.needsKey = false := by
  cases hm <;> first | rfl | exact hl₀ | exact absurd (hdel.symm.trans ‹_›) Bool.noConfusion

theorem mutexEnded_of_moves (hm : Moves t a l₀ m₀ l m e) :
    m.mutexEnded = m₀.mutexEnded ∨ l₀ = .destroying .l44 ∧ l = .destroying .l45 := by
  cases hm <;> first | exact .inl rfl | exact .inr ⟨rfl, rfl⟩

theorem ended_of_moves (hm : Moves t a l₀ m₀ l m e) :
    m.ended = m₀.ended ∨ l₀ = .destroying .l45 ∧ l = .idle := by
  cases hm <;> first | exact .inl rfl | exact .inr ⟨rfl, rfl⟩

/-- After line 45 the destructor returns. -/
theorem not_destroys_of_moves (hm : Moves t a l₀ m₀ l m e) (hl₀ : l₀ = .destroying .l45) :
    l.destroys = false := by
  cases hm <;> first | rfl | cases hl₀

end Moves

section Step

variable {s : St} {t : Tid} {a : Act} {l : Loc} {m : Mem} {e : Event}

/-- **Nobody uses what has ended.** -/
theorem Outlived.not_misuses (o : Outlived s) (i : InOrder s) (hL : Last s t a) :
    ¬ Misuses s t := by
  rintro (⟨hl, hheld⟩ | ⟨huse, hend⟩ | ⟨huse, hend⟩)
  · obtain ⟨t', ht'⟩ := Option.ne_none_iff_exists'.mp hheld
    rcases Loc.calling_of_holdsMutex (o.held t' ht') with hc | hn
    · exact absurd (i.alone t (by rw [hl]; rfl) t').1 (by simp [hc])
    · exact absurd (hL.1 hl t') (by simp [hn])
  · obtain ⟨hdel, hnone⟩ := o.mutex hend
    rcases Loc.calling_of_usesMutex huse with hc | hn | hl
    · exact absurd (i.calm hdel t) (by simp [hc])
    · exact absurd (hnone t).1 (by simp [hn])
    · cases (hnone t).2 _ hl
  · obtain ⟨hdel, hnone⟩ := o.key hend
    rcases Loc.calling_of_usesKey huse with hc | hn | hd
    · exact absurd (i.calm hdel t) (by simp [hc])
    · exact absurd (hnone t).1 (by simp [hn])
    · exact absurd (hnone t).2 (by simp [hd])

/-- What has been deleted stays deleted. -/
theorem deleted_mono (hm : Moves t a (s.loc t) s.mem l m e) (hd : s.mem.deleted = true) :
    m.deleted = true := by
  rcases deleted_of_moves hm with hsame | ⟨-, -, hd'⟩
  exacts [hsame.trans hd, hd']

/-- …and nobody begins to destroy it again. -/
theorem destroys_after (hE : InTurn s t a) (hm : Moves t a (s.loc t) s.mem l m e)
    (hd : s.mem.deleted = true) (hl : l.destroys = true) : (s.loc t).destroys = true := by
  refine (destroys_of_moves hm hl).resolve_right ?_
  rintro rfl
  exact absurd (hE.1.symm.trans hd) Bool.noConfusion

/-- Whoever holds the mutex is where it holds it. -/
theorem Outlived.held_step (o : Outlived s) (hm : Moves t a (s.loc t) s.mem l m e) {t' : Tid}
    (ht' : m.mutex = some t') : ((s.move t l m).loc t').holdsMutex = true := by
  rcases mutex_of_moves hm with hnone | ⟨hsome, hl⟩ | ⟨hsame, hl⟩
  · exact absurd (hnone.symm.trans ht') (by simp)
  · obtain rfl : t = t' := Option.some.inj (hsome.symm.trans ht')
    rwa [State.move_loc_self]
  · have hheld := o.held t' (hsame.symm.trans ht')
    by_cases htt : t' = t
    · subst htt
      rw [State.move_loc_self]
      exact hl hheld
    · rwa [State.move_loc_of_ne _ _ _ _ htt]

/-- Whoever is past the end of the mutex, or never comes to it, stays so. -/
theorem destroying_step (hE : InTurn s t a) (hm : Moves t a (s.loc t) s.mem l m e)
    (hdel : s.mem.deleted = true) (hlast : ∀ pc, s.loc t = .destroying pc → pc = .l45)
    (pc : DestroyPc) : l ≠ .destroying pc := by
  intro hl
  have hdes := destroys_after hE hm hdel (by rw [hl]; rfl)
  obtain ⟨pc₀, hl₀⟩ : ∃ pc, s.loc t = .destroying pc := by
    generalize s.loc t = l₀ at hdes
    cases l₀ with
    | destroying pc => exact ⟨pc, rfl⟩
    | _ => cases hdes
  obtain rfl := hlast pc₀ hl₀
  exact absurd (not_destroys_of_moves hm hl₀) (by simp [hl, Loc.destroys])

theorem Outlived.mutex_step (o : Outlived s) (i : InOrder s) (hE : InTurn s t a)
    (hL : Last s t a) (hm : Moves t a (s.loc t) s.mem l m e) (hend : m.mutexEnded = true) :
    m.deleted = true ∧ ∀ t', ((s.move t l m).loc t').needsMutex = false ∧
      ∀ pc, (s.move t l m).loc t' = .destroying pc → pc = .l45 := by
  have hloc := State.forall_move (A := fun _ l => l.needsMutex = false ∧
    ∀ pc, l = .destroying pc → pc = .l45) s t l m
  rcases mutexEnded_of_moves hm with hsame | ⟨hl₀, rfl⟩
  · obtain ⟨hdel, hnone⟩ := o.mutex (hsame.symm.trans hend)
    exact ⟨deleted_mono hm hdel, hloc.mpr ⟨⟨needsMutex_of_moves hm hdel (hnone t).1, fun pc hl =>
      absurd hl (destroying_step hE hm hdel (hnone t).2 pc)⟩, fun t' _ => hnone t'⟩⟩
  · have hdes : (s.loc t).destroys = true := by rw [hl₀]; rfl
    refine ⟨deleted_mono hm (i.deleted t _ hl₀ (by simp)), hloc.mpr
      ⟨⟨rfl, fun pc hl => (Loc.destroying.inj hl).symm⟩, fun t' ht' => ⟨hL.1 hl₀ t', ?_⟩⟩⟩
    intro pc hl
    exact absurd ((i.alone t hdes t').2 ht') (by simp [hl, Loc.destroys])

theorem Outlived.key_step (o : Outlived s) (i : InOrder s) (hE : InTurn s t a)
    (hL : Last s t a) (hm : Moves t a (s.loc t) s.mem l m e) (hend : m.ended = true) :
    m.deleted = true ∧ ∀ t', ((s.move t l m).loc t').needsKey = false ∧
      ((s.move t l m).loc t').destroys = false := by
  have hloc := State.forall_move (A := fun _ l => l.needsKey = false ∧ l.destroys = false) s t l m
  rcases ended_of_moves hm with hsame | ⟨hl₀, rfl⟩
  · obtain ⟨hdel, hnone⟩ := o.key (hsame.symm.trans hend)
    refine ⟨deleted_mono hm hdel, hloc.mpr ⟨⟨needsKey_of_moves hm hdel (hnone t).1, ?_⟩,
      fun t' _ => hnone t'⟩⟩
    refine Bool.not_eq_true _ ▸ fun hl => ?_
    exact absurd (hnone t).2 (by simp [destroys_after hE hm hdel hl])
  · have hdes : (s.loc t).destroys = true := by rw [hl₀]; rfl
    exact ⟨deleted_mono hm (i.deleted t _ hl₀ (by simp)), hloc.mpr
      ⟨⟨rfl, rfl⟩, fun t' ht' => ⟨hL.2 hl₀ t', (i.alone t hdes t').2 ht'⟩⟩⟩

/-- **One step keeps it.** -/
theorem Outlived.step (o : Outlived s) (i : InOrder s) (hE : InTurn s t a) (hL : Last s t a)
    (hm : Moves t a (s.loc t) s.mem l m e) : Outlived (s.move t l m) :=
  ⟨fun _ => o.held_step hm, o.mutex_step i hE hL hm, o.key_step i hE hL hm⟩

end Step

end Libult.Tsd
