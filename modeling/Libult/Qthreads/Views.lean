import Libult.Qthreads.Queue

/-!
# Qthreads/Views — each thread's side of the invariant

`View` is a thread's own side of the invariant, `Guarantee` what its step may do to the others: it
takes and gives back locks for itself, and of the records on other stacks it writes only what the
queue has it mark.
-/

namespace Libult.Qthreads

open Interleaving Program Links

/-- **A thread's own view.** -/
structure View (f : Fifo Addr) (h : List (Event Addr)) (t : Tid) (l : Loc) (m : Mem) : Prop where
  lock : m.m_lock = some t ↔ l.locked = true
  mutex : ∀ k mu pc, l = .wait k mu pc → pc ≠ .l120 → m.mutex mu = some t
  arrived : ∀ k mu pc, l = .wait k mu pc → pc ≠ .l108 → .arrive (t, k) ∈ h
  signaled : ∀ k mu pc, l = .wait k mu pc → pc ≠ .l108 → pc ≠ .l109 →
    (m.waiter (t, k)).m_signaled = if (t, k) ∈ f.unmarked then 0 else 1
  gone : ∀ k mu pc, l = .wait k mu pc → pc = .l124 1 ∨ pc = .l125 1 → (t, k) ∉ f.all
  inside : ∀ w ∈ f.all, w.1 = t → ∃ mu pc, l = .wait w.2 mu pc ∧ pc ≠ .l108

/-- **What a step may do to the other threads.** -/
structure Guarantee (t : Tid) (m m' : Mem) (e : Event Addr) : Prop where
  lock : ∀ t', t' ≠ t → (m'.m_lock = some t' ↔ m.m_lock = some t')
  mutex : ∀ t' mu, t' ≠ t → m.mutex mu = some t' → m'.mutex mu = some t'
  signaled : ∀ w : Addr, w.1 ≠ t →
    (m'.waiter w).m_signaled = if e = .mark w then 1 else (m.waiter w).m_signaled
  arrive : ∀ w, e = .arrive w → w.1 = t

section Step

variable {f f' : Fifo Addr} {h : List (Event Addr)} {t t' : Tid} {l l' : Loc} {m m' : Mem}
  {e : Event Addr}

/-- Another thread's view survives a step. -/
theorem View.others (v : View f h t' l m) (hne : t' ≠ t) (g : Guarantee t m m' e)
    (hs : f.step e = some f') (hd : f.all.Nodup) : View f' (e :: h) t' l m' := by
  have harr : ∀ k, e ≠ .arrive (t', k) := fun k he => hne (g.arrive _ he)
  have hall : ∀ w, w.1 = t' → w ∈ f'.all → w ∈ f.all := fun w hw hwa =>
    (Fifo.mem_all_step hs hwa).resolve_right fun he => hne (hw ▸ g.arrive w he)
  refine ⟨(g.lock t' hne).trans v.lock,
    fun k mu pc hl hpc => g.mutex t' mu hne (v.mutex k mu pc hl hpc),
    fun k mu pc hl hpc => List.mem_cons_of_mem _ (v.arrived k mu pc hl hpc),
    fun k mu pc hl h₁ h₂ => ?_, fun k mu pc hl hpc hw => v.gone k mu pc hl hpc (hall _ rfl hw),
    fun w hw hwt => v.inside w (hall w hwt hw) hwt⟩
  rw [g.signaled (t', k) hne, v.signaled k mu pc hl h₁ h₂]
  have hmem := Fifo.mem_unmarked_step (w := (t', k)) hs hd
  by_cases he : e = .mark (t', k)
  · simp [he, hmem]
  · simp [he, harr k, hmem]

/-- A line that leaves the locks alone, and the marks of the others. -/
theorem Guarantee.of_same (hlock : m'.m_lock = m.m_lock) (hmutex : m'.mutex = m.mutex)
    (hw : ∀ w : Addr, w.1 ≠ t → (m'.waiter w).m_signaled = (m.waiter w).m_signaled)
    (he : e = .tau ∨ ∃ w, e = .back w) : Guarantee t m m' e := by
  refine ⟨fun _ _ => by rw [hlock], fun _ _ _ h => hmutex ▸ h, fun w hne => ?_, fun w ha => ?_⟩
  · rw [hw w hne]
    rcases he with rfl | ⟨w, rfl⟩ <;> simp
  · rcases he with rfl | ⟨w, rfl⟩ <;> cases ha

/-- A line that takes `m_lock`. -/
theorem Guarantee.of_lock (hm : m.m_lock = none) (hmark : ∀ w, e ≠ .mark w)
    (he : ∀ w, e = .arrive w → w.1 = t) : Guarantee t m (m.lock t) e :=
  ⟨fun _ hne => by simp [Mem.lock, hm, Ne.symm hne], fun _ _ _ h => h, fun w _ => by
    rw [if_neg (hmark w)]; rfl, he⟩

/-- A line that gives it back. -/
theorem Guarantee.of_unlock (hm : m.m_lock = some t) (he : e = .tau ∨ e = .done) :
    Guarantee t m m.unlock e := by
  refine ⟨fun _ hne => by simp [Mem.unlock, hm, Ne.symm hne], fun _ _ _ h => h, fun w _ => ?_,
    fun w ha => ?_⟩
  · rcases he with rfl | rfl <;> simp [Mem.unlock]
  · rcases he with rfl | rfl <;> cases ha

theorem Guarantee.of_lockMutex {mu : Mid} (hm : m.mutex mu = none) :
    Guarantee t m (m.lockMutex t mu) .tau := by
  refine ⟨fun _ _ => Iff.rfl, fun t' mu' _ h => ?_, fun w _ => by simp [Mem.lockMutex],
    fun _ ha => (by cases ha)⟩
  have : mu' ≠ mu := by
    rintro rfl
    cases hm.symm.trans h
  simpa [Mem.lockMutex, this] using h

theorem Guarantee.of_unlockMutex {mu : Mid} (hm : m.mutex mu = some t) :
    Guarantee t m (m.unlockMutex mu) .tau := by
  refine ⟨fun _ _ => Iff.rfl, fun t' mu' hne h => ?_, fun w _ => by simp [Mem.unlockMutex],
    fun _ ha => (by cases ha)⟩
  have : mu' ≠ mu := by
    rintro rfl
    exact hne (Option.some.inj (h.symm.trans hm))
  simpa [Mem.unlockMutex, this] using h

theorem Guarantee.of_mark {w : Addr} : Guarantee t m (m.setSignaled w) (.mark w) := by
  refine ⟨fun _ _ => Iff.rfl, fun _ _ _ h => h, fun w' _ => ?_, fun _ ha => (by cases ha)⟩
  by_cases hw : w' = w
  · simp [Mem.setSignaled, Mem.setWaiter, hw]
  · simp [Mem.setSignaled, Mem.setWaiter, hw, Ne.symm hw]

theorem signaled_setWaiter {w : Addr} {r : Waiter} {w' : Addr} (hne : w' ≠ w) :
    (m.setWaiter w r).waiter w' = m.waiter w' := Function.update_of_ne hne ..

theorem signaled_setPrev {w : Addr} {o : Option Addr} {w' : Addr} :
    ((m.setPrev w o).waiter w').m_signaled = (m.waiter w').m_signaled := by
  by_cases hw : w' = w <;> simp [Mem.setPrev, Mem.setWaiter, hw]

theorem condWait_guarantee {k : ℕ} {mu : Mid} {pc : WaitPc} {pc' : Option WaitPc}
    (v : View f h t (.wait k mu pc) m) (hl : condWait t (t, k) mu m pc = some (pc', m', e)) :
    Guarantee t m m' e := by
  have hown : pc.locked = true → m.m_lock = some t := v.lock.mpr
  cases pc <;> simp only [condWait, Option.ite_none_right_eq_some, Option.some.injEq,
    Prod.mk.injEq, Option.map_eq_some_iff] at hl
  case l108 =>
    obtain ⟨hm, rfl, rfl, rfl⟩ := hl
    exact .of_lock hm (by simp) (by rintro _ ⟨⟩; rfl)
  case l109 =>
    obtain ⟨rfl, rfl, rfl⟩ := hl
    refine .of_same rfl rfl (fun w hne => ?_) (.inl rfl)
    rw [signaled_setWaiter fun hw => hne (congrArg Prod.fst hw)]
  case l113 =>
    obtain ⟨head, -, rfl, rfl, rfl⟩ := hl
    exact .of_same rfl rfl (fun _ _ => signaled_setPrev) (.inl rfl)
  case l116 =>
    obtain ⟨rfl, rfl, rfl⟩ := hl
    exact .of_unlock (hown rfl) (.inl rfl)
  case l118 =>
    obtain ⟨rfl, rfl, rfl⟩ := hl
    exact .of_unlockMutex (v.mutex k mu _ rfl (by simp))
  case l120 =>
    obtain ⟨hm, rfl, rfl, rfl⟩ := hl
    exact .of_lockMutex hm
  case l122 =>
    obtain ⟨hm, rfl, rfl, rfl⟩ := hl
    exact .of_lock hm (by simp) (by simp)
  case l124 =>
    obtain ⟨rfl, rfl, rfl⟩ := hl
    exact .of_unlock (hown rfl) (.inl rfl)
  case l125 n =>
    split at hl
    · obtain ⟨rfl, rfl, rfl⟩ := Prod.mk.injEq .. ▸ hl
      exact .of_same rfl rfl (fun _ _ => rfl) (.inr ⟨_, rfl⟩)
    · obtain ⟨rfl, rfl, rfl⟩ := Prod.mk.injEq .. ▸ hl
      exact .of_same rfl rfl (fun _ _ => rfl) (.inl rfl)
  all_goals
    obtain ⟨rfl, rfl, rfl⟩ := hl
    exact .of_same rfl rfl (fun _ _ => rfl) (.inl rfl)

theorem condBroadcast_guarantee {pc : BroadcastPc} {pc' : Option BroadcastPc}
    (v : View f h t (.broadcast pc) m) (hl : condBroadcast t m pc = some (pc', m', e)) :
    Guarantee t m m' e := by
  have hown : pc.locked = true → m.m_lock = some t := v.lock.mpr
  cases pc <;> simp only [condBroadcast, Option.ite_none_right_eq_some, Option.some.injEq,
    Prod.mk.injEq, Option.map_eq_some_iff] at hl
  case l134 =>
    obtain ⟨hm, rfl, rfl, rfl⟩ := hl
    exact .of_lock hm (by simp) (by simp)
  case l136 =>
    obtain ⟨tail, -, rfl, rfl, rfl⟩ := hl
    exact .of_same rfl rfl (fun _ _ => rfl) (.inl rfl)
  case l139 cur =>
    obtain ⟨rfl, rfl, rfl⟩ := hl
    exact .of_mark
  case l143 =>
    obtain ⟨rfl, rfl, rfl⟩ := hl
    exact .of_unlock (hown rfl) (.inr rfl)
  all_goals
    obtain ⟨rfl, rfl, rfl⟩ := hl
    exact .of_same rfl rfl (fun _ _ => rfl) (.inl rfl)

theorem condSignal_guarantee {pc : SignalPc} {pc' : Option SignalPc}
    (v : View f h t (.signal pc) m) (hl : condSignal t m pc = some (pc', m', e)) :
    Guarantee t m m' e := by
  have hown : pc.locked = true → m.m_lock = some t := v.lock.mpr
  cases pc <;> simp only [condSignal, Option.ite_none_right_eq_some, Option.some.injEq,
    Prod.mk.injEq, Option.map_eq_some_iff] at hl
  case l147 =>
    obtain ⟨hm, rfl, rfl, rfl⟩ := hl
    exact .of_lock hm (by simp) (by simp)
  case l149 =>
    obtain ⟨tail, -, rfl, rfl, rfl⟩ := hl
    exact .of_same rfl rfl (fun _ _ => rfl) (.inl rfl)
  case l152 cur =>
    obtain ⟨rfl, rfl, rfl⟩ := hl
    exact .of_mark
  case l157 =>
    obtain ⟨rfl, rfl, rfl⟩ := hl
    exact .of_unlock (hown rfl) (.inr rfl)
  all_goals
    obtain ⟨rfl, rfl, rfl⟩ := hl
    exact .of_same rfl rfl (fun _ _ => rfl) (.inl rfl)

/-- **Every step keeps to it.** -/
theorem View.guarantee (v : View f h t l m) (hm : Moves t l m l' m' e) : Guarantee t m m' e := by
  cases hm with
  | lock hmu => exact .of_lockMutex hmu
  | unlock hmu => exact .of_unlockMutex hmu
  | scribble =>
    refine .of_same rfl rfl (fun w hne => ?_) (.inl rfl)
    rw [signaled_setWaiter fun hw => hne (congrArg Prod.fst hw)]
  | callWait | callBroadcast | callSignal => exact .of_same rfl rfl (fun _ _ => rfl) (.inl rfl)
  | wait hl => exact condWait_guarantee v hl
  | broadcast hl => exact condBroadcast_guarantee v hl
  | signal hl => exact condSignal_guarantee v hl

/-! ## The mover's own view -/

/-- A thread outside the waits has no record that matters. -/
theorem View.of_not_wait (hlock : m.m_lock = some t ↔ l.locked = true)
    (hl : ∀ k mu pc, l ≠ .wait k mu pc) (hno : ∀ w ∈ f.all, w.1 ≠ t) : View f h t l m :=
  ⟨hlock, fun k mu pc h => absurd h (hl k mu pc), fun k mu pc h => absurd h (hl k mu pc),
    fun k mu pc h => absurd h (hl k mu pc), fun k mu pc h => absurd h (hl k mu pc),
    fun w hw hwt => absurd hwt (hno w hw)⟩

theorem View.no_record (v : View f h t l m) (hl : ∀ k mu pc, l ≠ .wait k mu pc) :
    ∀ w ∈ f.all, w.1 ≠ t := by
  intro w hw hwt
  obtain ⟨mu, pc, h, -⟩ := v.inside w hw hwt
  exact hl _ _ _ h

/-- A thread that moves on in its wait. -/
theorem View.advance {k : ℕ} {mu : Mid} {pc pc' : WaitPc} (v : View f h t (.wait k mu pc) m)
    (hpc : pc ≠ .l108) (hpc' : pc' ≠ .l108) (hlock : m'.m_lock = some t ↔ pc'.locked = true)
    (hmutex : pc' ≠ .l120 → m'.mutex mu = some t)
    (hsig : pc' ≠ .l109 →
      (m'.waiter (t, k)).m_signaled = if (t, k) ∈ f.unmarked then 0 else 1)
    (hgone : pc' = .l124 1 ∨ pc' = .l125 1 → (t, k) ∉ f.all) :
    View f (e :: h) t (.wait k mu pc') m' := by
  refine ⟨hlock, ?_, ?_, ?_, ?_, fun w hw hwt => ?_⟩
  · rintro _ _ _ ⟨⟩
    exact hmutex
  · rintro _ _ _ ⟨⟩ -
    exact List.mem_cons_of_mem _ (v.arrived k mu pc rfl hpc)
  · rintro _ _ _ ⟨⟩ - h
    exact hsig h
  · rintro _ _ _ ⟨⟩
    exact hgone
  · obtain ⟨mu, _, ⟨⟩, -⟩ := v.inside w hw hwt
    exact ⟨_, pc', rfl, hpc'⟩

/-- **A line of the wait**: the caller's own view. -/
theorem View.own_wait {k : ℕ} {mu : Mid} {pc : WaitPc} {pc' : Option WaitPc}
    (v : View f h t (.wait k mu pc) m) (hl : condWait t (t, k) mu m pc = some (pc', m', e))
    (hs : f.step e = some f') (hS : pc.locked = true → pc.shape (t, k) f m) :
    View f' (e :: h) t (pc'.elim .idle (.wait k mu)) m' := by
  have hown := v.lock
  have hmu := v.mutex k mu pc rfl
  have hsig := v.signaled k mu pc rfl
  have hgone := v.gone k mu pc rfl
  cases pc <;> simp only [condWait, Option.ite_none_right_eq_some, Option.some.injEq,
    Prod.mk.injEq, Option.map_eq_some_iff] at hl
  case l108 =>
    obtain ⟨-, rfl, rfl, rfl⟩ := hl
    refine ⟨by simp [Mem.lock, Loc.locked, WaitPc.locked], ?_, ?_, ?_, ?_, fun w hw hwt => ?_⟩
    · rintro _ _ _ ⟨⟩ -
      exact hmu (by simp)
    · rintro _ _ _ ⟨⟩ -
      exact List.mem_cons_self
    · rintro _ _ _ ⟨⟩ - h
      exact absurd rfl h
    · rintro _ _ _ ⟨⟩ h
      exact absurd h (by simp)
    · rcases Fifo.mem_all_step hs hw with hw | hw
      · obtain ⟨mu', _, ⟨⟩, h⟩ := v.inside w hw hwt
        exact absurd rfl h
      · cases hw
        exact ⟨mu, .l109, rfl, by simp⟩
  case l109 =>
    obtain ⟨rfl, rfl, rfl⟩ := hl
    obtain rfl := Option.some.inj hs
    obtain ⟨q, rfl, -, -⟩ := hS rfl
    refine v.advance (by simp) (by simp) hown (fun _ => hmu (by simp)) (fun _ => ?_) (by simp)
    simp [Mem.setWaiter, Fifo.unmarked]
  case l113 =>
    obtain ⟨head, -, rfl, rfl, rfl⟩ := hl
    obtain rfl := Option.some.inj hs
    exact v.advance (by simp) (by simp) hown (fun _ => hmu (by simp))
      (fun _ => signaled_setPrev.trans (hsig (by simp) (by simp))) (by simp)
  case l120 =>
    obtain ⟨hm, rfl, rfl, rfl⟩ := hl
    obtain rfl := Option.some.inj hs
    exact v.advance (by simp) (by simp) hown (fun _ => by simp [Mem.lockMutex])
      (fun _ => hsig (by simp) (by simp)) (by simp)
  case l122 =>
    obtain ⟨hm, rfl, rfl, rfl⟩ := hl
    obtain rfl := Option.some.inj hs
    exact v.advance (by simp) (by simp) (by simp [Mem.lock, WaitPc.locked]) (fun _ => hmu (by simp))
      (fun _ => hsig (by simp) (by simp)) (by simp)
  case l123 =>
    obtain ⟨rfl, rfl, rfl⟩ := hl
    obtain rfl := Option.some.inj hs
    refine v.advance (by simp) (by simp) hown (fun _ => hmu (by simp))
      (fun _ => hsig (by simp) (by simp)) fun h hw => ?_
    have hsig := hsig (by simp) (by simp)
    rw [show (m.waiter (t, k)).m_signaled = 1 by simpa using h] at hsig
    rw [Fifo.all, (hS rfl : Rest f m).woken] at hw
    simp [show (t, k) ∈ f.unmarked from hw] at hsig
  case l124 n =>
    obtain ⟨rfl, rfl, rfl⟩ := hl
    obtain rfl := Option.some.inj hs
    refine v.advance (by simp) (by simp) (by simp [Mem.unlock, WaitPc.locked])
      (fun _ => hmu (by simp)) (fun _ => hsig (by simp) (by simp)) fun h => hgone ?_
    simpa using h
  case l125 n =>
    split at hl
    · obtain ⟨rfl, rfl, rfl⟩ := Prod.mk.injEq .. ▸ hl
      rw [Fifo.step, Option.ite_none_left_eq_some] at hs
      obtain ⟨hw, hf⟩ := hs
      obtain rfl := Option.some.inj hf
      refine .of_not_wait hown (by simp) fun w hwf hwt => hw ?_
      obtain ⟨mu', pc, h, -⟩ := v.inside w hwf hwt
      obtain ⟨rfl, -, -⟩ : k = w.2 ∧ mu = mu' ∧ _ = pc := by simpa using h
      exact hwt ▸ hwf
    · obtain ⟨rfl, rfl, rfl⟩ := Prod.mk.injEq .. ▸ hl
      obtain rfl := Option.some.inj hs
      exact v.advance (by simp) (by simp) hown (fun _ => hmu (by simp))
        (fun _ => hsig (by simp) (by simp)) (by simp)
  case l118 =>
    obtain ⟨rfl, rfl, rfl⟩ := hl
    obtain rfl := Option.some.inj hs
    exact v.advance (by simp) (by simp) hown (by simp) (fun _ => hsig (by simp) (by simp)) (by simp)
  case l116 =>
    obtain ⟨rfl, rfl, rfl⟩ := hl
    obtain rfl := Option.some.inj hs
    exact v.advance (by simp) (by simp) (by simp [Mem.unlock, WaitPc.locked])
      (fun _ => hmu (by simp)) (fun _ => hsig (by simp) (by simp)) (by simp)
  case l110 =>
    obtain ⟨rfl, rfl, rfl⟩ := hl
    obtain rfl := Option.some.inj hs
    split
    all_goals
      exact v.advance (by simp) (by simp) hown (fun _ => hmu (by simp))
        (fun _ => hsig (by simp) (by simp)) (by simp)
  all_goals
    obtain ⟨rfl, rfl, rfl⟩ := hl
    obtain rfl := Option.some.inj hs
    exact v.advance (by simp) (by simp) hown (fun _ => hmu (by simp))
      (fun _ => hsig (by simp) (by simp)) (by simp)

theorem condBroadcast_lock {pc : BroadcastPc} {pc' : Option BroadcastPc}
    (hown : m.m_lock = some t ↔ pc.locked = true)
    (hl : condBroadcast t m pc = some (pc', m', e)) :
    (m'.m_lock = some t ↔ (pc'.elim Loc.idle .broadcast).locked = true) ∧ ∀ w, e ≠ .arrive w := by
  cases pc <;> simp only [condBroadcast, Option.ite_none_right_eq_some, Option.some.injEq,
    Prod.mk.injEq, Option.map_eq_some_iff] at hl
  case l134 =>
    obtain ⟨-, rfl, rfl, rfl⟩ := hl
    simp [Mem.lock, Loc.locked, BroadcastPc.locked]
  case l135 =>
    obtain ⟨rfl, rfl, rfl⟩ := hl
    refine ⟨?_, by simp⟩
    split <;> exact hown
  case l136 =>
    obtain ⟨tail, -, rfl, rfl, rfl⟩ := hl
    exact ⟨hown, by simp⟩
  case l143 =>
    obtain ⟨rfl, rfl, rfl⟩ := hl
    simp [Mem.unlock, Loc.locked]
  all_goals
    obtain ⟨rfl, rfl, rfl⟩ := hl
    exact ⟨hown, by simp⟩

theorem condSignal_lock {pc : SignalPc} {pc' : Option SignalPc}
    (hown : m.m_lock = some t ↔ pc.locked = true)
    (hl : condSignal t m pc = some (pc', m', e)) :
    (m'.m_lock = some t ↔ (pc'.elim Loc.idle .signal).locked = true) ∧ ∀ w, e ≠ .arrive w := by
  cases pc <;> simp only [condSignal, Option.ite_none_right_eq_some, Option.some.injEq,
    Prod.mk.injEq, Option.map_eq_some_iff] at hl
  case l147 =>
    obtain ⟨-, rfl, rfl, rfl⟩ := hl
    simp [Mem.lock, Loc.locked, SignalPc.locked]
  case l148 | l153 =>
    obtain ⟨rfl, rfl, rfl⟩ := hl
    refine ⟨?_, by simp⟩
    split <;> exact hown
  case l149 =>
    obtain ⟨tail, -, rfl, rfl, rfl⟩ := hl
    exact ⟨hown, by simp⟩
  case l157 =>
    obtain ⟨rfl, rfl, rfl⟩ := hl
    simp [Mem.unlock, Loc.locked]
  all_goals
    obtain ⟨rfl, rfl, rfl⟩ := hl
    exact ⟨hown, by simp⟩

/-- The mover's own view survives its step. -/
theorem View.own (v : View f h t l m) (hm : Moves t l m l' m' e) (hs : f.step e = some f')
    (hS : l.locked = true → Shape t f m l) : View f' (e :: h) t l' m' := by
  cases hm with
  | wait hl => exact v.own_wait hl hs hS
  | broadcast hl =>
    obtain ⟨hlock, he⟩ := condBroadcast_lock v.lock hl
    refine .of_not_wait hlock (fun k mu pc => ?_) fun w hw => ?_
    · rename_i pc'
      cases pc' <;> simp
    · exact v.no_record (by simp) w ((Fifo.mem_all_step hs hw).resolve_right (he w))
  | signal hl =>
    obtain ⟨hlock, he⟩ := condSignal_lock v.lock hl
    refine .of_not_wait hlock (fun k mu pc => ?_) fun w hw => ?_
    · rename_i pc'
      cases pc' <;> simp
    · exact v.no_record (by simp) w ((Fifo.mem_all_step hs hw).resolve_right (he w))
  | callWait hmu =>
    obtain rfl := Option.some.inj hs
    have hno := v.no_record (by simp)
    refine ⟨v.lock, ?_, ?_, ?_, ?_, fun w hw hwt => absurd hwt (hno w hw)⟩
    · rintro _ _ _ ⟨⟩ -
      exact hmu
    · rintro _ _ _ ⟨⟩ h
      exact absurd rfl h
    · rintro _ _ _ ⟨⟩ h
      exact absurd rfl h
    · rintro _ _ _ ⟨⟩ h
      exact absurd h (by simp)
  | _ =>
    obtain rfl := Option.some.inj hs
    exact .of_not_wait v.lock (by simp) (v.no_record (by simp))

/-- A line that holds `m_lock`, or takes it, finds it so. -/
theorem condBroadcast_held {pc : BroadcastPc} {pc' : Option BroadcastPc}
    (hown : m.m_lock = some t ↔ pc.locked = true)
    (hl : condBroadcast t m pc = some (pc', m', e)) : m.m_lock = some t ∨ m.m_lock = none := by
  by_cases hpc : pc.locked = true
  · exact .inl (hown.mpr hpc)
  · cases pc <;> first | exact absurd rfl hpc | skip
    rw [condBroadcast, Option.ite_none_right_eq_some] at hl
    exact .inr hl.1

theorem condSignal_held {pc : SignalPc} {pc' : Option SignalPc}
    (hown : m.m_lock = some t ↔ pc.locked = true)
    (hl : condSignal t m pc = some (pc', m', e)) : m.m_lock = some t ∨ m.m_lock = none := by
  by_cases hpc : pc.locked = true
  · exact .inl (hown.mpr hpc)
  · cases pc <;> first | exact absurd rfl hpc | skip
    rw [condSignal, Option.ite_none_right_eq_some] at hl
    exact .inr hl.1

theorem condWait_held {k : ℕ} {mu : Mid} {pc : WaitPc} {pc' : Option WaitPc}
    (hown : m.m_lock = some t ↔ pc.locked = true)
    (hl : condWait t (t, k) mu m pc = some (pc', m', e))
    (hsec : pc.locked = true ∨ pc = .l108 ∨ pc = .l122) :
    m.m_lock = some t ∨ m.m_lock = none := by
  rcases hsec with hpc | rfl | rfl
  · exact .inl (hown.mpr hpc)
  all_goals
    rw [condWait, Option.ite_none_right_eq_some] at hl
    exact .inr hl.1

/-- Elsewhere the wait leaves the condition alone. -/
theorem View.quiet_wait {k : ℕ} {mu : Mid} {pc : WaitPc} {pc' : Option WaitPc}
    (v : View f h t (.wait k mu pc) m) (hl : condWait t (t, k) mu m pc = some (pc', m', e))
    (hsec : ¬ (pc.locked = true ∨ pc = .l108 ∨ pc = .l122)) :
    f.step e = some f ∧ Agree f.all m m' ∧ m'.m_lock = m.m_lock := by
  have hgone := v.gone k mu pc rfl
  cases pc <;> simp only [condWait, Option.ite_none_right_eq_some, Option.some.injEq,
    Prod.mk.injEq] at hl
  case l118 =>
    obtain ⟨rfl, rfl, rfl⟩ := hl
    exact ⟨rfl, ⟨rfl, rfl, fun _ _ => rfl⟩, rfl⟩
  case l120 =>
    obtain ⟨-, rfl, rfl, rfl⟩ := hl
    exact ⟨rfl, ⟨rfl, rfl, fun _ _ => rfl⟩, rfl⟩
  case l125 n =>
    split at hl
    · rename_i hn
      obtain ⟨rfl, rfl, rfl⟩ := Prod.mk.injEq .. ▸ hl
      exact ⟨if_neg (hgone (.inr (hn ▸ rfl))), ⟨rfl, rfl, fun _ _ => rfl⟩, rfl⟩
    · obtain ⟨rfl, rfl, rfl⟩ := Prod.mk.injEq .. ▸ hl
      exact ⟨rfl, ⟨rfl, rfl, fun _ _ => rfl⟩, rfl⟩
  all_goals exact absurd (by simp [WaitPc.locked]) hsec

/-- **A step is in a section, or leaves the queue alone.** -/
theorem View.section_or_quiet (v : View f h t l m) (hd : f.all.Nodup) (hm : Moves t l m l' m' e)
    (hS : m.m_lock = some t ∨ m.m_lock = none → Shape t f m l) :
    (∃ f', f.step e = some f' ∧ (m.m_lock = some t ∨ m.m_lock = none) ∧ Shape t f' m' l') ∨
      (l.locked = false ∧ f.step e = some f ∧ Agree f.all m m' ∧ m'.m_lock = m.m_lock) := by
  cases hm with
  | lock | unlock | callWait | callBroadcast | callSignal =>
    exact .inr ⟨rfl, rfl, ⟨rfl, rfl, fun _ _ => rfl⟩, rfl⟩
  | scribble =>
    refine .inr ⟨rfl, rfl, ⟨rfl, rfl, fun w hw => ?_⟩, rfl⟩
    rw [Mem.prev_setWaiter, Function.update_of_ne]
    exact fun h => v.no_record (by simp) w hw (congrArg Prod.fst h)
  | broadcast hl =>
    have hlock := condBroadcast_held v.lock hl
    obtain ⟨f', hs, h'⟩ := condBroadcast_shape (hS hlock) hl
    exact .inl ⟨f', hs, hlock, h'⟩
  | signal hl =>
    have hlock := condSignal_held v.lock hl
    obtain ⟨f', hs, h'⟩ := condSignal_shape (hS hlock) hl
    exact .inl ⟨f', hs, hlock, h'⟩
  | @wait _ _ k mu pc _ _ hl =>
    by_cases hsec : pc.locked = true ∨ pc = .l108 ∨ pc = .l122
    · have hlock := condWait_held v.lock hl hsec
      have hnew : pc = .l108 → (t, k) ∉ f.all := by
        rintro rfl hw
        obtain ⟨mu', _, ⟨⟩, hne⟩ := v.inside _ hw rfl
        exact hne rfl
      obtain ⟨f', pc₁, hs, rfl, h'⟩ := condWait_shape hd hnew (hS hlock) hl hsec
      exact .inl ⟨f', hs, hlock, h'⟩
    · exact .inr ⟨Bool.not_eq_true _ ▸ fun h => hsec (.inl h), v.quiet_wait hl hsec⟩

end Step

end Libult.Qthreads
