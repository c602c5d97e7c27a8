import Libult.Threads.Waiting

/-!
# Threads/Ownership — one owner, and nobody parked behind a free flag

Without `WAKEUP_THREAD` the flag and both counters are written with `lck` held.  Between two such
stretches a clear flag means that every registered thread has a wake-up; within one, a thread owes
at most the wake-up it has taken and not yet deregistered for.

    RELEASE: *act = false, c_signaled = c_waiting ──48, 49: both fall──▸ equal ──52: *act = true
-/

namespace Libult.Threads

open Interleaving Program Condition

/-- The thread is between its `ACQUIRE_THREAD` and the end of its `RELEASE_THREAD`. -/
def Frame.owns : Frame → Bool
  | .inside | .apart | .release _ => true
  | _ => false

/-- Nobody calls `WAKEUP_THREAD`. -/
def NoWakeup (_ : St) (_ : Tid) (a : Act) : Prop := a ≠ .wakeup

instance (s : St) (t : Tid) (a : Act) : Decidable (NoWakeup s t a) := by
  unfold NoWakeup
  infer_instance

/-- The lines of `condition_wait` that are reached only while the flag is set. -/
@[simp] def WaitPc.refused : WaitPc → Bool
  | .l27 | .l27w _ | .l30 | .l31 | .l31w _ | .l32 | .l38 => true
  | _ => false

/-- The flag is set while a thread is here. -/
@[simp] def Frame.guarded : Frame → Bool
  | .acquire (.l50 pc) => pc.refused
  | .inside | .apart | .release .l69 => true
  | _ => false

/-- What `c_signaled` lacks to `c_waiting` while the flag is clear and a thread with `lck` is
here. -/
@[simp] def Frame.debt : Frame → Option ℤ
  | .acquire .l49 | .acquire (.l50 .l37) | .acquire (.l50 .l48) | .acquire (.l50 (.l48w _))
  | .release .l71 => some 0
  | .acquire (.l50 .l49) | .acquire (.l50 (.l49w _)) => some 1
  | _ => none

/-- The thread has found the flag clear. -/
@[simp] def Frame.finding : Frame → Bool
  | .acquire .l52 => true
  | _ => false

/-- An owner without `lck` has released it for the time being. -/
theorem Frame.eq_apart {f : Frame} (ho : f.owns = true) (hh : f.holds = false) : f = .apart := by
  cases f with
  | apart => rfl
  | inside | release => cases hh
  | out | acquire => cases ho

/-- **What a thread may rely on at its place.** -/
@[mk_iff] structure Fits (f : Frame) (m : Mem) : Prop where
  guarded : f.guarded = true → m.act = true
  finding : f.finding = true → m.act = false
  debt : ∀ d ∈ f.debt, m.act = false → m.cond.c_signaled + d = m.cond.c_waiting
  taking : ∀ v ∈ f.taking, v = m.cond.c_signaled

/-- A clear flag leaves no wake-up owed. -/
def Mem.Even (m : Mem) : Prop := m.act = false → m.cond.c_signaled = m.cond.c_waiting

/-- **Ownership**: the flag and the counters agree, whoever is where. -/
structure Owned (s : St) : Prop where
  awake : ∀ t, (s.loc t).waking = none
  fits : ∀ t, Fits (s.loc t).frame s.mem
  free : s.mem.lck = none → s.mem.Even
  unique : ∀ t t', (s.loc t).frame.owns = true → (s.loc t').frame.owns = true → t = t'

theorem start_owned : Owned (start false) where
  awake _ := rfl
  fits _ := by simp [start, fits_iff]
  free _ _ := rfl
  unique _ _ h := by cases h

section Moves

variable {t : Tid} {a : Act} {th th' : Thread} {m m' : Mem} {e : Event}

/-- Without `lck` nothing but the lock is written. -/
theorem moves_words (h : Moves t a th m th' m' e) (hw : th.waking = none)
    (hh : th.frame.holds = false) : m'.act = m.act ∧ m'.cond = m.cond := by
  cases h with
  | wait h =>
    rename_i pc o
    cases pc <;> simp only [conditionWait, Option.ite_none_right_eq_some, Option.some.injEq,
      Prod.mk.injEq] at h
    case l33 | l39 => obtain ⟨-, rfl⟩ := h; exact ⟨rfl, rfl⟩
    case l34 | l40 => obtain ⟨-, -, rfl⟩ := h; exact ⟨rfl, rfl⟩
    all_goals cases hh
  | enter | lock | callAcquire | callWakeup => exact ⟨rfl, rfl⟩
  | wakeClear | wakeLoad | wakeStore => cases hw
  | _ => cases hh

/-- The flag is cleared by its owner. -/
theorem moves_act (h : Moves t a th m th' m' e) (hw : th.waking = none) (ha : m.act = true) :
    m'.act = true ∨ th.frame.owns = true := by
  cases h with
  | wait h =>
    rename_i pc o
    cases pc <;> simp only [conditionWait, Option.ite_none_right_eq_some, Option.some.injEq,
      Prod.mk.injEq] at h
    case l34 | l40 => obtain ⟨-, -, rfl⟩ := h; exact .inl ha
    all_goals obtain ⟨-, rfl⟩ := h; exact .inl ha
  | clear => exact .inr rfl
  | take => exact .inl rfl
  | wakeClear => cases hw
  | _ => exact .inl ha

/-- The flag is taken where it was found clear. -/
theorem moves_owns (h : Moves t a th m th' m' e) (ho : th'.frame.owns = true) :
    th.frame.owns = true ∨ th.frame = .acquire .l52 := by
  cases h with
  | wait h => rename_i o; cases o <;> cases ho
  | take => exact .inr rfl
  | enter | test | find | leave | callAcquire => cases ho
  | wakeClear | wakeLoad | wakeStore | callWakeup => exact .inl ho
  | _ => exact .inl rfl

/-- A thread without `lck` relies on its own flag only. -/
theorem fits_of_not_holds {f : Frame} (hh : f.holds = false) (ha : f = .apart → m.act = true) :
    Fits f m := by
  cases f with
  | out => simp [fits_iff]
  | apart => simp [fits_iff, ha rfl]
  | inside | release => cases hh
  | acquire pc =>
    cases pc with
    | l48 => simp [fits_iff]
    | l49 | l52 => cases hh
    | l50 pc =>
      cases pc <;> first
        | (cases hh; done)
        | simp [fits_iff]

/-- **A line of the wait keeps what it relies on.** -/
theorem conditionWait_fits {pc : WaitPc} {o : Option WaitPc}
    (h : conditionWait t m pc = some (o, m')) (hf : Fits (.acquire (.l50 pc)) m)
    (free : m.lck = none → m.Even) (pos : pc.registered = true → 0 < m.cond.c_waiting)
    (hl : ∀ v ∈ (Frame.acquire (.l50 pc)).loaded, v = m.cond.c_waiting)
    (hlock : pc.holds = true → m.lck ≠ none) :
    Fits (.acquire (o.elim .l49 .l50)) m' ∧ (m'.lck = none → m'.Even) := by
  cases pc <;> simp only [conditionWait, Option.ite_none_right_eq_some, Option.some.injEq,
    Prod.mk.injEq] at h
  case l32 | l38 =>
    -- the flag is set
    obtain ⟨rfl, rfl⟩ := h
    have hact := hf.guarded rfl
    exact ⟨fits_of_not_holds rfl fun h => (by cases h), fun _ h => by cases hact.symm.trans h⟩
  case l33 | l39 =>
    obtain ⟨rfl, rfl⟩ := h
    exact ⟨fits_of_not_holds rfl fun h => (by cases h), free⟩
  case l34 | l40 =>
    obtain ⟨hfree, rfl, rfl⟩ := h
    have heven := free hfree
    refine ⟨?_, fun h => by cases h⟩
    simpa [fits_iff,
      Mem.Even, Mem.lock] using heven
  case l30 =>
    obtain ⟨rfl, rfl⟩ := h
    have hact := hf.guarded rfl
    refine ⟨?_, free⟩
    split <;> simp [fits_iff, hact]
  case l37 =>
    obtain ⟨rfl, rfl⟩ := h
    have heven := hf.debt 0 rfl
    have hpos := pos rfl
    refine ⟨?_, free⟩
    split
    · -- nobody left without a wake-up goes round while the flag is clear
      have hact : m.act = true := by
        by_contra hne
        have := heven (Bool.not_eq_true _ ▸ hne)
        omega
      simp [fits_iff, hact]
    · simpa [fits_iff] using heven
  case l27 | l27w v | l31 | l31w v =>
    obtain ⟨rfl, rfl⟩ := h
    have hact := hf.guarded rfl
    refine ⟨?_, fun _ h => by cases hact.symm.trans h⟩
    simp [fits_iff, hact,
      Mem.setWaiting]
  case l48 =>
    obtain ⟨rfl, rfl⟩ := h
    have heven := hf.debt 0 rfl
    refine ⟨?_, free⟩
    simpa [fits_iff] using heven
  case l48w v =>
    obtain ⟨rfl, rfl⟩ := h
    have heven := hf.debt 0 rfl
    have hv := hf.taking v rfl
    refine ⟨?_, fun hfree => absurd hfree (hlock rfl)⟩
    simpa [fits_iff, Mem.setSignaled, hv] using heven
  case l49 =>
    obtain ⟨rfl, rfl⟩ := h
    have hodd := hf.debt 1 rfl
    refine ⟨?_, free⟩
    simpa [fits_iff] using hodd
  case l49w v =>
    obtain ⟨rfl, rfl⟩ := h
    have hodd := hf.debt 1 rfl
    have hv := hl v rfl
    have heven : (m.setWaiting (v - 1)).Even := fun hact => by
      have := hodd hact
      simp only [Mem.setWaiting]
      omega
    exact ⟨by simpa [fits_iff, Mem.Even] using heven, fun _ => heven⟩

/-- **A step keeps what its thread relies on.** -/
theorem moves_fits (h : Moves t a th m th' m' e) (hw : th.waking = none) (ha : a ≠ .wakeup)
    (hf : Fits th.frame m) (free : m.lck = none → m.Even)
    (pos : th.frame.waits WaitPc.registered = true → 0 < m.cond.c_waiting)
    (hl : ∀ v ∈ th.frame.loaded, v = m.cond.c_waiting)
    (hlock : th.frame.holds = true → m.lck ≠ none) :
    Fits th'.frame m' ∧ (m'.lck = none → m'.Even) := by
  cases h with
  | wait h => exact conditionWait_fits h hf free pos hl hlock
  | enter hfree =>
    have heven := free hfree
    exact ⟨by simpa [fits_iff, Mem.Even, Mem.lock] using heven, fun h => by cases h⟩
  | test hact => exact ⟨by simp [fits_iff, hact], free⟩
  | find hact => exact ⟨by simp [fits_iff, hact], free⟩
  | take => exact ⟨by simp [fits_iff, Mem.setAct], fun _ h => by cases h⟩
  | clear => exact ⟨by simp [fits_iff], fun hfree => absurd hfree (hlock rfl)⟩
  | load => exact ⟨by simp [fits_iff], free⟩
  | store =>
    have hv := hl _ rfl
    exact ⟨by simp [fits_iff, Mem.setSignaled, hv], fun hfree => absurd hfree (hlock rfl)⟩
  | leave =>
    have heven := hf.debt 0 rfl
    exact ⟨by simp [fits_iff], fun _ => by simpa [Mem.Even, Mem.unlock] using heven⟩
  | callAcquire => exact ⟨by simp [fits_iff], free⟩
  | callRelease =>
    have hact := hf.guarded rfl
    exact ⟨by simp [fits_iff, hact], free⟩
  | unlock =>
    have hact := hf.guarded rfl
    exact ⟨by simpa [fits_iff, Mem.unlock] using hact, fun _ h => by cases hact.symm.trans h⟩
  | lock =>
    have hact := hf.guarded rfl
    exact ⟨by simpa [fits_iff, Mem.lock] using hact, fun h => by cases h⟩
  | wakeClear | wakeLoad | wakeStore => cases hw
  | callWakeup => exact absurd rfl ha

/-- Only a `WAKEUP_THREAD` leaves one in progress. -/
theorem moves_awake (h : Moves t a th m th' m' e) (hw : th.waking = none) (ha : a ≠ .wakeup) :
    th'.waking = none := by
  cases h with
  | wakeClear | wakeLoad => cases hw
  | callWakeup => exact absurd rfl ha
  | _ => rfl

end Moves

section Step

variable {s : St} {t : Tid} {a : Act} {l : Thread} {m : Mem} {e : Event}

/-- **One step keeps the ownership.** -/
theorem Owned.step (o : Owned s) (c : Counted s) (ha : a ≠ .wakeup)
    (hm : Moves t a (s.loc t) s.mem l m e) : Owned (s.move t l m) := by
  have hw := o.awake t
  have pos : (s.loc t).frame.waits WaitPc.registered = true → 0 < s.mem.cond.c_waiting := by
    intro hreg
    obtain ⟨W, hW, hcard⟩ := c.count
    rw [hcard]
    exact_mod_cast Finset.card_pos.mpr ⟨t, (hW t).mpr hreg⟩
  obtain ⟨hfits, hfree⟩ := moves_fits hm hw ha (o.fits t) o.free pos (c.loaded t) fun hh => by
    simp [(c.holder t).mp hh]
  have hwords := moves_words hm hw
  -- who has `lck` is alone with the flag and the counters
  have others : ∀ t' ≠ t, Fits (s.loc t').frame m := by
    intro t' ht'
    by_cases hh : (s.loc t).frame.holds = true
    · refine fits_of_not_holds ?_ fun hf => ?_
      · exact Bool.not_eq_true _ ▸ fun hh' => ht' (c.holder_eq hh hh')
      · refine (moves_act hm hw ((o.fits t').guarded (by rw [hf]; rfl))).resolve_right fun ho => ?_
        exact ht' (o.unique t' t (by rw [hf]; rfl) ho)
    · obtain ⟨hact, hcond⟩ := hwords (Bool.not_eq_true _ ▸ hh)
      have := o.fits t'
      rw [fits_iff] at this ⊢
      rwa [hact, hcond]
  -- the flag is taken only where there is no owner
  have hnew : l.frame.owns = true → ∀ t' ≠ t, (s.loc t').frame.owns ≠ true := by
    intro hown t' ht' hown'
    rcases moves_owns hm hown with h | h
    · exact ht' (o.unique t' t hown' h)
    · have hact := (o.fits t).finding (by rw [h]; rfl)
      have hh : (s.loc t').frame.holds = false := Bool.not_eq_true _ ▸ fun hh' =>
        ht' (c.holder_eq (by rw [h]; rfl) hh')
      have hguard := (o.fits t').guarded (Frame.eq_apart hown' hh ▸ rfl)
      cases hact.symm.trans hguard
  refine ⟨?_, ?_, hfree, ?_⟩
  · exact (State.forall_move (A := fun _ th => th.waking = none) s t l m).mpr
      ⟨moves_awake hm hw ha, fun t' _ => o.awake t'⟩
  · exact (State.forall_move (A := fun _ th => Fits th.frame m) s t l m).mpr ⟨hfits, others⟩
  · intro t₁ t₂ h₁ h₂
    by_cases ht₁ : t₁ = t <;> by_cases ht₂ : t₂ = t
    · rw [ht₁, ht₂]
    · rw [ht₁, State.move_loc_self] at h₁
      rw [State.move_loc_of_ne _ _ _ _ ht₂] at h₂
      exact absurd h₂ (hnew h₁ t₂ ht₂)
    · rw [ht₂, State.move_loc_self] at h₂
      rw [State.move_loc_of_ne _ _ _ _ ht₁] at h₁
      exact absurd h₁ (hnew h₂ t₁ ht₁)
    · rw [State.move_loc_of_ne _ _ _ _ ht₁] at h₁
      rw [State.move_loc_of_ne _ _ _ _ ht₂] at h₂
      exact o.unique t₁ t₂ h₁ h₂

end Step

/-- While `lck` is free, whoever is registered is in the polling loop. -/
theorem Counted.polling {s : St} (c : Counted s) (hfree : s.mem.lck = none) {W : Finset Tid}
    (hW : Waiters WaitPc.registered s W) : Waiters WaitPc.polling s W := by
  intro t
  rw [hW t]
  have hh := c.not_holds hfree t
  generalize (s.loc t) = th at hh ⊢
  show th.frame.waits WaitPc.registered = true ↔ th.frame.waits WaitPc.polling = true
  unfold Frame.waits
  split
  · rename_i pc hf
    rw [hf] at hh
    cases pc <;> first | (cases hh; done) | simp [WaitPc.registered, WaitPc.polling]
  · rfl

/-- **Exclusive ownership, and nobody parked**: in every run of `ACQUIRE_THREAD` and
`RELEASE_THREAD` at most one thread is an owner, the flag is set while an owner has released `lck`,
and while `lck` and the flag are free there is a wake-up for every thread in the polling loop. -/
theorem exclusive_ownership {s : St} {π : List (Transition Tid Thread Mem Act Event)}
    (hp : threads.Path (start false) π s) (hE : Allowed NoWakeup π) :
    (∀ t t', (s.loc t).frame.owns = true → (s.loc t').frame.owns = true → t = t') ∧
    (s.mem.lck = none → (∃ t, (s.loc t).frame.owns = true) → s.mem.act = true) ∧
    (s.mem.lck = none → s.mem.act = false → ∃ W, Waiters WaitPc.polling s W ∧
      s.mem.cond.c_signaled = s.mem.cond.c_waiting ∧ s.mem.cond.c_waiting = W.card) := by
  obtain ⟨c, o⟩ := hp.invariant (fun _ s => Counted s ∧ Owned s) NoWakeup
    (fun _ _ _ _ _ _ _ hi ha hx => ⟨hi.1.step (moves_of_exec hx),
      hi.2.step hi.1 ha (moves_of_exec hx)⟩) hE ⟨start_counted false, start_owned⟩
  refine ⟨o.unique, ?_, fun hfree hact => ?_⟩
  · rintro hfree ⟨t, ht⟩
    exact (o.fits t).guarded (Frame.eq_apart ht (c.not_holds hfree t) ▸ rfl)
  · obtain ⟨W, hW, hcard⟩ := c.count
    exact ⟨W, c.polling hfree hW, o.free hfree hact, hcard⟩

/-- Thread 0 acquires and lets `lck` go, thread 1 finds the flag set and goes to sleep, thread 0
releases. -/
def releaseSleeper : List (Tid × Act) :=
  [(0, Act.acquire), (0, Act.run), (0, Act.run), (0, Act.run), (0, Act.unlock)] ++
  [(1, Act.acquire)] ++ List.replicate 7 (1, Act.run) ++
  [(0, Act.lock), (0, Act.release)] ++ List.replicate 4 (0, Act.run)

theorem exclusive_ownership_sleeper :
    ∃ s π, threads.Path (start false) π s ∧ (s.loc 1).frame.waits WaitPc.polling = true ∧
      s.mem.cond.c_signaled = s.mem.cond.c_waiting ∧ s.mem.cond.c_waiting ≠ 0 := by
  obtain ⟨s, π, hp, hE, hfree, hact, hpoll⟩ := exists_path_of_run (p := threads)
    (s := start false) releaseSleeper (P := fun s π => Allowed NoWakeup π ∧ s.mem.lck = none ∧
      s.mem.act = false ∧ (s.loc 1).frame.waits WaitPc.polling = true) (by decide)
  obtain ⟨W, hW, heq, hcard⟩ := (exclusive_ownership hp hE).2.2 hfree hact
  have hpos : 0 < W.card := Finset.card_pos.mpr ⟨1, (hW 1).mpr hpoll⟩
  exact ⟨s, π, hp, hpoll, heq, by omega⟩

end Libult.Threads
