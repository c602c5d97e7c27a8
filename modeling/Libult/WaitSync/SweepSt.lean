import Libult.Interleaving.Solo
import Libult.WaitSync.CodeSt
import Libult.WaitSync.Visits

/-!
# WaitSync/SweepSt — the global wakeup on the list of a `sync_wait_st`

Without threads the list is the one sync of the thread that waits, with `NULL` after it, and the
walk is a call the thread makes from its own `progress()`: nobody runs meanwhile, no lock is in its
way, and there is nobody to signal.

    17 ─▸ 18 ─▸ 24 S ─▸ 25 ─▸ 18n ─▸ 29
-/

namespace Libult.WaitSync

open Interleaving Program

/-! ## What the thread keeps -/

/-- A state of the one thread. -/
abbrev StSt := State Tid ThreadSt Mem

/-- The thread calls `sync_wait_st` on the sync it has initialised, in the memory `m`. -/
def startSt (m : Mem) (t : Tid) (S : Sid) (c : ℤ) : StSt :=
  ⟨fun _ => ⟨.wait S .l66, .idle⟩, (m.waitSyncInit S t c).ints⟩

/-- The call has `wait_sync_lock`. -/
def CallSt.listLocked : CallSt → Bool
  | .wakeup _ pc => pc ≠ .l17
  | _ => false

/-- **What the thread keeps**: from its `progress()` it sees its own sync on the list, with nothing
after it. -/
structure SoundSt (t : Tid) (S : Sid) (th : ThreadSt) (m : Mem) : Prop where
  frame : (∃ pc, th.frame = .wait S pc) ∨ ∃ rc, th.frame = .back S rc
  calling : th.call ≠ .idle → th.frame = .wait S .l71
  list : th.frame = .wait S .l70 ∨ th.frame = .wait S .l71 → m.waitSyncList = some S
  next : (m.sync S).next = none
  lock : m.waitSyncLock = if th.call.listLocked then some t else none
  awake : (m.sync S).condition = []

section Sound

variable {t : Tid} {S : Sid} {a : Act} {th th' : ThreadSt} {m m' : Mem} {e : Event} {st : ℤ}

/-- An update writes a count or a status, and nothing else. -/
theorem waitSyncUpdateSt_frame (X : Sid) (u st : ℤ) (pc : UpdateStPc) {pc' : Option UpdateStPc}
    (h : waitSyncUpdateSt X u st m pc = (pc', m')) :
    m'.waitSyncList = m.waitSyncList ∧ m'.waitSyncLock = m.waitSyncLock ∧
      ∀ Y, (m'.sync Y).next = (m.sync Y).next ∧ (m'.sync Y).prev = (m.sync Y).prev ∧
        (m'.sync Y).owner = (m.sync Y).owner ∧ (m'.sync Y).condition = (m.sync Y).condition := by
  cases pc <;> obtain ⟨-, rfl⟩ := Prod.mk.inj h <;> refine ⟨rfl, rfl, fun Y => ?_⟩
  case l110 => exact ⟨rfl, rfl, rfl, rfl⟩
  all_goals
    by_cases hY : Y = X <;> simp [Mem.setCount, Mem.setStatus, hY]

/-- The loop head leads to a line that has the lock. -/
theorem WakeupMtStPc.listLocked_next (o : Option Sid) :
    (CallSt.wakeup st (WakeupMtStPc.next o).1).listLocked = true := by
  cases o <;> simp [next, CallSt.listLocked]

/-- So does a line of the global wakeup, but for the lock: it takes it at line 17 and gives it back
at line 29. -/
theorem globalWakeupMtSt_frame {pc : WakeupMtStPc} {pc' : Option WakeupMtStPc}
    (h : globalWakeupMtSt t st m pc = some (pc', m', e)) :
    m'.waitSyncList = m.waitSyncList ∧
      (∀ Y, (m'.sync Y).next = (m.sync Y).next ∧ (m'.sync Y).prev = (m.sync Y).prev ∧
        (m'.sync Y).owner = (m.sync Y).owner ∧ (m'.sync Y).condition = (m.sync Y).condition) ∧
      (m.waitSyncLock = (if (CallSt.wakeup st pc).listLocked then some t else none) →
        m'.waitSyncLock =
          if (pc'.elim CallSt.idle (.wakeup st)).listLocked then some t else none) := by
  cases pc <;> simp only [globalWakeupMtSt, Option.ite_none_right_eq_some, Option.some.injEq,
    Prod.mk.injEq] at h
  case l17 =>
    obtain ⟨-, rfl, rfl, -⟩ := h
    exact ⟨rfl, fun _ => ⟨rfl, rfl, rfl, rfl⟩, fun _ => rfl⟩
  case l24 X upc =>
    obtain ⟨rfl, rfl, -⟩ := h
    obtain ⟨hlist, hlock, hlinks⟩ := waitSyncUpdateSt_frame X 0 st upc (m := m) rfl
    refine ⟨hlist, hlinks, fun hl => hlock.trans (hl.trans ?_)⟩
    cases (waitSyncUpdateSt X 0 st m upc).1 <;> rfl
  case l18 | l18n =>
    obtain ⟨rfl, rfl, -⟩ := h
    refine ⟨rfl, fun _ => ⟨rfl, rfl, rfl, rfl⟩, fun hl => hl.trans ?_⟩
    rw [Option.elim_some, WakeupMtStPc.listLocked_next]
    rfl
  case l25 X =>
    obtain ⟨rfl, rfl, -⟩ := h
    refine ⟨rfl, fun _ => ⟨rfl, rfl, rfl, rfl⟩, fun hl => hl.trans ?_⟩
    by_cases hX : (m.sync X).next = m.waitSyncList <;> simp [hX, CallSt.listLocked]
  case l29 =>
    obtain ⟨rfl, rfl, -⟩ := h
    exact ⟨rfl, fun _ => ⟨rfl, rfl, rfl, rfl⟩, fun _ => rfl⟩

/-- A line of `sync_wait_st` writes the list at lines 68 and 73. -/
theorem SoundSt.wait {pc : WaitStPc} {f : FrameSt} (i : SoundSt t S ⟨.wait S pc, .idle⟩ m)
    (h : syncWaitSt S m pc = some (f, m')) : SoundSt t S ⟨f, .idle⟩ m' := by
  obtain ⟨-, -, list, next, lock, awake⟩ := i
  cases pc <;> simp only [syncWaitSt, Option.ite_none_right_eq_some, Option.some.injEq,
    Prod.mk.injEq] at h
  case l66 | l67 =>
    obtain ⟨-, rfl, rfl⟩ := h
    exact ⟨.inl ⟨_, rfl⟩, by simp, by simp, next, lock, awake⟩
  case l68 =>
    obtain ⟨rfl, rfl⟩ := h
    exact ⟨.inl ⟨_, rfl⟩, by simp, fun _ => rfl, next, lock, awake⟩
  case l70 =>
    obtain ⟨rfl, rfl⟩ := h
    exact ⟨.inl ⟨_, rfl⟩, by simp, fun _ => list (.inl rfl), next, lock, awake⟩
  case l71 =>
    obtain ⟨rfl, rfl⟩ := h
    exact ⟨.inl ⟨_, rfl⟩, by simp, fun _ => list (.inr rfl), next, lock, awake⟩
  case l73 =>
    obtain ⟨rfl, rfl⟩ := h
    exact ⟨.inl ⟨_, rfl⟩, by simp, by simp, next, lock, awake⟩
  case l75 =>
    obtain ⟨rfl, rfl⟩ := h
    exact ⟨.inr ⟨_, rfl⟩, by simp, by simp, next, lock, awake⟩

/-- **One step keeps it.** -/
theorem SoundSt.step (i : SoundSt t S th m) (h : execSt t a th m = some (th', m', e)) :
    SoundSt t S th' m' := by
  have hcall := i
  obtain ⟨frame, calling, list, next, lock, awake⟩ := i
  unfold execSt at h
  split at h
  · obtain ⟨rfl, rfl, -⟩ : _ = th' ∧ _ = m' ∧ _ = e := by simpa using h
    exact ⟨frame, fun _ => by simpa using frame, list, next, lock, awake⟩
  · obtain ⟨rfl, rfl, -⟩ : _ = th' ∧ _ = m' ∧ _ = e := by simpa using h
    exact ⟨frame, fun _ => by simpa using frame, list, next, lock, awake⟩
  · unfold runLineSt at h
    split at h
    · rename_i f X u st pc
      obtain ⟨rfl, rfl, -⟩ : _ = th' ∧ _ = m' ∧ _ = e := by simpa using h
      obtain ⟨hlist, hlock, hlinks⟩ := waitSyncUpdateSt_frame X u st pc (m := m) rfl
      refine ⟨frame, fun _ => calling (by simp), fun hf => hlist.trans (list hf),
        (hlinks S).1.trans next, hlock.trans (lock.trans ?_), (hlinks S).2.2.2.trans awake⟩
      cases (waitSyncUpdateSt X u st m pc).1 <;> rfl
    · obtain ⟨⟨pc', m₁, e₁⟩, hl, hr⟩ := Option.map_eq_some_iff.mp h
      obtain ⟨rfl, rfl, -⟩ : _ = th' ∧ _ = m' ∧ _ = e := by simpa using hr
      obtain ⟨hlist, hlinks, hlock⟩ := globalWakeupMtSt_frame hl
      exact ⟨frame, fun _ => calling (by simp), fun hf => hlist.trans (list hf),
        (hlinks S).1.trans next, hlock lock, (hlinks S).2.2.2.trans awake⟩
    · obtain ⟨⟨f, m₁⟩, hl, hr⟩ := Option.map_eq_some_iff.mp h
      obtain ⟨rfl, rfl, -⟩ : _ = th' ∧ _ = m' ∧ _ = e := by simpa using hr
      obtain ⟨pc, hpc⟩ | ⟨rc, hrc⟩ := frame
      · cases hpc
        exact hcall.wait hl
      · cases hrc
    · cases h
  · cases h

/-- …hence every run of the thread. -/
theorem soundSt_of_path {c : ℤ} {s : StSt} {π : List (Transition Tid ThreadSt Mem Act Event)}
    (hm : m.waitSyncLock = none) (hp : intWaitSyncSt.Path (startSt m t S c) π s)
    (ht : ∀ x ∈ π, x.tid = t) : SoundSt t S (s.loc t) s.mem := by
  refine hp.invariant (fun _ s => SoundSt t S (s.loc t) s.mem) (fun _ t' _ => t' = t) ?_ ht ?_
  · rintro - s _ a th m' e i rfl hexec
    obtain ⟨m₁, hexec₁, rfl⟩ := stored_exec.mp hexec
    have i' := i.step hexec₁
    rw [State.move_loc_self]
    exact ⟨i'.frame, i'.calling, i'.list, i'.next, i'.lock, i'.awake⟩
  · exact ⟨.inl ⟨_, rfl⟩, by simp [startSt], by simp [startSt], by simp [startSt, Mem.waitSyncInit],
      hm, by simp [startSt, Mem.waitSyncInit]⟩

end Sound

/-! ## The walk -/

section Walk

variable {t : Tid} {S : Sid} {st : ℤ} {m m₀ : Mem} {e : Event} {es es' : List Event}
  {s s' s'' : StSt}

/-- The thread executes the lines that show `es`, latest first. -/
def GoesSt (t : Tid) (es : List Event) (s s' : StSt) : Prop :=
  ∃ ρ, intWaitSyncSt.Path s ρ s' ∧ events ρ = es ∧ ∀ x ∈ ρ, (x.tid, x.act) = (t, .run)

theorem GoesSt.append (h : GoesSt t es s s') (h' : GoesSt t es' s' s'') :
    GoesSt t (es' ++ es) s s'' := by
  obtain ⟨ρ, hp, rfl, hρ⟩ := h
  obtain ⟨ρ', hp', rfl, hρ'⟩ := h'
  exact ⟨ρ' ++ ρ, hp.append hp', events_append .., List.forall_mem_append.mpr ⟨hρ', hρ⟩⟩

/-- **Where the walk is**, and that the list is as it was in `m₀`. -/
structure AtSt (t : Tid) (S : Sid) (st : ℤ) (m₀ : Mem) (pc : Option WakeupMtStPc) (s : StSt) :
    Prop where
  loc : s.loc t = ⟨.wait S .l71, pc.elim .idle (.wakeup st)⟩
  same : SameList [S] m₀ s.mem
  awake : (s.mem.sync S).condition = (m₀.sync S).condition

/-- **One line of the walk.** -/
theorem AtSt.line {pc : WakeupMtStPc} {pc' : Option WakeupMtStPc}
    (i : AtSt t S st m₀ (some pc) s) (h : globalWakeupMtSt t st s.mem pc = some (pc', m, e)) :
    ∃ s', GoesSt t [e] s s' ∧ s'.mem = m.ints ∧ AtSt t S st m₀ pc' s' := by
  obtain ⟨hlist, hlinks, -⟩ := globalWakeupMtSt_frame h
  have hstep : SameList [S] s.mem m := ⟨hlist, fun X _ => (hlinks X).1, fun X _ => (hlinks X).2.1,
    fun X _ => (hlinks X).2.2.1⟩
  have hexec : intWaitSyncSt.exec t .run (s.loc t) s.mem =
      some (⟨.wait S .l71, pc'.elim .idle (.wakeup st)⟩, m.ints, e) := by
    rw [i.loc]
    exact stored_exec.mpr ⟨m, Option.map_eq_some_iff.mpr ⟨_, h, rfl⟩, rfl⟩
  exact ⟨s.move t _ m.ints, ⟨_, path_of_exec hexec, rfl, by simp⟩, rfl, State.move_loc_self ..,
    i.same.trans hstep.ints, (hlinks S).2.2.2.trans i.awake⟩

/-- The sync is completed, if the status is an error's. -/
def WokenSt (S : Sid) (st : ℤ) (m : Mem) : Prop :=
  st ≠ SUCCESS → (m.sync S).count = 0 ∧ (m.sync S).status = st

theorem WokenSt.ints (h : WokenSt S st m) : WokenSt S st m.ints := fun hst =>
  ⟨by rw [Mem.sync_ints, (h hst).1, int32_zero], (h hst).2⟩

/-- **To its update**: lines 17, 18 and 110. -/
theorem AtSt.to_update (i : AtSt t S st m₀ (some .l17) s) (hlist : m₀.waitSyncList = some S)
    (hlock : s.mem.waitSyncLock = none) :
    ∃ s', GoesSt t [.tau, .visited S, .tau] s s' ∧
      AtSt t S st m₀ (some (.l24 S (if SUCCESS = st then .l111 else .l116))) s' := by
  obtain ⟨s₁, h₁, -, i₁⟩ := i.line (if_pos hlock)
  have h18 : globalWakeupMtSt t st s₁.mem .l18 =
      some (some (.l24 S .l110), s₁.mem, .visited S) := by
    rw [globalWakeupMtSt, i₁.same.list, hlist]
    rfl
  obtain ⟨s₂, h₂, -, i₂⟩ := i₁.line h18
  obtain ⟨s₃, h₃, -, i₃⟩ := i₂.line rfl
  exact ⟨s₃, (h₁.append h₂).append h₃, i₃⟩

/-- **The update itself**, a line or two of it. -/
theorem AtSt.update (i : AtSt t S st m₀ (some (.l24 S (if SUCCESS = st then .l111 else .l116))) s) :
    ∃ es s', GoesSt t es s s' ∧ es.length ≤ 2 ∧ visits es = [] ∧
      AtSt t S st m₀ (some (.l25 S)) s' ∧ WokenSt S st s'.mem := by
  by_cases hst : SUCCESS = st
  · rw [if_pos hst] at i
    obtain ⟨s₁, h₁, -, i₁⟩ := i.line rfl
    exact ⟨_, s₁, h₁, by simp, rfl, i₁, fun hne => absurd hst.symm hne⟩
  · rw [if_neg hst] at i
    obtain ⟨s₁, h₁, hm₁, i₁⟩ := i.line rfl
    obtain ⟨s₂, h₂, hm₂, i₂⟩ := i₁.line rfl
    refine ⟨_, s₂, h₁.append h₂, by simp, rfl, i₂, ?_⟩
    have hwoken : WokenSt S st (s₁.mem.setCount S 0) := fun _ => by
      simp [Mem.setCount, hm₁, waitSyncUpdateSt, Mem.setStatus]
    exact hm₂ ▸ hwoken.ints

/-- **To its return**: lines 25, 18 and 29, the list having ended. -/
theorem AtSt.to_return (i : AtSt t S st m₀ (some (.l25 S)) s) (hlist : m₀.waitSyncList = some S)
    (hnext : (m₀.sync S).next = none) (hw : WokenSt S st s.mem) :
    ∃ s', GoesSt t [.tau, .tau, .tau] s s' ∧ AtSt t S st m₀ none s' ∧ WokenSt S st s'.mem := by
  have next : ∀ {m}, SameList [S] m₀ m → (m.sync S).next = none := fun h =>
    (h.next S (by simp)).trans hnext
  have h25 : globalWakeupMtSt t st s.mem (.l25 S) = some (some (.l18n S), s.mem, .tau) := by
    rw [globalWakeupMtSt, next i.same, i.same.list, hlist]
    rfl
  obtain ⟨s₁, h₁, hm₁, i₁⟩ := i.line h25
  have h18n : globalWakeupMtSt t st s₁.mem (.l18n S) = some (some .l29, s₁.mem, .tau) := by
    rw [globalWakeupMtSt, next i₁.same]
    rfl
  obtain ⟨s₂, h₂, hm₂, i₂⟩ := i₁.line h18n
  obtain ⟨s₃, h₃, hm₃, i₃⟩ := i₂.line rfl
  refine ⟨s₃, (h₁.append h₂).append h₃, i₃, ?_⟩
  have hw₂ : WokenSt S st s₂.mem.unlockList := hm₂ ▸ (hm₁ ▸ hw.ints : WokenSt S st s₁.mem).ints
  exact hm₃ ▸ hw₂.ints

/-- **What the global wakeup does** to that list from line 17, in `s`, to its return in `s'`. -/
structure SweepsSt (t : Tid) (S : Sid) (st : ℤ) (s : StSt)
    (ρ : List (Transition Tid ThreadSt Mem Act Event)) (s' : StSt) : Prop where
  bounded : ρ.length ≤ 8
  visited : visits (events ρ) = [S]
  returned : s'.loc t = ⟨.wait S .l71, .idle⟩
  /-- The links of the sync and the head are as they were. -/
  same : SameList [S] s.mem s'.mem
  woken : st ≠ SUCCESS → (s'.mem.sync S).count ≤ 0 ∧ (s'.mem.sync S).status = st
  /-- There was nobody to signal. -/
  awake : (s'.mem.sync S).condition = []

/-- **Whenever the thread calls it** from its `progress()`, it runs to its return. -/
theorem SoundSt.sweeps (i : SoundSt t S (s.loc t) s.mem) (hc : (s.loc t).call = .wakeup st .l17) :
    ∃ n s' ρ, intWaitSyncSt.run s [] (List.replicate n (t, .run)) = some (s', ρ) ∧
      SweepsSt t S st s ρ s' := by
  have hf : (s.loc t).frame = .wait S .l71 := i.calling (by simp [hc])
  have hlist := i.list (.inr hf)
  have hlock : s.mem.waitSyncLock = none := by
    rw [i.lock, hc]
    rfl
  have hat : AtSt t S st s.mem (some .l17) s :=
    ⟨by rw [← hf, Option.elim_some, ← hc], .refl _ _, rfl⟩
  obtain ⟨s₁, h₁, i₁⟩ := hat.to_update hlist hlock
  obtain ⟨es, s₂, h₂, hlen, hvisits, i₂, hw₂⟩ := i₁.update
  obtain ⟨s₃, h₃, i₃, hw₃⟩ := i₂.to_return hlist i.next hw₂
  obtain ⟨ρ, hp, hρ, hrun⟩ := (h₁.append h₂).append h₃
  have hschedule : ρ.map (fun x => (x.tid, x.act)) = List.replicate ρ.length (t, .run) :=
    List.eq_replicate_iff.mpr ⟨List.length_map _, List.forall_mem_map.mpr hrun⟩
  have hlines : ρ.length = (events ρ).length := (List.length_map _).symm
  refine ⟨ρ.length, s₃, ρ, ?_, ?_, ?_, i₃.loc, i₃.same, fun hst => ?_, i₃.awake.trans i.awake⟩
  · rw [← hp.run_eq, hschedule, List.reverse_replicate]
  · rw [hlines, hρ]
    simp
    omega
  · rw [hρ]
    simp [visits, visits_append, hvisits]
  · exact ⟨(hw₃ hst).1.le, (hw₃ hst).2⟩

end Walk

end Libult.WaitSync
