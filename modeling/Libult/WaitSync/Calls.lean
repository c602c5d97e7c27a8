import Libult.WaitSync.OnQthreads

/-!
# WaitSync/Calls — a call of the backend is a line of the module

What a line does that calls nothing does not depend on locks and sleepers, so it can be done whoever
they are (`exec_backed`).  What a line does that calls the backend is what the operation does to the
monitor of its sync, and it can be taken where the monitor takes the operation
(`Calls.exec_backed`, `exec_sleep`, `exec_awake`).
-/

namespace Libult.WaitSync

open Interleaving Program Qthreads

/-! ## The module does not look at locks and sleepers by itself -/

/-- The locks and the sleepers of the syncs, as the monitors have them. -/
def Mem.backed (M : Sid → Monitor) (m : Mem) : Mem :=
  { m with
    sync := fun S => { m.sync S with lock := (M S).mutex S, condition := (M S).asleep } }

section Lines

variable {M M' : Sid → Monitor} {m m' : Mem} {max : ℤ} {t : Tid} {S X : Sid} {e : Event}

@[simp] theorem Mem.sync_backed : (m.backed M).sync S =
    { m.sync S with lock := (M S).mutex S, condition := (M S).asleep } := rfl

@[simp] theorem Mem.waitSyncLock_backed : (m.backed M).waitSyncLock = m.waitSyncLock := rfl

@[simp] theorem Mem.waitSyncList_backed : (m.backed M).waitSyncList = m.waitSyncList := rfl

@[simp] theorem Mem.numThreadInProgress_backed :
    (m.backed M).numThreadInProgress = m.numThreadInProgress := rfl

/-- What leaves locks and sleepers alone is done to both memories alike. -/
theorem Mem.backed_modify {f : Sync → Sync}
    (hf : ∀ s l c, f { s with lock := l, condition := c } =
      { f s with lock := l, condition := c }) :
    (m.modify X f).backed M = (m.backed M).modify X f := by
  refine congrArg (Mem.mk · _ _ _) (funext fun S => ?_)
  by_cases h : S = X
  · subst h
    simpa only [modify, sync_backed, Function.update_self] using (hf ..).symm
  · simp [modify, h]

/-- **The lines of an update** that call nothing. -/
theorem waitSyncUpdate_backed {u st : ℤ} {pc : UpdatePc} {pc' : Option UpdatePc}
    (hp : pc.prim = none) (h : waitSyncUpdate t X u st m pc = some (pc', m', e)) :
    waitSyncUpdate t X u st (m.backed M) pc = some (pc', m'.backed M, e) := by
  cases pc <;> simp only [waitSyncUpdate, Option.some.injEq, Prod.mk.injEq] at h
  case l52 | l53 | l54 => cases hp
  case l110 => obtain ⟨rfl, rfl, rfl⟩ := h; rfl
  all_goals
    obtain ⟨rfl, rfl, rfl⟩ := h
    exact congrArg some (congrArg₂ Prod.mk rfl
      (congrArg₂ Prod.mk (Mem.backed_modify fun _ _ _ => rfl).symm rfl))

/-- …of the global wakeup… -/
theorem globalWakeupMt_backed {st : ℤ} {pc : WakeupPc} {pc' : Option WakeupPc}
    (hp : ∀ S upc, pc = .l24 S upc → upc.prim = none)
    (h : globalWakeupMt t st m pc = some (pc', m', e)) :
    globalWakeupMt t st (m.backed M) pc = some (pc', m'.backed M, e) := by
  cases pc with
  | l24 S upc =>
    obtain ⟨⟨upc', m₁, e₁⟩, hu, hr⟩ := Option.map_eq_some_iff.mp h
    obtain ⟨rfl, rfl, rfl⟩ : _ = pc' ∧ _ = m' ∧ _ = e := by simpa using hr
    exact Option.map_eq_some_iff.mpr ⟨_, waitSyncUpdate_backed (hp S upc rfl) hu, rfl⟩
  | l17 =>
    simp only [globalWakeupMt, Option.ite_none_right_eq_some, Option.some.injEq,
      Prod.mk.injEq] at h
    obtain ⟨hf, rfl, rfl, rfl⟩ := h
    exact if_pos hf
  | _ =>
    simp only [globalWakeupMt, Option.some.injEq, Prod.mk.injEq] at h
    obtain ⟨rfl, rfl, rfl⟩ := h
    rfl

/-- …and of the wait. -/
theorem ompiSyncWaitMt_backed {pc : WaitPc} {f : Frame} (hp : pc.prim X m.waitSyncList = none)
    (hw : pc ≠ .l83w) (h : ompiSyncWaitMt max t X m pc = some (f, m', e)) :
    ompiSyncWaitMt max t X (m.backed M) pc = some (f, m'.backed M, e) ∧
      ∀ S, f ≠ .wait S .l83w := by
  cases pc <;> simp only [ompiSyncWaitMt, Option.ite_none_right_eq_some, Option.some.injEq,
    Option.map_eq_some_iff, Option.bind_eq_some_iff, Prod.mk.injEq] at h
  case l52 | l58 | l83 | l92 | l98 => cases hp
  case l83w => exact absurd rfl hw
  case l36 | l37 | l38 =>
    obtain ⟨Y, hY, -⟩ := h
    rw [hY] at hp
    cases hp
  case l63 | l109 =>
    obtain ⟨hf, rfl, rfl, rfl⟩ := h
    exact ⟨if_pos hf, by simp⟩
  case l65 | l65n | l70 =>
    obtain ⟨rfl, rfl, rfl⟩ := h
    exact ⟨congrArg some (congrArg₂ Prod.mk rfl
      (congrArg₂ Prod.mk (Mem.backed_modify fun _ _ _ => rfl).symm rfl)), by simp⟩
  case l68 | l69 | l71 | l110 | l111 =>
    obtain ⟨Y, hY, rfl, rfl, rfl⟩ := h
    refine ⟨Option.map_eq_some_iff.mpr ⟨Y, hY, ?_⟩, by simp⟩
    exact congrArg₂ Prod.mk rfl
      (congrArg₂ Prod.mk (Mem.backed_modify fun _ _ _ => rfl).symm rfl)
  all_goals
    obtain ⟨rfl, rfl, rfl⟩ := h
    refine ⟨rfl, fun S hS => ?_⟩
    first
    | cases hS
    | obtain ⟨-, hS⟩ := Frame.wait.injEq .. ▸ hS
      split at hS <;> cases hS

/-- The release calls nothing that it looks at. -/
theorem waitSyncRelease_backed {pc : ReleasePc} {f : Frame}
    (h : waitSyncRelease X m pc = (f, m', e)) :
    waitSyncRelease X (m.backed M) pc = (f, m'.backed M, e) ∧ ∀ S, f ≠ .wait S .l83w := by
  cases pc <;>
  · obtain ⟨rfl, rfl, rfl⟩ := Prod.mk.injEq .. ▸ h
    exact ⟨rfl, fun S hS => by cases hS⟩

/-- **What a thread does by itself** it does whatever the locks and the sleepers are. -/
theorem exec_backed {a : Act} {th th' : Thread} (hs : a ≠ .spurious)
    (hp : a = .run → th.prim m.waitSyncList = none) (hw : ∀ S, th.frame ≠ .wait S .l83w)
    (hi : ∀ S c, a = .init S c → (M S).mutex S = none ∧ (M S).asleep = [])
    (h : exec max t a th m = some (th', m', e)) :
    exec max t a th (m.backed M) = some (th', m'.backed M, e) ∧
      ∀ S, th'.frame ≠ .wait S .l83w := by
  have hm := moves_of_exec h
  cases hm with
  | @init _ S c ho =>
    obtain ⟨hmu, has⟩ := hi S c rfl
    refine ⟨(if_pos ⟨rfl, ho⟩).trans ?_, by simp⟩
    refine congrArg some (congrArg₂ Prod.mk rfl (congrArg₂ Prod.mk ?_ rfl))
    refine congrArg (Mem.mk · _ _ _) (funext fun X => ?_)
    by_cases hX : X = S
    · subst hX
      simp [Mem.waitSyncInit, hmu, has]
    · simp [Mem.waitSyncInit, hX]
  | callWait | callRelease => exact ⟨rfl, by simp⟩
  | callUpdate hf ho => exact ⟨if_pos ⟨rfl, hf, ho⟩, hw⟩
  | callWakeup hf => exact ⟨if_pos ⟨rfl, hf⟩, hw⟩
  | spurious => exact absurd rfl hs
  | update hl =>
    have hpc := Option.map_eq_none_iff.mp (hp rfl)
    exact ⟨Option.map_eq_some_iff.mpr ⟨_, waitSyncUpdate_backed hpc hl, rfl⟩, hw⟩
  | wakeup hl =>
    refine ⟨Option.map_eq_some_iff.mpr ⟨_, globalWakeupMt_backed (fun S upc hpc => ?_) hl, rfl⟩, hw⟩
    subst hpc
    exact Option.map_eq_none_iff.mp (hp rfl)
  | @wait _ _ f X pc _ hl =>
    obtain ⟨hl', hf⟩ := ompiSyncWaitMt_backed (M := M) (Option.map_eq_none_iff.mp (hp rfl))
      (fun hpc => hw X (hpc ▸ rfl)) hl
    exact ⟨Option.map_eq_some_iff.mpr ⟨_, hl', rfl⟩, hf⟩
  | release hl =>
    obtain ⟨hl', hf⟩ := waitSyncRelease_backed (M := M) hl
    exact ⟨congrArg some (by rw [hl']), hf⟩

/-! ## A call that takes effect is the line of the module -/

/-- **The lines that call the backend.** -/
inductive Calls (head : Option Sid) (S : Sid) : Prim → Thread → Thread → Prop
  | update {p : Prim} {f : Frame} {u st : ℤ} {pc pc' : UpdatePc} : pc.prim = some (p, pc') →
      Calls head S p ⟨f, .update S u st pc⟩ ⟨f, .update S u st pc'⟩
  | wakeup {p : Prim} {f : Frame} {st : ℤ} {pc pc' : UpdatePc} : pc.prim = some (p, pc') →
      Calls head S p ⟨f, .wakeup st (.l24 S pc)⟩ ⟨f, .wakeup st (.l24 S pc')⟩
  | wait {p : Prim} {X : Sid} {pc pc' : WaitPc} : pc.prim X head = some (p, S, pc') →
      Calls head S p ⟨.wait X pc, .idle⟩ ⟨.wait X pc', .idle⟩

theorem calls_of_prim {head : Option Sid} {p : Prim} {th next : Thread}
    (h : th.prim head = some (p, S, next)) : Calls head S p th next := by
  unfold Thread.prim at h
  split at h <;> simp only [Option.map_eq_some_iff, Prod.mk.injEq, Prod.exists,
    reduceCtorEq] at h
  · obtain ⟨p, pc', hpc, rfl, rfl, rfl⟩ := h
    exact .update hpc
  · obtain ⟨p, pc', hpc, rfl, rfl, rfl⟩ := h
    exact .wakeup hpc
  · obtain ⟨p, X, pc', hpc, rfl, rfl, rfl⟩ := h
    exact .wait hpc

section Calls

variable {head : Option Sid} {th next : Thread}

/-- What a call on `S` comes to, once its mutex is as the call needs it. -/
def Prim.effect (t : Tid) (S : Sid) (m : Mem) : Prim → Mem
  | .lock => m.lock S t
  | .unlock => m.unlock S
  | .wait => m.sleep S t
  | .signal => m.signal S

/-- **A line that calls the backend**, in the module by itself. -/
theorem Calls.exec_eq {p : Prim} (h : Calls m.waitSyncList S p th next) (hw : p ≠ .wait)
    (hf : p = .lock → (m.sync S).lock = none) :
    exec max t .run th m = some (next, p.effect t S m, th.shows) := by
  cases h with
  | @update f u st pc pc' hpc =>
    refine Option.map_eq_some_iff.mpr ⟨(some pc', p.effect t S m, pc.shows S), ?_, rfl⟩
    cases pc with
    | l52 => cases hpc; exact if_pos (hf rfl)
    | l53 | l54 => cases hpc; rfl
    | _ => cases hpc
  | @wakeup f st pc pc' hpc =>
    refine Option.map_eq_some_iff.mpr ⟨(some (.l24 S pc'), p.effect t S m, pc.shows S), ?_, rfl⟩
    cases pc with
    | l52 =>
      cases hpc
      exact Option.map_eq_some_iff.mpr ⟨(some .l53, _, _), if_pos (hf rfl), rfl⟩
    | l53 | l54 => cases hpc; rfl
    | _ => cases hpc
  | @wait X pc pc' hpc =>
    refine Option.map_eq_some_iff.mpr ⟨(.wait X pc', p.effect t S m, .tau), ?_, rfl⟩
    cases pc <;> simp only [WaitPc.prim, Option.some.injEq, Option.map_eq_some_iff, Prod.mk.injEq,
      reduceCtorEq] at hpc
    case l52 => obtain ⟨rfl, rfl, rfl⟩ := hpc; exact if_pos (hf rfl)
    case l83 => exact absurd hpc.1.symm hw
    case l58 | l92 | l98 => obtain ⟨rfl, rfl, rfl⟩ := hpc; rfl
    case l36 =>
      obtain ⟨_, hY, rfl, rfl, rfl⟩ := hpc
      exact Option.bind_eq_some_iff.mpr ⟨_, hY, if_pos (hf rfl)⟩
    case l37 | l38 =>
      obtain ⟨_, hY, rfl, rfl, rfl⟩ := hpc
      exact Option.map_eq_some_iff.mpr ⟨_, hY, rfl⟩

/-- The wait calls its sleep from line 83. -/
theorem Calls.wait_eq (h : Calls head S .wait th next) :
    th = ⟨.wait S .l83, .idle⟩ ∧ next = ⟨.wait S .l91, .idle⟩ := by
  cases h with
  | @update _ _ _ pc _ hpc | @wakeup _ _ pc _ hpc => cases pc <;> cases hpc
  | @wait X pc pc' hpc =>
    cases pc <;> simp only [WaitPc.prim, Option.some.injEq, Option.map_eq_some_iff, Prod.mk.injEq,
      reduceCtorEq, false_and, and_false, exists_false] at hpc
    obtain ⟨-, rfl, rfl⟩ := hpc
    exact ⟨rfl, rfl⟩

/-- Only the lines that pass the ownership on look at the head. -/
theorem prim_congr {head' : Option Sid} (h : th.listLocked = true → head' = head) :
    th.prim head' = th.prim head := by
  obtain ⟨f, c⟩ := th
  cases c with
  | idle =>
    cases f with
    | wait X pc =>
      by_cases hpc : pc.listLocked = true
      · rw [h (by simp [Thread.listLocked, Frame.listLocked, hpc])]
      · cases pc <;> first | rfl | exact absurd rfl hpc
    | _ => rfl
  | update => rfl
  | wakeup _ pc => cases pc <;> rfl

/-- After a call the thread is not asleep. -/
theorem Calls.awake {p : Prim} (h : Calls head S p th next) (hw : ∀ Y, th.frame ≠ .wait Y .l83w) :
    ∀ Y, next.frame ≠ .wait Y .l83w := by
  cases h with
  | update => exact hw
  | wakeup => exact hw
  | @wait X pc pc' hpc =>
    cases pc <;> simp only [WaitPc.prim, Option.some.injEq, Option.map_eq_some_iff, Prod.mk.injEq,
      reduceCtorEq] at hpc
    case l36 | l37 | l38 => obtain ⟨_, -, -, -, rfl⟩ := hpc; simp
    all_goals obtain ⟨-, -, rfl⟩ := hpc; simp

/-- Whoever unlocks a sync or goes to wait with it holds it. -/
theorem Calls.holds {p : Prim} (h : Calls head S p th next) (hp : p = .unlock ∨ p = .wait) :
    th.holds head S := by
  cases h with
  | @update _ _ _ pc _ hpc | @wakeup _ _ pc _ hpc =>
    refine .inr ?_
    cases pc <;> cases hpc <;> first | exact ⟨rfl, rfl⟩ | simp at hp
  | @wait X pc pc' hpc =>
    refine .inl ?_
    cases pc <;> simp only [WaitPc.prim, Option.some.injEq, Option.map_eq_some_iff, Prod.mk.injEq,
      reduceCtorEq] at hpc
    case l36 | l37 => obtain ⟨_, -, rfl, -⟩ := hpc; simp at hp
    case l38 => obtain ⟨_, hY, -, rfl, -⟩ := hpc; exact .inr ⟨rfl, hY⟩
    case l52 => obtain ⟨rfl, -⟩ := hpc; simp at hp
    all_goals obtain ⟨-, rfl, -⟩ := hpc; exact .inl ⟨rfl, rfl⟩

/-- What is called on has been initialised. -/
theorem Calls.owned {p : Prim} (h : Calls m.waitSyncList S p th next) (hh : Held t th m)
    (hn : Named m) : (m.sync S).owner ≠ none := by
  cases h with
  | update => exact hh.target S rfl
  | wakeup => exact hh.target S rfl
  | @wait X pc pc' hpc =>
    cases pc <;> simp only [WaitPc.prim, Option.some.injEq, Option.map_eq_some_iff, Prod.mk.injEq,
      reduceCtorEq] at hpc
    case l36 | l37 | l38 =>
      obtain ⟨_, hY, -, rfl, -⟩ := hpc
      exact hn.list _ hY
    all_goals
      obtain ⟨-, rfl, -⟩ := hpc
      simp [hh.own _ rfl]

/-- A call leaves the list lock alone. -/
theorem Calls.listLocked {p : Prim} (h : Calls head S p th next) :
    next.listLocked = th.listLocked := by
  cases h with
  | @update f u st pc pc' hpc => rfl
  | @wakeup f st pc pc' hpc => rfl
  | @wait X pc pc' hpc =>
    cases pc <;> simp only [WaitPc.prim, Option.some.injEq, Option.map_eq_some_iff, Prod.mk.injEq,
      reduceCtorEq] at hpc
    case l36 | l37 | l38 => obtain ⟨_, -, -, -, rfl⟩ := hpc; rfl
    all_goals obtain ⟨-, -, rfl⟩ := hpc; rfl

end Calls

/-- …and what it comes to in the monitor of `S`. -/
def Prim.monitor (t : Tid) (S : Sid) (N : Monitor) : Prim → Monitor
  | .lock => N.acquire t S
  | .unlock => N.release S
  | .wait => N.sleep t S
  | .signal => N.signal

theorem Mem.backed_effect (p : Prim) :
    m.backed (Function.update M S (p.monitor t S (M S))) = p.effect t S (m.backed M) := by
  cases p <;>
  · refine congrArg (Mem.mk · _ _ _) (funext fun X => ?_)
    by_cases h : X = S
    · subst h
      simp [Prim.monitor, Monitor.acquire, Monitor.release, Monitor.sleep, Monitor.signal]
    · simp [h]

/-- The operation of the monitor that a call is. -/
def Prim.op (S : Sid) : Prim → Op
  | .lock => .lock S
  | .unlock => .unlock S
  | .wait => .wait S
  | .signal => .signal

theorem Prim.monitor_of_exec {p : Prim} {c : Client} {N N' : Monitor}
    (h : Monitor.exec t (p.op S) .outside N = some (c, N', ())) :
    N' = p.monitor t S N ∧ (p = .lock → N.mutex S = none) := by
  cases p <;> simp only [op, Monitor.exec, Option.ite_none_right_eq_some, Option.some.injEq,
    Prod.mk.injEq] at h
  case signal => obtain ⟨-, rfl, -⟩ := h; exact ⟨rfl, nofun⟩
  case lock => obtain ⟨hf, -, rfl, -⟩ := h; exact ⟨rfl, fun _ => hf⟩
  all_goals obtain ⟨-, -, rfl, -⟩ := h; exact ⟨rfl, nofun⟩

/-- **Where the monitor lets a call take effect**, the module takes its line… -/
theorem Calls.exec_backed {p : Prim} {th next : Thread} {c : Client} {N : Monitor}
    (h : Calls m.waitSyncList S p th next) (hw : p ≠ .wait)
    (hN : Monitor.exec t (p.op S) .outside (M S) = some (c, N, ())) :
    exec max t .run th (m.backed M) =
      some (next, m.backed (Function.update M S N), th.shows) := by
  obtain ⟨rfl, hf⟩ := Prim.monitor_of_exec hN
  rw [Mem.backed_effect]
  exact Calls.exec_eq (m := m.backed M) h hw hf

/-- …goes to sleep… -/
theorem exec_sleep {c : Client} {N : Monitor}
    (hN : Monitor.exec t (.wait S) .outside (M S) = some (c, N, ())) :
    exec max t .run ⟨.wait S .l83, .idle⟩ (m.backed M) =
      some (⟨.wait S .l83w, .idle⟩, m.backed (Function.update M S N), .tau) := by
  obtain ⟨rfl, -⟩ := Prim.monitor_of_exec (p := .wait) hN
  rw [Mem.backed_effect]
  rfl

/-- …and comes back. -/
theorem exec_awake {c : Client} {N : Monitor}
    (hN : Monitor.exec t .back (.waiting S) (M S) = some (c, N, ())) :
    exec max t .run ⟨.wait S .l83w, .idle⟩ (m.backed M) =
      some (⟨.wait S .l91, .idle⟩, m.backed (Function.update M S N), .tau) := by
  simp only [Monitor.exec, Option.ite_none_right_eq_some, Option.some.injEq, Prod.mk.injEq] at hN
  obtain ⟨hf, -, rfl, -⟩ := hN
  have heff : m.backed (Function.update M S ((M S).acquire t S)) = (m.backed M).lock S t :=
    Mem.backed_effect .lock
  rw [heff]
  exact Option.map_eq_some_iff.mpr ⟨(.wait S .l91, _, _), if_pos hf, rfl⟩

end Lines

end Libult.WaitSync
