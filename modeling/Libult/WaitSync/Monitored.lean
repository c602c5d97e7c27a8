import Libult.Qthreads.Monitor
import Libult.WaitSync.Pending

/-!
# WaitSync/Monitored — the locks and conditions of the syncs are used as a monitor allows

The wait-sync code sees a sync's lock and condition through four calls, and keeps to what a monitor
asks of its clients: whoever unlocks holds the lock, whoever waits holds the lock of the very sync,
and nobody takes a lock twice.  So its runs, read at those calls, are runs of the monitor of any one
of its conditions — as are those of the backend that implements it — as long as no sleeper wakes by
itself, which the monitor's never do.

    l52, l36   lock        l83    wait          l53, l37   signal
    l58, …, l54     unlock      l83w   back
-/

namespace Libult.WaitSync

open Interleaving Program Qthreads

/-- The condition of `S`, and all the locks, as the monitor's. -/
def Mem.monitor (S : Sid) (m : Mem) : Monitor := ⟨fun X => (m.sync X).lock, (m.sync S).condition⟩

/-- A thread waits in the monitor while it is in the sleep of line 83. -/
def Frame.client (S : Sid) : Frame → Client
  | .wait X .l83w => if X = S then .waiting S else .outside
  | _ => .outside

/-- **The view of the monitor of `S`.** -/
def monitorOf (S : Sid) (s : St) : State Tid Client Monitor :=
  ⟨fun t => (s.loc t).frame.client S, s.mem.monitor S⟩

/-- What a line of an update does in the monitor of `S`. -/
def UpdatePc.op (S X : Sid) : UpdatePc → Option Op
  | .l52 => some (.lock X)
  | .l53 => if X = S then some .signal else none
  | .l54 => some (.unlock X)
  | _ => none

/-- What a line of the wait on `X` does there. -/
def WaitPc.op (S X : Sid) (head : Option Sid) : WaitPc → Option Op
  | .l52 => some (.lock X)
  | .l58 | .l92 | .l98 => some (.unlock X)
  | .l83 => some (if X = S then .wait S else .unlock X)
  | .l83w => some (if X = S then .back else .lock X)
  | .l36 => head.map .lock
  | .l37 => if head = some S then some .signal else none
  | .l38 => head.map .unlock
  | _ => none

/-- **The points** of a run in the monitor of `S`. -/
def monitorPoint (S : Sid) (s : St) (t : Tid) (a : Act) : Option Op :=
  match a, (s.loc t).call, (s.loc t).frame with
  | .run, .update X _ _ pc, _ | .run, .wakeup _ (.l24 X pc), _ => pc.op S X
  | .run, .idle, .wait X pc => pc.op S X s.mem.waitSyncList
  | _, _, _ => none

/-- No sleeper wakes by itself. -/
def Unspurious (_ : St) (_ : Tid) (a : Act) : Prop := a ≠ .spurious

instance (s : St) (t : Tid) (a : Act) : Decidable (Unspurious s t a) :=
  inferInstanceAs (Decidable (a ≠ .spurious))

/-! ## What the accesses do to the monitor -/

section Access

variable {S X : Sid} {m : Mem} {t : Tid}

theorem Mem.monitor_modify {f : Sync → Sync} (hl : (f (m.sync X)).lock = (m.sync X).lock)
    (hc : (f (m.sync X)).condition = (m.sync X).condition) :
    (m.modify X f).monitor S = m.monitor S := by
  refine congrArg₂ Monitor.mk (funext fun Y => ?_) ?_
  · by_cases hY : Y = X <;> simp [hY, hl]
  · by_cases hX : S = X <;> simp [hX, hc]

theorem Mem.monitor_lock : (m.lock X t).monitor S = (m.monitor S).acquire t X := by
  refine congrArg₂ Monitor.mk (funext fun Y => ?_) ?_
  · by_cases hY : Y = X <;> simp [Mem.lock, Mem.monitor, hY]
  · by_cases hX : S = X <;> simp [Mem.lock, Mem.monitor, hX]

theorem Mem.monitor_unlock : (m.unlock X).monitor S = (m.monitor S).release X := by
  refine congrArg₂ Monitor.mk (funext fun Y => ?_) ?_
  · by_cases hY : Y = X <;> simp [Mem.unlock, Mem.monitor, hY]
  · by_cases hX : S = X <;> simp [Mem.unlock, Mem.monitor, hX]

theorem Mem.monitor_sleep : (m.sleep X t).monitor S =
    if X = S then (m.monitor S).sleep t S else (m.monitor S).release X := by
  split
  · subst ‹X = S›
    refine congrArg₂ Monitor.mk (funext fun Y => ?_) ?_
    · by_cases hY : Y = X <;> simp [Mem.sleep, Mem.monitor, hY]
    · simp [Mem.sleep, Mem.monitor]
  · have hX : S ≠ X := Ne.symm ‹_›
    refine congrArg₂ Monitor.mk (funext fun Y => ?_) ?_
    · by_cases hY : Y = X <;> simp [Mem.sleep, Mem.monitor, hY]
    · simp [Mem.sleep, Mem.monitor, hX]

theorem Mem.monitor_signal : (m.signal X).monitor S =
    if X = S then (m.monitor S).signal else m.monitor S := by
  split
  · subst ‹X = S›
    refine congrArg₂ Monitor.mk (funext fun Y => ?_) ?_
    · by_cases hY : Y = X <;> simp [Mem.signal, Mem.monitor, hY]
    · simp [Mem.signal, Mem.monitor]
  · have hX : S ≠ X := Ne.symm ‹_›
    refine congrArg₂ Monitor.mk (funext fun Y => ?_) ?_
    · by_cases hY : Y = X <;> simp [Mem.signal, hY]
    · simp [Mem.signal, hX]

end Access

/-! ## One line is one operation, or none -/

/-- What a step is to the monitor: the operation `b`, or nothing at all. -/
def Takes (t : Tid) (b : Option Op) (c c' : Client) (M M' : Monitor) : Prop :=
  b.elim (c' = c ∧ M' = M) fun b => Monitor.exec t b c M = some (c', M', ())

/-- Nobody sleeps in a condition that has not been initialised. -/
def Vacant (m : Mem) : Prop := ∀ S, (m.sync S).owner = none → (m.sync S).condition = []

section Lines

variable {max : ℤ} {t : Tid} {a : Act} {th th' : Thread} {m m' : Mem} {e : Event} {S X : Sid}

/-- An operation of a client outside. -/
theorem Takes.outside {b : Op} {M M' : Monitor}
    (h : Monitor.exec t b .outside M = some (.outside, M', ())) :
    Takes t (some b) .outside .outside M M' := h

/-- Only a wait adds a sleeper. -/
theorem Takes.asleep_nil {b : Option Op} {c c' : Client} {M M' : Monitor}
    (h : Takes t b c c' M M') (hb : ∀ mu, b ≠ some (.wait mu)) (hM : M.asleep = []) :
    M'.asleep = [] := by
  cases b with
  | none => exact h.2 ▸ hM
  | some b =>
    change Monitor.exec t b c M = _ at h
    unfold Monitor.exec at h
    split at h <;> simp only [Option.ite_none_right_eq_some, Option.some.injEq, Prod.mk.injEq,
      reduceCtorEq] at h
    case h_3 mu => exact absurd rfl (hb mu)
    case h_4 => obtain ⟨-, rfl, -⟩ := h; simp [Monitor.signal, hM]
    case h_5 => obtain ⟨-, rfl, -⟩ := h; rfl
    all_goals obtain ⟨-, -, rfl, -⟩ := h; exact hM

/-- Locking a free sync. -/
theorem takes_lock (hf : (m.sync X).lock = none) :
    Takes t (some (.lock X)) .outside .outside (m.monitor S) ((m.lock X t).monitor S) := by
  rw [Mem.monitor_lock]
  exact .outside (if_pos hf)

/-- Unlocking the sync one holds. -/
theorem takes_unlock (hl : (m.sync X).lock = some t) :
    Takes t (some (.unlock X)) .outside .outside (m.monitor S) ((m.unlock X).monitor S) := by
  rw [Mem.monitor_unlock]
  exact .outside (if_pos hl)

/-- Signalling a sync is seen by its own monitor. -/
theorem takes_signal : Takes t (if X = S then some .signal else none) .outside .outside
    (m.monitor S) ((m.signal X).monitor S) := by
  rw [Mem.monitor_signal]
  split
  · exact .outside rfl
  · exact ⟨rfl, rfl⟩

/-- Nobody calls from its sleep. -/
theorem Frame.client_of_mayCall {f : Frame} (hf : f.mayCall = true) : f.client S = .outside := by
  cases f with
  | wait X pc =>
    obtain rfl := eq_of_mayCall hf
    rfl
  | _ => rfl

/-- **A line of an update.** -/
theorem waitSyncUpdate_takes {u st : ℤ} {pc : UpdatePc} {pc' : Option UpdatePc}
    (hl : pc.locked = true → (m.sync X).lock = some t)
    (h : waitSyncUpdate t X u st m pc = some (pc', m', e)) :
    Takes t (pc.op S X) .outside .outside (m.monitor S) (m'.monitor S) := by
  cases pc <;> simp only [waitSyncUpdate, Option.ite_none_right_eq_some, Option.some.injEq,
    Prod.mk.injEq] at h
  case l52 => obtain ⟨hf, -, rfl, -⟩ := h; exact takes_lock hf
  case l53 => obtain ⟨-, rfl, -⟩ := h; exact takes_signal
  case l54 => obtain ⟨-, rfl, -⟩ := h; exact takes_unlock (hl rfl)
  case l110 => obtain ⟨-, rfl, -⟩ := h; exact ⟨rfl, rfl⟩
  all_goals obtain ⟨-, rfl, -⟩ := h; exact ⟨rfl, Mem.monitor_modify rfl rfl⟩

/-- **A line of the wait.** -/
theorem ompiSyncWaitMt_takes {pc : WaitPc} {f : Frame} (hh : HeldAt t X m pc)
    (h : ompiSyncWaitMt max t X m pc = some (f, m', e)) :
    Takes t (pc.op S X m.waitSyncList) ((Frame.wait X pc).client S) (f.client S)
      (m.monitor S) (m'.monitor S) := by
  have own := (hh.lock X).mpr
  cases pc <;> simp only [ompiSyncWaitMt, Option.ite_none_right_eq_some, Option.some.injEq,
    Option.map_eq_some_iff, Option.bind_eq_some_iff, Prod.mk.injEq] at h
  case l52 => obtain ⟨hf, rfl, rfl, -⟩ := h; exact takes_lock hf
  case l58 | l92 | l98 =>
    obtain ⟨rfl, rfl, -⟩ := h
    exact takes_unlock (own (.inl ⟨rfl, rfl⟩))
  case l83 =>
    obtain ⟨rfl, rfl, -⟩ := h
    have hl : (m.sync X).lock = some t := own (.inl ⟨rfl, rfl⟩)
    rw [Mem.monitor_sleep]
    by_cases hX : X = S
    · subst hX
      simp only [WaitPc.op, Frame.client, if_true]
      exact if_pos hl
    · simp only [WaitPc.op, Frame.client, if_neg hX]
      exact if_pos hl
  case l83w =>
    obtain ⟨hf, rfl, rfl, -⟩ := h
    rw [Mem.monitor_lock]
    by_cases hX : X = S
    · subst hX
      simp only [WaitPc.op, Frame.client, if_true]
      exact if_pos hf
    · simp only [WaitPc.op, Frame.client, if_neg hX]
      exact if_pos hf.2
  case l36 =>
    obtain ⟨Y, hY, hf, rfl, rfl, -⟩ := h
    rw [hY]
    exact takes_lock hf
  case l37 =>
    obtain ⟨Y, hY, rfl, rfl, -⟩ := h
    simp only [WaitPc.op, hY, Option.some.injEq]
    exact takes_signal
  case l38 =>
    obtain ⟨Y, hY, rfl, rfl, -⟩ := h
    rw [hY]
    exact takes_unlock ((hh.lock Y).mpr (.inr ⟨rfl, hY⟩))
  case l65 | l65n | l70 => obtain ⟨rfl, rfl, -⟩ := h; exact ⟨rfl, Mem.monitor_modify rfl rfl⟩
  case l68 | l69 | l71 | l110 | l111 =>
    obtain ⟨_, -, rfl, rfl, -⟩ := h
    exact ⟨rfl, Mem.monitor_modify rfl rfl⟩
  case l63 | l109 => obtain ⟨-, rfl, rfl, -⟩ := h; exact ⟨rfl, rfl⟩
  all_goals
    obtain ⟨rfl, rfl, -⟩ := h
    refine ⟨?_, rfl⟩
    first
    | rfl
    | split <;> rfl

/-- **One step of a thread.** -/
theorem moves_takes {s : St} (hs : Locked s) (hv : Vacant s.mem) (ha : Unspurious s t a)
    (hm : Moves max t a (s.loc t) s.mem th m e) : Takes t (monitorPoint S s t a)
      ((s.loc t).frame.client S) (th.frame.client S) (s.mem.monitor S) (m.monitor S) := by
  have hh := hs.held t
  unfold monitorPoint
  generalize s.loc t = th₀ at hm hh
  cases hm with
  | @init _ X c ho =>
    -- fresh storage: nobody holds its lock, nobody sleeps in it
    have hl : (s.mem.sync X).lock = none := by
      by_contra hl
      exact hs.owner_of_lock X hl ho
    exact ⟨rfl, Mem.monitor_modify hl.symm (hv X ho).symm⟩
  | callWait | callRelease | callUpdate | callWakeup => exact ⟨rfl, rfl⟩
  | spurious => exact absurd rfl ha
  | @update _ _ f X u st pc pc' _ h =>
    rw [Frame.client_of_mayCall (hh.nested (by simp))]
    exact waitSyncUpdate_takes (fun hl => (hh.lock X).mpr (.inr ⟨hl, rfl⟩)) h
  | @wakeup _ _ f st pc pc' _ h =>
    rw [Frame.client_of_mayCall (hh.nested (by simp))]
    cases pc with
    | l24 X upc =>
      obtain ⟨⟨upc', m₁, e₁⟩, hu, hr⟩ := Option.map_eq_some_iff.mp h
      obtain ⟨-, rfl, -⟩ : _ = pc' ∧ _ = m ∧ _ = e := by simpa using hr
      exact waitSyncUpdate_takes (fun hl => (hh.lock X).mpr (.inr ⟨hl, rfl⟩)) hu
    | l17 =>
      simp only [globalWakeupMt, Option.ite_none_right_eq_some, Option.some.injEq,
        Prod.mk.injEq] at h
      obtain ⟨-, -, rfl, -⟩ := h
      exact ⟨rfl, rfl⟩
    | _ =>
      simp only [globalWakeupMt, Option.some.injEq, Prod.mk.injEq] at h
      obtain ⟨-, rfl, -⟩ := h
      exact ⟨rfl, rfl⟩
  | wait h => exact ompiSyncWaitMt_takes (heldAt_iff.mpr hh) h
  | @release _ _ f X pc _ h =>
    cases pc <;>
    · obtain ⟨rfl, rfl, -⟩ := Prod.mk.injEq .. ▸ h
      exact ⟨rfl, rfl⟩

theorem UpdatePc.op_ne_wait (pc : UpdatePc) {mu : Mid} : pc.op S X ≠ some (.wait mu) := by
  cases pc <;> simp [op]

theorem WaitPc.op_eq_wait {pc : WaitPc} {head : Option Sid} {mu : Mid}
    (h : pc.op S X head = some (.wait mu)) : X = S := by
  cases pc <;> simp only [op, Option.some.injEq, Option.map_eq_some_iff, reduceCtorEq, and_false,
    exists_false] at h
  case l83 => by_contra hX; simp [hX] at h
  case l83w => split at h <;> cases h
  case l37 => split at h <;> cases h

/-- Whoever waits at a monitor is in the wait on its sync. -/
theorem sync_of_monitorPoint {s : St} {mu : Mid} (h : monitorPoint S s t a = some (.wait mu)) :
    (s.loc t).frame.sync = some S := by
  unfold monitorPoint at h
  split at h
  case h_1 | h_2 => exact absurd h (UpdatePc.op_ne_wait _)
  case h_3 hf =>
    obtain rfl := WaitPc.op_eq_wait h
    rw [hf]
    rfl
  case h_4 => cases h

/-- **One step keeps fresh storage fresh.** -/
theorem Vacant.step {s : St} (hs : Locked s) (hv : Vacant s.mem) (ha : Unspurious s t a)
    (hm : Moves max t a (s.loc t) s.mem th m e) : Vacant m := by
  intro S ho
  have ho' : (s.mem.sync S).owner = none := by
    by_contra hne
    exact hne ((moves_guarantee hs.owner_of_lock (hs.held t) hm).owner S hne ▸ ho)
  refine (moves_takes (S := S) hs hv ha hm).asleep_nil (fun mu hmu => ?_) (hv S ho')
  have hown := (hs.held t).own S (sync_of_monitorPoint hmu)
  exact absurd (hown.symm.trans ho') (by simp)

end Lines

/-! ## Runs -/

/-- **The locks and the condition of every sync are used as a monitor allows**: a run in which no
sleeper wakes by itself, read at its four kinds of calls, is a run of the monitor of any one
sync. -/
theorem uses_monitor {max : ℤ} {s : St} {π : List (Transition Tid Thread Mem Act Event)} (S : Sid)
    (hp : (waitSync max).Path start π s) (hE : Allowed Unspurious π) :
    ∃ ρ, monitor.Path monitorStart ρ (monitorOf S s) ∧ schedule ρ = points (monitorPoint S) π := by
  refine (hp.linearizes (q := monitor) (monitorPoint S) (fun _ => monitorOf S)
    (fun _ s => Locked s ∧ Vacant s.mem) Unspurious (fun h s t a th m e hI ha hx => ?_) hE
    ⟨start_locked, fun _ _ => rfl⟩).2
  have hm := moves_of_exec hx
  refine ⟨⟨hI.1.step hm, hI.2.step hI.1 ha hm⟩, ?_⟩
  have hview : monitorOf S (s.move t th m) =
      (monitorOf S s).move t (th.frame.client S) (m.monitor S) := by
    refine congrArg₂ State.mk (funext fun t' => ?_) rfl
    by_cases ht : t' = t
    · subst ht
      simp [monitorOf]
    · simp [monitorOf, ht, State.move_loc_of_ne]
  have htakes := moves_takes (S := S) hI.1 hI.2 ha hm
  cases hb : monitorPoint S s t a with
  | none =>
    obtain ⟨hc, hM⟩ : _ ∧ _ := hb ▸ htakes
    refine .inl ⟨rfl, ?_⟩
    rw [hview, hc, hM]
    exact State.move_self ..
  | some b =>
    rw [hb] at htakes
    exact .inr ⟨b, (), rfl, step_eq_some.mpr ⟨_, _, htakes, hview⟩⟩

/-- Thread 1 sleeps behind thread 0, whose `progress()` completes it; it comes back. -/
theorem uses_monitor_signal :
    ∃ s π ρ, (waitSync 1).Path start π s ∧ monitor.Path monitorStart ρ (monitorOf 1 s) ∧
      schedule ρ = [(1, .back), (0, .unlock 1), (0, .signal), (0, .lock 1), (1, .wait 1),
        (1, .lock 1), (0, .unlock 0), (0, .lock 0)] := by
  obtain ⟨s, π, hp, hE, hpoints⟩ := exists_path_of_run (p := waitSync 1) (s := start)
    (sleepBehind ++ [(0, Act.run), (0, .update 1 1 0)] ++ List.replicate 6 (0, Act.run) ++
      [(1, Act.run)])
    (P := fun _ π => Allowed Unspurious π ∧ points (monitorPoint 1) π = [(1, .back), (0, .unlock 1),
      (0, .signal), (0, .lock 1), (1, .wait 1), (1, .lock 1), (0, .unlock 0), (0, .lock 0)])
    (by decide)
  obtain ⟨ρ, hρ, hs⟩ := uses_monitor 1 hp hE
  exact ⟨s, π, ρ, hp, hρ, hs.trans hpoints⟩

end Libult.WaitSync
