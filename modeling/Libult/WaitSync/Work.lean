import Libult.Interleaving.Ending
import Libult.WaitSync.Visits
import Mathlib.Data.Prod.Lex

/-!
# WaitSync/Work — what is left to do, counted in lines

A thread inside the module is either polling — `progress()` while the count is up, the release while
the flag is up — or has work: its next line.  Work is counted in three grades, the first that
changes going down with every line.

    phase    before registration ▸ registered ▸ leaving ▸ removed ▸ outside
    lines    of a call, of the way in, of the way out         (a walk: what is left of the list)
    turn     from a wake-up to the next sleep or poll

A signal wakes a sleeper, who gets a new turn; but it is a line of a call or of the way out, so it
is paid for by the grade above.
-/

namespace Libult.WaitSync

open Interleaving Program Links

/-! ## Polling and working -/

/-- The thread polls: it is in `progress()`, or waits for the signaller to let go of its sync. -/
def Thread.polls (m : Mem) (th : Thread) : Prop :=
  th.call = .idle ∧ ((∃ S, th.frame = .wait S .l103 ∧ 0 < (m.sync S).count) ∨
    ∃ S, th.frame = .release S .l34 ∧ (m.sync S).signaling = true)

/-- **A thread at work** executes its next line. -/
def Works (s : St) (t : Tid) (a : Act) : Prop := a = .run ∧ ¬ (s.loc t).polls s.mem

theorem Works.nonNeg {s : St} {t : Tid} {a : Act} (h : Works s t a) : NonNeg s t a := by
  obtain ⟨rfl, -⟩ := h
  trivial

/-! ## The three grades -/

/-- How far a wait is from its return. -/
def WaitPc.phase : WaitPc → ℕ
  | .l47 | .l48 | .l52 | .l57 | .l58 | .l59 | .l63 | .l64 | .l65 | .l65n | .l66 | .l68 | .l69
  | .l70 | .l71 => 4
  | .l73 | .l82 | .l82n | .l83 | .l83w | .l91 | .l92 | .l98 | .l100 | .l101 | .l103 | .l105 => 3
  | .l109 | .l110 | .l111 => 2
  | .l113 | .l114 | .l115 | .l36 | .l37 | .l38 | .l119 | .l121 => 1

def Frame.phase : Frame → ℕ
  | .wait _ pc => pc.phase
  | _ => 0

/-- The lines of the way in, of the way out and of the release that are still to come. -/
def WaitPc.lines : WaitPc → ℕ
  | .l47 => 11
  | .l52 => 10
  | .l57 => 9
  | .l63 => 8
  | .l64 => 7
  | .l65 | .l68 => 6
  | .l65n | .l69 => 5
  | .l66 | .l70 => 4
  | .l71 => 3
  | .l48 | .l58 => 2
  | .l59 => 1
  | .l109 => 3
  | .l110 => 2
  | .l111 => 1
  | .l113 => 8
  | .l114 => 7
  | .l115 => 6
  | .l36 => 5
  | .l37 => 4
  | .l38 => 3
  | .l119 => 2
  | .l121 => 1
  | _ => 0

def ReleasePc.lines : ReleasePc → ℕ
  | .l34 => 3
  | .l40 => 2
  | .l41 => 1

def Frame.lines : Frame → ℕ
  | .wait _ pc => pc.lines
  | .release _ pc => pc.lines
  | _ => 0

/-- The syncs of the list `l` that a global wakeup has not reached yet. -/
def WakeupPc.ahead (l : List Sid) : WakeupPc → ℕ
  | .l17 | .l18 => l.length
  | .l24 S _ | .l25 S | .l18n S => l.length - (l.idxOf S + 1)
  | .l29 => 0

/-- The lines a global wakeup can still execute, the list being `l`. -/
def WakeupPc.lines (l : List Sid) (pc : WakeupPc) : ℕ :=
  9 * pc.ahead l + left (some pc) + if pc = .l17 then 1 else 0

def Call.lines (l : List Sid) : Call → ℕ
  | .idle => 0
  | .update _ _ _ pc => pc.left
  | .wakeup _ pc => pc.lines l

def Thread.lines (l : List Sid) (th : Thread) : ℕ := th.frame.lines + th.call.lines l

/-- The lines of a registered waiter up to its next sleep or poll. -/
def WaitPc.turn (asleep : Prop) [Decidable asleep] (count : ℤ) : WaitPc → ℕ
  | .l73 => 8
  | .l83w => if asleep then 0 else 7
  | .l91 => 6
  | .l82 => 5
  | .l82n => 4
  | .l83 | .l98 => 3
  | .l100 => 2
  | .l101 => 1
  | .l103 => if 0 < count then 0 else 2
  | _ => 0

def Thread.turn (t : Tid) (m : Mem) (th : Thread) : ℕ :=
  match th.frame with
  | .wait S pc => pc.turn (t ∈ (m.sync S).condition) (m.sync S).count
  | _ => 0

/-! ## Every line of work goes down a grade -/

/-- **What a line of work uses up**: a phase, or a line, or some of the thread's turn; the last
leaves alone what the turns of the others depend on. -/
inductive Falls (l : List Sid) (t : Tid) (th : Thread) (m : Mem) (th' : Thread) (m' : Mem)
    (e : Event) : Prop
  | phase : th'.frame.phase < th.frame.phase → Falls l t th m th' m' e
  | lines : th'.frame.phase = th.frame.phase → e.pend l = l → th'.lines l < th.lines l →
      Falls l t th m th' m' e
  | turn : th'.frame.phase = th.frame.phase → e.pend l = l → th'.lines l = th.lines l →
      th'.turn t m' < th.turn t m →
      (∀ S, (m'.sync S).count = (m.sync S).count ∧
        (th.frame.sync ≠ some S → (m'.sync S).condition = (m.sync S).condition)) →
      Falls l t th m th' m' e

section Line

variable {max : ℤ} {t : Tid} {S : Sid} {m m' : Mem} {l : List Sid} {f : Frame} {e : Event}

/-- A line of the way in or out. -/
theorem Falls.next {pc pc' : WaitPc} (hp : pc'.phase = pc.phase) (hl : pc'.lines < pc.lines) :
    Falls l t ⟨.wait S pc, .idle⟩ m ⟨.wait S pc', .idle⟩ m' .tau :=
  .lines hp rfl (by simpa [Thread.lines, Frame.lines, Call.lines] using hl)

/-- A line between registration and removal. -/
theorem Falls.goto {pc pc' : WaitPc} (hp : pc'.phase = pc.phase) (hl : pc'.lines = pc.lines)
    (ht : (⟨.wait S pc', .idle⟩ : Thread).turn t m' < (⟨.wait S pc, .idle⟩ : Thread).turn t m)
    (hm : ∀ X, (m'.sync X).count = (m.sync X).count ∧
      (S ≠ X → (m'.sync X).condition = (m.sync X).condition)) :
    Falls l t ⟨.wait S pc, .idle⟩ m ⟨.wait S pc', .idle⟩ m' .tau :=
  .turn hp rfl (by simp [Thread.lines, Frame.lines, hl]) ht fun X =>
    ⟨(hm X).1, fun hX => (hm X).2 fun hc => hX (congrArg some hc)⟩

/-- **A line of the wait**, but for the poll. -/
theorem ompiSyncWaitMt_falls {pc : WaitPc} (hpoll : pc = .l103 → ¬ 0 < (m.sync S).count)
    (h : ompiSyncWaitMt max t S m pc = some (f, m', e)) :
    Falls l t ⟨.wait S pc, .idle⟩ m ⟨f, .idle⟩ m' e := by
  have same : ∀ X, (m.sync X).count = (m.sync X).count ∧
      (S ≠ X → (m.sync X).condition = (m.sync X).condition) := fun _ => ⟨rfl, fun _ => rfl⟩
  cases pc <;> simp only [ompiSyncWaitMt, Option.ite_none_right_eq_some, Option.some.injEq,
    Option.map_eq_some_iff, Option.bind_eq_some_iff, Prod.mk.injEq] at h
  -- the phases: out, registered, leaving, removed
  case l48 | l59 | l121 | l66 | l92 | l105 =>
    obtain ⟨rfl, rfl, rfl⟩ := h
    exact .phase (by simp [Frame.phase, WaitPc.phase])
  case l71 | l111 =>
    obtain ⟨_, -, rfl, rfl, rfl⟩ := h
    exact .phase (by simp [Frame.phase, WaitPc.phase])
  -- the way in and the way out
  case l47 | l57 | l64 | l113 | l115 =>
    obtain ⟨rfl, rfl, rfl⟩ := h
    split <;> exact .next rfl (by decide)
  case l52 | l63 | l109 =>
    obtain ⟨-, rfl, rfl, rfl⟩ := h
    exact .next rfl (by decide)
  case l58 | l65 | l65n | l70 | l114 | l119 =>
    obtain ⟨rfl, rfl, rfl⟩ := h
    exact .next rfl (by decide)
  case l68 | l69 | l110 | l37 | l38 =>
    obtain ⟨_, -, rfl, rfl, rfl⟩ := h
    exact .next rfl (by decide)
  case l36 =>
    obtain ⟨_, -, -, rfl, rfl, rfl⟩ := h
    exact .next rfl (by decide)
  -- a turn of a registered waiter
  case l82 | l82n | l91 =>
    obtain ⟨rfl, rfl, rfl⟩ := h
    split <;> exact .goto rfl rfl (by simp [Thread.turn, WaitPc.turn]) same
  case l101 =>
    obtain ⟨rfl, rfl, rfl⟩ := h
    split
    · exact .goto rfl rfl (by simp [Thread.turn, WaitPc.turn, *]) same
    · exact .goto rfl rfl (by simp [Thread.turn, WaitPc.turn]) same
  case l103 =>
    obtain ⟨rfl, rfl, rfl⟩ := h
    exact .goto rfl rfl (by simp [Thread.turn, WaitPc.turn, hpoll rfl]) same
  case l73 | l100 =>
    obtain ⟨rfl, rfl, rfl⟩ := h
    exact .goto rfl rfl (by simp [Thread.turn, WaitPc.turn]) same
  case l98 =>
    obtain ⟨rfl, rfl, rfl⟩ := h
    refine .goto rfl rfl (by simp [Thread.turn, WaitPc.turn]) fun X => ?_
    by_cases hX : X = S <;> simp [Mem.unlock, hX]
  case l83 =>
    obtain ⟨rfl, rfl, rfl⟩ := h
    refine .goto rfl rfl (by simp [Thread.turn, WaitPc.turn, Mem.sleep]) fun X => ?_
    by_cases hX : X = S
    · simp [Mem.sleep, hX]
    · simp [Mem.sleep, hX]
  case l83w =>
    obtain ⟨⟨hc, -⟩, rfl, rfl, rfl⟩ := h
    refine .goto rfl rfl (by simp [Thread.turn, WaitPc.turn, hc]) fun X => ?_
    by_cases hX : X = S <;> simp [Mem.lock, hX]

theorem WakeupPc.lines_next (l₁ l₂ : List Sid) {o : Option Sid} (hd : (l₁ ++ l₂).Nodup)
    (ho : o = l₂.head?) : (WakeupPc.next o).1.lines (l₁ ++ l₂) < 9 * l₂.length + 2 := by
  subst ho
  cases l₂ with
  | nil => simp [WakeupPc.next, lines, ahead, left]
  | cons X l₂ =>
    have hX : X ∉ l₁ := fun hc => (List.nodup_append.mp hd).2.2 X hc X (by simp) rfl
    simp only [List.head?_cons, WakeupPc.next, lines, ahead, left, UpdatePc.left,
      List.idxOf_append_of_notMem hX, List.idxOf_cons_self, List.length_append, List.length_cons,
      reduceCtorEq, if_false]
    omega

/-- **A line of the global wakeup.** -/
theorem globalWakeupMt_lines {st : ℤ} {pc : WakeupPc} {pc' : Option WakeupPc}
    (hw : pc.listLocked = true → Laid m.next m.waitSyncList l)
    (hS : ∀ X, (Call.wakeup st pc).target = some X → X ∈ l)
    (hn : ∀ X, pc = .l18n X → m.next X ≠ m.waitSyncList)
    (h : globalWakeupMt t st m pc = some (pc', m', e)) :
    (pc'.elim .idle (Call.wakeup st)).lines l < (Call.wakeup st pc).lines l := by
  cases pc with
  | l17 =>
    simp only [globalWakeupMt, Option.ite_none_right_eq_some, Option.some.injEq,
      Prod.mk.injEq] at h
    obtain ⟨-, rfl, -⟩ := h
    simp [Call.lines, WakeupPc.lines, WakeupPc.ahead, WakeupPc.left]
  | l18 =>
    simp only [globalWakeupMt, Option.some.injEq, Prod.mk.injEq] at h
    obtain ⟨rfl, -⟩ := h
    have hl := hw rfl
    exact WakeupPc.lines_next [] _ hl.nodup hl.head
  | l24 S upc =>
    obtain ⟨⟨upc', m₁, e₁⟩, hu, hr⟩ := Option.map_eq_some_iff.mp h
    obtain ⟨rfl, -⟩ := Prod.ext_iff.mp hr
    have hleft := waitSyncUpdate_left hu
    cases upc' <;> simp_all [Call.lines, WakeupPc.lines, WakeupPc.ahead, WakeupPc.left]
  | l25 S =>
    simp only [globalWakeupMt, Option.some.injEq, Prod.mk.injEq] at h
    obtain ⟨rfl, -⟩ := h
    split <;> simp [Call.lines, WakeupPc.lines, WakeupPc.ahead, WakeupPc.left]
  | l18n S =>
    simp only [globalWakeupMt, Option.some.injEq, Prod.mk.injEq] at h
    obtain ⟨rfl, -⟩ := h
    have hl := hw rfl
    obtain ⟨l₁, l₂, rfl⟩ := List.append_of_mem (hS S rfl)
    have hd := hl.nodup
    have hX : S ∉ l₁ := fun hc => (List.nodup_append.mp hd).2.2 S hc S (by simp) rfl
    have hnext := hl.next_of_ne (hn S rfl)
    have key := WakeupPc.lines_next (l₁ ++ [S]) l₂ (by simpa using hd) hnext
    simp only [List.append_assoc, List.singleton_append] at key
    refine key.trans_eq ?_
    simp only [Call.lines, WakeupPc.lines, WakeupPc.ahead, WakeupPc.left,
      List.idxOf_append_of_notMem hX, List.idxOf_cons_self, List.length_append, List.length_cons,
      reduceCtorEq, if_false]
    omega
  | l29 =>
    simp only [globalWakeupMt, Option.some.injEq, Prod.mk.injEq] at h
    obtain ⟨rfl, -⟩ := h
    simp [Call.lines, WakeupPc.lines, WakeupPc.ahead, WakeupPc.left]

end Line

/-- **Every line of work goes down a grade.** -/
theorem moves_falls {max : ℤ} {t : Tid} {th th' : Thread} {m m' : Mem} {l : List Sid} {e : Event}
    (hv : View l m th) (hn : ∀ st X, th.call = .wakeup st (.l18n X) → m.next X ≠ m.waitSyncList)
    (hpoll : ¬ th.polls m) (hm : Moves max t .run th m th' m' e) : Falls l t th m th' m' e := by
  cases hm with
  | @update _ _ f S u st pc pc' _ h =>
    refine .lines rfl (Event.pend_of_own (waitSyncUpdate_event h).1 l) ?_
    have hleft := waitSyncUpdate_left h
    cases pc' <;> simpa [Thread.lines, Call.lines] using hleft
  | @wakeup _ _ f st pc pc' _ h =>
    refine .lines rfl (Event.pend_of_own (globalWakeupMt_event h) l) ?_
    refine Nat.add_lt_add_left (globalWakeupMt_lines (fun hl => ?_) (fun X hX => ?_)
      (fun X hX => hn st X (by rw [hX])) h) _
    · obtain ⟨hw, -⟩ := hv.call hl
      exact hw.head ▸ hw.ring.laid
    · refine (hv.call ?_).2 X hX
      cases pc <;> first | rfl | cases hX
  | @wait _ _ f S pc _ h =>
    refine ompiSyncWaitMt_falls (fun hpc hc => hpoll ⟨rfl, .inl ⟨S, ?_, hc⟩⟩) h
    rw [hpc]
  | @release _ _ f S pc _ h =>
    cases pc <;> simp only [waitSyncRelease, Prod.mk.injEq] at h <;> obtain ⟨rfl, rfl, rfl⟩ := h
    · have hdown : (m.sync S).signaling ≠ true := fun hc => hpoll ⟨rfl, .inr ⟨S, rfl, hc⟩⟩
      rw [if_neg hdown]
      exact .lines rfl rfl (by simp [Thread.lines, Frame.lines, ReleasePc.lines])
    · exact .lines rfl rfl (by simp [Thread.lines, Frame.lines, ReleasePc.lines])
    · exact .lines rfl rfl (by simp [Thread.lines, Frame.lines, ReleasePc.lines])

/-! ## A walk in flight has not come round -/

/-- A global wakeup about to go on has not come back to the head. -/
def Ahead (s : St) : Prop :=
  ∀ t st X, (s.loc t).call = .wakeup st (.l18n X) → s.mem.next X ≠ s.mem.waitSyncList

theorem start_ahead : Ahead start := fun _ _ _ h => by cases h

/-- **One step keeps the walks from coming round.** -/
theorem Ahead.step {max : ℤ} {s : St} {t : Tid} {a : Act} {th : Thread} {m : Mem} {e : Event}
    (k : Ahead s) (hs : Locked s) (hm : Moves max t a (s.loc t) s.mem th m e) :
    Ahead (s.move t th m) := by
  intro t' st X hc
  rw [State.move_mem]
  by_cases ht : t' = t
  · subst ht
    rw [State.move_loc_self] at hc
    generalize s.loc t' = th₀ at hm
    cases hm with
    | @wakeup _ _ f st' pc pc' _ h =>
      cases pc' with
      | none => cases hc
      | some pc' =>
        obtain ⟨rfl, rfl⟩ := Call.wakeup.inj hc
        cases pc with
        | l25 S =>
          simp only [globalWakeupMt, Option.some.injEq, Prod.mk.injEq] at h
          obtain ⟨hpc, rfl, -⟩ := h
          split at hpc
          · cases hpc
          · cases hpc
            assumption
        | l24 S pc =>
          obtain ⟨⟨upc', m₁, e₁⟩, -, hr⟩ := Option.map_eq_some_iff.mp h
          cases upc' <;> cases hr
        | l18 =>
          simp only [globalWakeupMt, Option.some.injEq, Prod.mk.injEq] at h
          cases hl : s.mem.waitSyncList <;> rw [hl] at h <;> cases h.1
        | l18n S =>
          simp only [globalWakeupMt, Option.some.injEq, Prod.mk.injEq] at h
          cases hl : (s.mem.sync S).next <;> rw [hl] at h <;> cases h.1
        | _ => simp [globalWakeupMt] at h
    | @update _ _ f S u st' pc pc' _ h => cases pc' <;> cases hc
    | _ => cases hc
  · -- it holds `wait_sync_lock`, so the list is as it was
    rw [State.move_loc_of_ne _ _ _ _ ht] at hc
    have hg := moves_guarantee hs.owner_of_lock (hs.held t) hm
    have hl : s.mem.waitSyncLock = some t' := (hs.held t').list.mpr (by
      simp [Thread.listLocked, hc, Call.listLocked, WakeupPc.listLocked])
    have hlock : s.mem.waitSyncLock ≠ some t := by simpa [hl] using ht
    have ho := (hs.held t').target X (by rw [hc]; rfl)
    rw [hg.list hlock, show m.next X = s.mem.next X from (hg.links hlock X ho).1]
    exact k t' st X hc

/-! ## The measure -/

/-- **The work of the threads `A`**: the phases, the lines, the turns. -/
def work (A : Finset Tid) (h : List Event) (s : St) : ℕ ×ₗ ℕ ×ₗ ℕ :=
  toLex (∑ t ∈ A, (s.loc t).frame.phase,
    toLex (∑ t ∈ A, (s.loc t).lines (pending h), ∑ t ∈ A, (s.loc t).turn t s.mem))

/-- **A line of work lowers the measure.** -/
theorem work_falls {A : Finset Tid} {h : List Event} {s : St} {t : Tid} {th : Thread} {m : Mem}
    {e : Event} (hA : t ∈ A) (hs : Locked s)
    (hf : Falls (pending h) t (s.loc t) s.mem th m e) :
    work A (e :: h) (s.move t th m) < work A h s := by
  simp only [work, Prod.Lex.toLex_lt_toLex]
  cases hf with
  | phase hlt =>
    exact .inl (sum_move_lt (f := fun _ (th : Thread) => th.frame.phase)
      (g := fun _ (th : Thread) => th.frame.phase) hA hlt fun _ _ _ => le_rfl)
  | lines hp he hlt =>
    refine .inr ⟨sum_move_eq (f := fun th : Thread => th.frame.phase) hp, .inl ?_⟩
    rw [pending, he]
    exact sum_move_lt (f := fun _ => Thread.lines (pending h))
      (g := fun _ => Thread.lines (pending h)) hA hlt fun _ _ _ => le_rfl
  | turn hp he hl hlt hm =>
    refine .inr ⟨sum_move_eq (f := fun th : Thread => th.frame.phase) hp, .inr ⟨?_, ?_⟩⟩
    · rw [pending, he]
      exact sum_move_eq (f := Thread.lines (pending h)) hl
    · refine sum_move_lt (f := fun t' (th : Thread) => th.turn t' s.mem)
        (g := fun t' (th : Thread) => th.turn t' m) hA hlt fun t' _ hne => ?_
      -- the sync of another thread is another sync
      refine le_of_eq ?_
      unfold Thread.turn
      split
      next S pc hfr =>
        have ho := (hs.held t').own S (by rw [hfr]; rfl)
        have hsync : (s.loc t).frame.sync ≠ some S := fun hc =>
          hne (Option.some.inj (ho.symm.trans ((hs.held t).own S hc)))
        obtain ⟨hcount, hcond⟩ := hm S
        simp only [hcount, hcond hsync]
      · rfl

end Libult.WaitSync
