import Libult.Interleaving.Census
import Libult.Threads.Code

/-!
# Threads/Waiting — who holds `lck`, and who is registered

`c_waiting` is loaded and stored with `lck` held, so a loaded value is still current at its store:
the counter counts the threads from line 27 to line 31 or 49, whatever `WAKEUP_THREAD` does to the
other counter meanwhile.
-/

namespace Libult.Threads

open Interleaving Program Condition

/-- The lines of `condition_wait` outside `m`. -/
def WaitPc.holds : WaitPc → Bool
  | .l33 | .l34 | .l39 | .l40 => false
  | _ => true

/-- The thread holds `lck`. -/
def Frame.holds : Frame → Bool
  | .acquire (.l50 pc) => pc.holds
  | .acquire .l49 | .acquire .l52 | .inside | .release _ => true
  | _ => false

/-- The lines between `c_waiting++` and its `c_waiting--`. -/
def WaitPc.registered : WaitPc → Bool
  | .l30 | .l31 | .l31w _ | .l37 | .l38 | .l39 | .l40 | .l48 | .l48w _ | .l49 | .l49w _ => true
  | _ => false

/-- …of which those of the polling loop… -/
def WaitPc.polling : WaitPc → Bool
  | .l37 | .l38 | .l39 | .l40 => true
  | _ => false

/-- …and those that have yet to take a wake-up. -/
def WaitPc.needing : WaitPc → Bool
  | .l37 | .l38 | .l39 | .l40 | .l48 | .l48w _ => true
  | _ => false

/-- The thread is in `condition_wait`, at a line of the given kind. -/
def Frame.waits (A : WaitPc → Bool) : Frame → Bool
  | .acquire (.l50 pc) => A pc
  | _ => false

/-- The value of `c_waiting` a thread with `lck` has loaded. -/
def Frame.loaded : Frame → Option ℤ
  | .acquire (.l50 (.l27w v)) | .acquire (.l50 (.l31w v)) | .acquire (.l50 (.l49w v)) => some v
  | .release (.l70 (.l103w v)) => some v
  | _ => none

/-- …and of `c_signaled`. -/
@[simp] def Frame.taking : Frame → Option ℤ
  | .acquire (.l50 (.l48w v)) => some v
  | _ => none

/-- The threads in `condition_wait` at a line of the given kind. -/
abbrev Waiters (A : WaitPc → Bool) (s : St) (W : Finset Tid) : Prop :=
  Census (fun th : Thread => th.frame.waits A = true) s W

/-- **The lock and the count**: who holds `lck`, what it has loaded, and how many are registered. -/
structure Counted (s : St) : Prop where
  holder : ∀ t, (s.loc t).frame.holds = true ↔ s.mem.lck = some t
  loaded : ∀ t, ∀ v ∈ (s.loc t).frame.loaded, v = s.mem.cond.c_waiting
  count : ∃ W, Waiters WaitPc.registered s W ∧ s.mem.cond.c_waiting = W.card

theorem start_counted (act : Bool) : Counted (start act) where
  holder t := by simp [start, Frame.holds]
  loaded t v h := by cases h
  count := ⟨∅, fun t => by simp [start, Frame.waits], rfl⟩

theorem Frame.waits_mono {A B : WaitPc → Bool} (hAB : ∀ pc, A pc = true → B pc = true) {f : Frame}
    (h : f.waits A = true) : f.waits B = true := by
  unfold Frame.waits at h ⊢
  split at h
  · exact hAB _ h
  · cases h

theorem Frame.holds_of_loaded {f : Frame} {v : ℤ} (h : f.loaded = some v) : f.holds = true := by
  unfold Frame.loaded at h
  split at h <;> first | rfl | cases h

section Counted

variable {s : St} {t t' : Tid}

/-- Only one thread has `lck`. -/
theorem Counted.holder_eq (c : Counted s) (h : (s.loc t).frame.holds = true)
    (h' : (s.loc t').frame.holds = true) : t' = t :=
  Option.some.inj (((c.holder t').mp h').symm.trans ((c.holder t).mp h))

theorem Counted.not_holds (c : Counted s) (hfree : s.mem.lck = none) (t : Tid) :
    (s.loc t).frame.holds = false :=
  Bool.not_eq_true _ ▸ fun h => by cases hfree.symm.trans ((c.holder t).mp h)

/-- Whoever is registered is counted. -/
theorem Counted.card_le (c : Counted s) {A : WaitPc → Bool} (hA : ∀ pc, A pc = true →
    pc.registered = true) {N : Finset Tid} (hN : Waiters A s N) :
    (N.card : ℤ) ≤ s.mem.cond.c_waiting := by
  obtain ⟨W, hW, hcard⟩ := c.count
  rw [hcard]
  exact_mod_cast Finset.card_le_card fun t ht => (hW t).mpr (Frame.waits_mono hA ((hN t).mp ht))

end Counted

/-! ## What a step does to the lock and the count -/

section Moves

variable {t : Tid} {a : Act} {th th' : Thread} {m m' : Mem} {e : Event}

/-- **The mover's own lock**, and that of the others. -/
theorem moves_holder (h : Moves t a th m th' m' e)
    (hh : th.frame.holds = true ↔ m.lck = some t) :
    (th'.frame.holds = true ↔ m'.lck = some t) ∧
      ∀ t' ≠ t, (m'.lck = some t' ↔ m.lck = some t') := by
  have release : m.lck = some t → ∀ t' ≠ t, ((none : Option Tid) = some t' ↔ m.lck = some t') := by
    intro hl t' ht
    simp [hl, ht.symm]
  have acquire : m.lck = none → ∀ t' ≠ t, (some t = some t' ↔ m.lck = some t') := by
    intro hl t' ht
    simp [hl, ht.symm]
  cases h with
  | @wait pc o _ _ h =>
    cases pc <;> simp only [conditionWait, Option.ite_none_right_eq_some, Option.some.injEq,
      Prod.mk.injEq] at h
    case l32 | l38 =>
      obtain ⟨rfl, rfl⟩ := h
      exact ⟨by simp [Frame.holds, WaitPc.holds, Mem.unlock], release (hh.mp rfl)⟩
    case l34 | l40 =>
      obtain ⟨hfree, rfl, rfl⟩ := h
      exact ⟨by simp [Frame.holds, WaitPc.holds, Mem.lock], acquire hfree⟩
    case l30 | l37 =>
      obtain ⟨rfl, rfl⟩ := h
      refine ⟨?_, fun _ _ => Iff.rfl⟩
      rw [← hh]
      split <;> simp [Frame.holds, WaitPc.holds]
    all_goals
      obtain ⟨rfl, rfl⟩ := h
      exact ⟨hh, fun _ _ => Iff.rfl⟩
  | enter hfree | lock hfree => exact ⟨by simp [Frame.holds, Mem.lock], acquire hfree⟩
  | leave | unlock => exact ⟨by simp [Frame.holds, Mem.unlock], release (hh.mp rfl)⟩
  | _ => exact ⟨hh, fun _ _ => Iff.rfl⟩

/-- **What a step does to `c_waiting`**: nothing, or the registration or deregistration of its
thread, by the value that thread has loaded. -/
inductive Registers : Frame → Mem → Frame → Mem → Prop
  | stay {f f' : Frame} {m m' : Mem} : f'.waits WaitPc.registered = f.waits WaitPc.registered →
      m'.cond.c_waiting = m.cond.c_waiting →
      (∀ v ∈ f'.loaded, v = m.cond.c_waiting ∨ v ∈ f.loaded) → Registers f m f' m'
  | enter {f f' : Frame} {v : ℤ} {m m' : Mem} : f.loaded = some v →
      f.waits WaitPc.registered = false → f'.waits WaitPc.registered = true →
      m'.cond.c_waiting = v + 1 → f'.loaded = none → Registers f m f' m'
  | leave {f f' : Frame} {v : ℤ} {m m' : Mem} : f.loaded = some v →
      f.waits WaitPc.registered = true → f'.waits WaitPc.registered = false →
      m'.cond.c_waiting = v - 1 → f'.loaded = none → Registers f m f' m'

theorem conditionWait_registers {pc : WaitPc} {o : Option WaitPc}
    (h : conditionWait t m pc = some (o, m')) :
    Registers (.acquire (.l50 pc)) m (.acquire (o.elim .l49 .l50)) m' := by
  cases pc <;> simp only [conditionWait, Option.ite_none_right_eq_some, Option.some.injEq,
    Prod.mk.injEq] at h
  case l27w v =>
    obtain ⟨rfl, rfl⟩ := h
    exact .enter rfl rfl rfl rfl rfl
  case l31w v | l49w v =>
    obtain ⟨rfl, rfl⟩ := h
    exact .leave rfl rfl rfl rfl rfl
  case l27 | l31 | l49 =>
    obtain ⟨rfl, rfl⟩ := h
    exact .stay rfl rfl fun v hv => .inl (Option.some.inj hv).symm
  case l30 | l37 =>
    obtain ⟨rfl, rfl⟩ := h
    split <;> exact .stay rfl rfl fun v hv => by cases hv
  case l34 | l40 =>
    obtain ⟨-, rfl, rfl⟩ := h
    exact .stay rfl rfl fun v hv => by cases hv
  all_goals
    obtain ⟨rfl, rfl⟩ := h
    exact .stay rfl rfl fun v hv => by cases hv

theorem moves_registers (h : Moves t a th m th' m' e) : Registers th.frame m th'.frame m' := by
  cases h with
  | wait h => exact conditionWait_registers h
  | load => exact .stay rfl rfl fun v hv => .inl (Option.some.inj hv).symm
  | wakeClear | wakeLoad | wakeStore | callWakeup => exact .stay rfl rfl fun v hv => .inr hv
  | _ => exact .stay rfl rfl fun v hv => by cases hv

end Moves

section Step

variable {s : St} {t : Tid} {a : Act} {l : Thread} {m : Mem} {e : Event}

/-- **One step keeps the lock and the count.** -/
theorem Counted.step (c : Counted s) (hm : Moves t a (s.loc t) s.mem l m e) :
    Counted (s.move t l m) := by
  obtain ⟨hself, hother⟩ := moves_holder hm (c.holder t)
  obtain ⟨W, hW, hcard⟩ := c.count
  have hr := moves_registers hm
  have hloaded := c.loaded t
  -- what the others have loaded is current unless the mover has `lck`, and then they have nothing
  have others : (m.cond.c_waiting = s.mem.cond.c_waiting ∨ (s.loc t).frame.holds = true) →
      ∀ t' ≠ t, ∀ v ∈ (s.loc t').frame.loaded, v = m.cond.c_waiting := by
    rintro (heq | hh) t' ht' v hv
    · exact (c.loaded t' v hv).trans heq.symm
    · exact absurd (c.holder_eq hh (Frame.holds_of_loaded hv)) ht'
  refine ⟨(s.forall_move t l m (A := fun t' th => th.frame.holds = true ↔ m.lck = some t')).mpr
    ⟨hself, fun t' ht' => (c.holder t').trans (hother t' ht').symm⟩,
    (s.forall_move t l m (A := fun _ th => ∀ v ∈ th.frame.loaded, v = m.cond.c_waiting)).mpr
    ⟨fun v hv => ?_, others ?_⟩, ?_⟩
  · cases hr with
    | stay _ heq hl =>
      rcases hl v hv with rfl | hv
      · exact heq.symm
      · exact (hloaded v hv).trans heq.symm
    | enter _ _ _ _ hl | leave _ _ _ _ hl => cases hl.symm.trans hv
  · cases hr with
    | stay _ heq => exact .inl heq
    | enter hl | leave hl => exact .inr (Frame.holds_of_loaded hl)
  · cases hr with
    | stay hreg heq => exact ⟨W, hW.stay (by rw [hreg]), heq.trans hcard⟩
    | enter hl hout hin heq =>
      refine ⟨insert t W, hW.enter hin, ?_⟩
      rw [hW.card_enter (by simp [hout]), State.move_mem, heq, hloaded _ hl, hcard]
      push_cast
      rfl
    | leave hl hin hout heq =>
      have := hW.card_leave hin
      refine ⟨W.erase t, hW.leave (by simp [hout]), ?_⟩
      rw [State.move_mem, heq, hloaded _ hl, hcard]
      omega

/-- In every run the lock and the count are right. -/
theorem counted {act : Bool} {s : St} {π : List (Transition Tid Thread Mem Act Event)}
    (hp : threads.Path (start act) π s) : Counted s :=
  hp.invariant (fun _ s => Counted s) (fun _ _ _ => True)
    (fun _ _ _ _ _ _ _ hi _ hx => hi.step (moves_of_exec hx)) (fun _ _ => trivial)
    (start_counted act)

end Step

end Libult.Threads
