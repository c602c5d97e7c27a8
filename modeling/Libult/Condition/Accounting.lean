import Libult.Condition.Lines
import Libult.Interleaving.Census

/-!
# Condition/Accounting — every waiter is counted once

A wait registers with `c_waiting++` and is registered until its `c_waiting--`, whichever way it
leaves.  Between the test of `c_signaled` that ends its polling and its `c_signaled--` it is alone:
with threads it holds `m`, without them no call is made outside `progress()`.
-/

namespace Libult.Condition.Lines

open Interleaving Program

/-! ## Where a call is -/

/-- The call has executed its `c_waiting++`, and not its `c_waiting--`. -/
def Frame.registered : Frame → Bool
  | .wait pc => pc ≠ .l27 ∧ pc ≠ .l32 ∧ pc ≠ .l33 ∧ pc ≠ .l34
  | .timedwait _ _ pc => pc ≠ .l59
  | _ => false

/-- The call's next line is `c_signaled--`. -/
def Frame.taking : Frame → Bool
  | .wait pc => pc = .l48
  | .timedwait _ _ pc => pc = .l89
  | _ => false

/-- The call's next line is `c_waiting++`. -/
def Frame.registers : Frame → Bool
  | .wait pc => pc = .l27
  | .timedwait _ _ pc => pc = .l59
  | _ => false

/-- The call's next line is `c_signaled++`. -/
def Frame.signals : Frame → Bool
  | .signal pc => pc = .l97
  | _ => false

/-- The call has not given `m` back, and is not in `progress()`. -/
def Frame.critical : Frame → Bool
  | .wait pc => pc ≠ .l33 ∧ pc ≠ .l34 ∧ pc ≠ .l39 ∧ pc ≠ .l40 ∧ pc ≠ .l44
  | .timedwait _ _ pc => pc ≠ .l67 ∧ pc ≠ .l68 ∧ pc ≠ .l69 ∧ pc ≠ .l80
  | _ => true

/-- The call is at none of the lines without threads. -/
def Frame.threaded : Frame → Bool
  | .wait pc => pc ≠ .l43 ∧ pc ≠ .l44
  | .timedwait _ _ pc => pc ≠ .l77 ∧ pc ≠ .l78 ∧ pc ≠ .l80 ∧ pc ≠ .l81 ∧ pc ≠ .l82
  | _ => true

section Frame

variable {u : Bool} {t : Tid} {now : Timeval} {f : Frame} {o : Option Frame} {m m' : Mem}
  {e : Event}

theorem Frame.critical_of_taking (h : f.taking = true) : f.critical = true := by
  cases f <;> simp_all [taking, critical]

theorem Frame.not_critical_of_inProgress (h : f.inProgress = true) : f.critical = false := by
  cases f <;> simp_all [inProgress, critical] <;> grind

/-- **What a line does to the counters**: the six ways. -/
inductive Effect : Frame → Counters → Option Frame → Counters → Event → Prop
  /-- Nothing; a call that goes on to take a wake-up has seen one. -/
  | quiet {f : Frame} {o : Option Frame} {c : Counters} :
      o.elim false Frame.registered = f.registered →
      (∀ g, o = some g → g.taking = true → c.c_signaled ≠ 0) → Effect f c o c .tau
  | register {f g : Frame} {c : Counters} : f.registers = true → f.critical = true →
      f.registered = false → g.registered = true → g.taking = false →
      Effect f c (some g) { c with c_waiting := c.c_waiting + 1 } .registered
  | deregister {f : Frame} {o : Option Frame} {c : Counters} : f.critical = true →
      f.registered = true → o.elim false Frame.registered = false →
      o.elim false Frame.taking = false →
      Effect f c o { c with c_waiting := c.c_waiting - 1 } .deregistered
  | consume {f g : Frame} {c : Counters} : f.taking = true → g.registered = f.registered →
      g.taking = false → Effect f c (some g) { c with c_signaled := c.c_signaled - 1 } .consumed
  | signal {f : Frame} {c : Counters} : f.signals = true → f.critical = true →
      f.registered = false → Effect f c none { c with c_signaled := c.c_signaled + 1 } .tau
  | broadcast {f : Frame} {c : Counters} : f.critical = true → f.registered = false →
      Effect f c none { c with c_signaled := c.c_waiting } .tau

theorem conditionWait_effect {pc : WaitPc} {pc' : Option WaitPc}
    (h : conditionWait u t m pc = some (pc', m', e)) :
    Effect (.wait pc) m.cond (pc'.map .wait) m'.cond e := by
  cases pc <;> simp only [conditionWait, Option.ite_none_right_eq_some, Option.some.injEq,
    Prod.mk.injEq] at h
  case l27 => obtain ⟨rfl, rfl, rfl⟩ := h; exact .register rfl rfl rfl rfl rfl
  case l31 | l49 => obtain ⟨rfl, rfl, rfl⟩ := h; exact .deregister rfl rfl rfl rfl
  case l48 => obtain ⟨rfl, rfl, rfl⟩ := h; exact .consume rfl rfl rfl
  case l34 | l40 =>
    obtain ⟨-, rfl, rfl, rfl⟩ := h
    exact .quiet rfl fun g hg ht => by cases hg <;> cases ht
  case l37 | l43 =>
    obtain ⟨rfl, rfl, rfl⟩ := h
    refine .quiet ?_ fun g hg ht => ?_
    · split <;> rfl
    · split at hg <;> cases hg
      · cases ht
      · exact Ne.symm ‹_›
  case l29 | l30 =>
    obtain ⟨rfl, rfl, rfl⟩ := h
    refine .quiet ?_ fun g hg ht => ?_
    · split <;> rfl
    · split at hg <;> cases hg <;> cases ht
  all_goals
    obtain ⟨rfl, rfl, rfl⟩ := h
    exact .quiet rfl fun g hg ht => by cases hg; cases ht

theorem conditionTimedwait_effect {abstime : Timespec} {tv : Timeval} {pc : TimedwaitPc}
    {q : Option (Timeval × TimedwaitPc)}
    (h : conditionTimedwait u t now m abstime tv pc = some (q, m', e)) :
    Effect (.timedwait abstime tv pc) m.cond (q.map fun q => .timedwait abstime q.1 q.2)
      m'.cond e := by
  cases pc <;> simp only [conditionTimedwait, Option.ite_none_right_eq_some, Option.some.injEq,
    Prod.mk.injEq] at h
  case l59 => obtain ⟨rfl, rfl, rfl⟩ := h; exact .register rfl rfl rfl rfl rfl
  case l91 => obtain ⟨rfl, rfl, rfl⟩ := h; exact .deregister rfl rfl rfl rfl
  case l89 => obtain ⟨rfl, rfl, rfl⟩ := h; exact .consume rfl rfl rfl
  case l69 =>
    obtain ⟨-, rfl, rfl, rfl⟩ := h
    exact .quiet rfl fun g hg ht => by cases hg; cases ht
  case l88 =>
    obtain ⟨rfl, rfl, rfl⟩ := h
    refine .quiet ?_ fun g hg ht => ?_
    · dsimp only [Option.map_some, Option.elim_some]
      split <;> rfl
    · cases hg
      split at ht
      · exact Ne.symm ‹_›
      · cases ht
  case l60 | l64 | l70 | l78 | l82 =>
    obtain ⟨rfl, rfl, rfl⟩ := h
    refine .quiet ?_ fun g hg ht => ?_
    · dsimp only [Option.map_some, Option.elim_some]
      split <;> rfl
    · cases hg
      split at ht <;> cases ht
  all_goals
    obtain ⟨rfl, rfl, rfl⟩ := h
    exact .quiet rfl fun g hg ht => by cases hg; cases ht

theorem Frame.line_wait {pc : WaitPc} (h : (Frame.wait pc).line u t now m = some (o, m', e)) :
    ∃ pc', conditionWait u t m pc = some (pc', m', e) ∧ o = pc'.map .wait := by
  obtain ⟨⟨pc', m₁, e₁⟩, hl, hr⟩ := Option.map_eq_some_iff.mp h
  obtain ⟨rfl, rfl, rfl⟩ := hr
  exact ⟨pc', hl, rfl⟩

theorem Frame.line_timedwait {abstime : Timespec} {tv : Timeval} {pc : TimedwaitPc}
    (h : (Frame.timedwait abstime tv pc).line u t now m = some (o, m', e)) :
    ∃ q, conditionTimedwait u t now m abstime tv pc = some (q, m', e) ∧
      o = q.map fun q => .timedwait abstime q.1 q.2 := by
  obtain ⟨⟨q, m₁, e₁⟩, hl, hr⟩ := Option.map_eq_some_iff.mp h
  obtain ⟨rfl, rfl, rfl⟩ := hr
  exact ⟨q, hl, rfl⟩

/-- **Every line is one of these.** -/
theorem Frame.line_effect (h : f.line u t now m = some (o, m', e)) :
    Effect f m.cond o m'.cond e := by
  cases f with
  | wait pc =>
    obtain ⟨pc', hl, rfl⟩ := Frame.line_wait h
    exact conditionWait_effect hl
  | timedwait abstime tv pc =>
    obtain ⟨q, hl, rfl⟩ := Frame.line_timedwait h
    exact conditionTimedwait_effect hl
  | signal pc =>
    cases pc <;> obtain ⟨rfl, rfl, rfl⟩ := h
    · refine .quiet ?_ fun g hg ht => ?_
      · dsimp only [conditionSignal]
        split <;> rfl
      · dsimp only [conditionSignal] at hg
        split at hg <;> cases hg
        cases ht
    · exact .signal rfl rfl rfl
  | broadcast =>
    obtain ⟨rfl, rfl, rfl⟩ := h
    exact .broadcast rfl rfl

/-- **A line keeps `m`** from the `mutex_lock` of a call to its `mutex_unlock`, and takes it from
nobody. -/
def Keeps (t : Tid) (m m' : Mem) (o : Option Frame) : Prop :=
  (∀ g, o = some g → g.threaded = true ∧ (g.critical = true → m'.mutex = some t)) ∧
    ∀ t', t' ≠ t → m.mutex = some t' → m'.mutex = some t'

/-- A line that leaves `m` alone. -/
theorem Keeps.of_same (hm : m.mutex = some t) (hm' : m'.mutex = m.mutex)
    (ho : ∀ g, o = some g → g.threaded = true) : Keeps t m m' o :=
  ⟨fun g hg => ⟨ho g hg, fun _ => hm'.trans hm⟩, fun _ _ h => hm'.trans h⟩

theorem conditionWait_keeps {pc : WaitPc} {pc' : Option WaitPc}
    (h : conditionWait true t m pc = some (pc', m', e)) (hf : (Frame.wait pc).threaded = true)
    (hc : (Frame.wait pc).critical = true → m.mutex = some t) :
    Keeps t m m' (pc'.map .wait) := by
  cases pc <;> simp only [conditionWait, Option.ite_none_right_eq_some, Option.some.injEq,
    Prod.mk.injEq, if_true] at h
  case l43 | l44 => cases hf
  case l32 | l38 =>
    obtain ⟨rfl, rfl, -⟩ := h
    refine ⟨fun g hg => ?_, fun t' ht' hm => ?_⟩
    · cases hg
      exact ⟨rfl, fun hcrit => by cases hcrit⟩
    · exact absurd (Option.some.inj (hm.symm.trans (hc rfl))) ht'
  case l33 | l39 =>
    obtain ⟨rfl, rfl, -⟩ := h
    refine ⟨fun g hg => ?_, fun t' ht' hm => hm⟩
    cases hg
    exact ⟨rfl, fun hcrit => by cases hcrit⟩
  case l34 | l40 =>
    obtain ⟨hnone, rfl, rfl, -⟩ := h
    refine ⟨fun g hg => ?_, fun t' _ hm => ?_⟩
    · cases hg <;> exact ⟨rfl, fun _ => rfl⟩
    · cases hnone.symm.trans hm
  case l30 | l37 =>
    obtain ⟨rfl, rfl, -⟩ := h
    refine .of_same (hc rfl) rfl fun g hg => ?_
    split at hg <;> cases hg <;> rfl
  all_goals
    obtain ⟨rfl, rfl, -⟩ := h
    exact .of_same (hc rfl) rfl fun g hg => by cases hg <;> rfl

theorem conditionTimedwait_keeps {abstime : Timespec} {tv : Timeval} {pc : TimedwaitPc}
    {q : Option (Timeval × TimedwaitPc)}
    (h : conditionTimedwait true t now m abstime tv pc = some (q, m', e))
    (hf : (Frame.timedwait abstime tv pc).threaded = true)
    (hc : (Frame.timedwait abstime tv pc).critical = true → m.mutex = some t) :
    Keeps t m m' (q.map fun q => .timedwait abstime q.1 q.2) := by
  cases pc <;> simp only [conditionTimedwait, Option.ite_none_right_eq_some, Option.some.injEq,
    Prod.mk.injEq, if_true] at h
  case l77 | l78 | l80 | l81 | l82 => cases hf
  case l66 =>
    obtain ⟨rfl, rfl, -⟩ := h
    refine ⟨fun g hg => ?_, fun t' ht' hm => ?_⟩
    · cases hg
      exact ⟨rfl, fun hcrit => by cases hcrit⟩
    · exact absurd (Option.some.inj (hm.symm.trans (hc rfl))) ht'
  case l67 | l68 =>
    obtain ⟨rfl, rfl, -⟩ := h
    refine ⟨fun g hg => ?_, fun t' ht' hm => hm⟩
    cases hg
    exact ⟨rfl, fun hcrit => by cases hcrit⟩
  case l69 =>
    obtain ⟨hnone, rfl, rfl, -⟩ := h
    refine ⟨fun g hg => ?_, fun t' _ hm => ?_⟩
    · cases hg
      exact ⟨rfl, fun _ => rfl⟩
    · cases hnone.symm.trans hm
  case l64 | l70 | l88 =>
    obtain ⟨rfl, rfl, -⟩ := h
    refine .of_same (hc rfl) rfl fun g hg => ?_
    cases hg
    split <;> rfl
  all_goals
    obtain ⟨rfl, rfl, -⟩ := h
    exact .of_same (hc rfl) rfl fun g hg => by cases hg <;> rfl

/-- …whatever the call. -/
theorem Frame.line_keeps (h : f.line true t now m = some (o, m', e)) (hf : f.threaded = true)
    (hc : f.critical = true → m.mutex = some t) : Keeps t m m' o := by
  cases f with
  | wait pc =>
    obtain ⟨pc', hl, rfl⟩ := Frame.line_wait h
    exact conditionWait_keeps hl hf hc
  | timedwait abstime tv pc =>
    obtain ⟨q, hl, rfl⟩ := Frame.line_timedwait h
    exact conditionTimedwait_keeps hl hf hc
  | signal pc =>
    cases pc <;> obtain ⟨rfl, rfl, rfl⟩ := h
    · refine .of_same (hc rfl) rfl fun g hg => ?_
      dsimp only [conditionSignal] at hg
      split at hg <;> cases hg
      rfl
    · exact .of_same (hc rfl) rfl fun g hg => by cases hg
  | broadcast =>
    obtain ⟨rfl, rfl, rfl⟩ := h
    exact .of_same (hc rfl) rfl fun g hg => by cases hg

end Frame

/-! ## The invariant -/

/-- **What a thread may rely on**: the calls below the innermost one are in `progress()`; with
threads it holds `m` where it has not given it back; and a wake-up it is about to take is there. -/
structure Own (u : Bool) (t : Tid) (k : List Frame) (m : Mem) : Prop where
  nested : ∀ g ∈ k.tail, g.inProgress = true
  threaded : u = true → ∀ f ∈ k, f.threaded = true
  holds : u = true → ∀ f ∈ k.head?, f.critical = true → m.mutex = some t
  found : ∀ f ∈ k.head?, f.taking = true → m.cond.c_signaled ≠ 0

/-- The wait calls of a stack that have registered and not deregistered. -/
def registrations (k : List Frame) : ℕ := k.countP Frame.registered

/-- **The counters are right**, `t₀` being the only thread without threads. -/
structure Sound (u : Bool) (t₀ : Tid) (s : St) : Prop where
  waiting : ∃ n : ℕ, Weighs registrations s n ∧ s.mem.cond.c_waiting = n
  signaled : 0 ≤ s.mem.cond.c_signaled
  own : ∀ t, Own u t (s.loc t) s.mem
  single : u = false → ∀ t, t ≠ t₀ → s.loc t = []

theorem start_sound (u : Bool) (t₀ : Tid) : Sound u t₀ start where
  waiting := ⟨0, ⟨∅, fun _ _ => rfl, rfl⟩, rfl⟩
  signaled := le_rfl
  own t := ⟨by simp [start], by simp [start], by simp [start], by simp [start]⟩
  single _ _ _ := rfl

section Step

variable {u : Bool} {t₀ t : Tid} {s : St} {a : Act} {k l : List Frame} {m m' : Mem} {e : Event}

/-- **What a thread does**: a line of its innermost call, or something of its own. -/
inductive Moves (u : Bool) (t : Tid) : List Frame → Mem → List Frame → Mem → Event → Prop
  | line {now : Timeval} {f : Frame} {o : Option Frame} {k : List Frame} {m m' : Mem} {e : Event} :
      f.line u t now m = some (o, m', e) → Moves u t (f :: k) m (o.toList ++ k) m' e
  | lock {k : List Frame} {m : Mem} : ownCode k = true → m.mutex = none →
      Moves u t k m k (m.lock t) .tau
  | unlock {k : List Frame} {m : Mem} : ownCode k = true → m.mutex = some t →
      Moves u t k m k m.unlock .tau
  | call {f : Frame} {k : List Frame} {m : Mem} : ownCode k = true → f.starts = true →
      (u = true → m.mutex = some t) → Moves u t k m (f :: k) m .tau

theorem moves_of_exec (h : exec u t a k m = some (l, m', e)) : Moves u t k m l m' e := by
  unfold exec at h
  split at h
  · obtain ⟨⟨o, m₁, e₁⟩, hl, hr⟩ := Option.map_eq_some_iff.mp h
    obtain ⟨rfl, rfl, rfl⟩ := hr
    exact .line hl
  · cases h
  · obtain ⟨⟨hk, hm⟩, hr⟩ := Option.ite_none_right_eq_some.mp h
    obtain ⟨rfl, rfl, rfl⟩ := hr
    exact .lock hk hm
  · obtain ⟨⟨hk, hm⟩, hr⟩ := Option.ite_none_right_eq_some.mp h
    obtain ⟨rfl, rfl, rfl⟩ := hr
    exact .unlock hk hm
  · obtain ⟨⟨hk, hf, hm⟩, hr⟩ := Option.ite_none_right_eq_some.mp h
    obtain ⟨rfl, rfl, rfl⟩ := hr
    exact .call hk hf hm

theorem Frame.of_starts {f : Frame} (h : f.starts = true) : f.registered = false ∧
    f.taking = false ∧ f.threaded = true ∧ f.critical = true := by
  cases f with
  | wait pc => cases pc <;> first | exact ⟨rfl, rfl, rfl, rfl⟩ | cases h
  | timedwait _ _ pc => cases pc <;> first | exact ⟨rfl, rfl, rfl, rfl⟩ | cases h
  | signal | broadcast => exact ⟨rfl, rfl, rfl, rfl⟩

theorem registrations_cons {f : Frame} :
    registrations (f :: k) = registrations k + if f.registered = true then 1 else 0 :=
  List.countP_cons

theorem registrations_append {o : Option Frame} : registrations (o.toList ++ k) =
    registrations k + if o.elim false Frame.registered = true then 1 else 0 := by
  cases o with
  | none => rfl
  | some f => exact registrations_cons

/-- **A step counts what it registers.** -/
theorem registrations_of_moves (hm : Moves u t k m l m' e) :
    m'.cond.c_waiting + registrations k = m.cond.c_waiting + registrations l := by
  cases hm with
  | lock | unlock => rfl
  | call _ hf => simp [registrations_cons, (Frame.of_starts hf).1]
  | line h =>
    have heff := Frame.line_effect h
    rw [registrations_cons, registrations_append]
    generalize m.cond = c at heff ⊢
    generalize m'.cond = c' at heff ⊢
    cases heff with
    | quiet hr => rw [hr]
    | register _ _ hf hg => simp [hf, hg]; omega
    | deregister _ hf ho => simp [hf, ho]
    | consume _ hr => simp [hr]
    | signal _ _ hf | broadcast _ hf => simp [hf]

/-- **A wake-up is taken only where there is one**, and signals are never owed. -/
theorem signaled_of_moves (ho : Own u t k m) (hw : 0 ≤ m.cond.c_waiting)
    (hs : 0 ≤ m.cond.c_signaled) (hm : Moves u t k m l m' e) :
    0 ≤ m'.cond.c_signaled ∧ (e = .consumed → 0 < m.cond.c_signaled) := by
  cases hm with
  | lock | unlock | call => exact ⟨hs, by simp⟩
  | @line _ f =>
    have hfound := ho.found f rfl
    have heff := Frame.line_effect ‹_›
    generalize m.cond = c at heff hfound hw hs ⊢
    generalize m'.cond = c' at heff ⊢
    cases heff with
    | quiet | register | deregister => exact ⟨hs, by simp⟩
    | consume hf =>
      have := hfound hf
      exact ⟨by dsimp only; omega, fun _ => by omega⟩
    | signal => exact ⟨by dsimp only; omega, by simp⟩
    | broadcast => exact ⟨hw, by simp⟩

/-- Only a call at a line that needs `m` touches `c_signaled`. -/
theorem signaled_eq_or_of_moves (hm : Moves u t k m l m' e) :
    m'.cond.c_signaled = m.cond.c_signaled ∨ ∃ f ∈ k.head?, f.critical = true := by
  cases hm with
  | lock | unlock | call => exact .inl rfl
  | @line _ f =>
    have heff := Frame.line_effect ‹_›
    generalize m.cond = c at heff ⊢
    generalize m'.cond = c' at heff ⊢
    cases heff with
    | quiet | register | deregister => exact .inl rfl
    | consume hf => exact .inr ⟨f, rfl, Frame.critical_of_taking hf⟩
    | signal _ hf | broadcast hf => exact .inr ⟨f, rfl, hf⟩

/-- A line goes on to take a wake-up only if it has seen one. -/
theorem Frame.found_of_line {now : Timeval} {f g : Frame}
    (h : f.line u t now m = some (some g, m', e)) (hg : g.taking = true) :
    m'.cond.c_signaled ≠ 0 := by
  have heff := Frame.line_effect h
  generalize m.cond = c at heff
  generalize m'.cond = c' at heff ⊢
  generalize ho : some g = o at heff
  cases heff with
  | quiet _ hfound => exact hfound g ho.symm hg
  | register _ _ _ _ hg' | consume _ _ hg' =>
    cases ho
    simp [hg] at hg'
  | deregister _ _ _ hg' =>
    subst ho
    simp [hg] at hg'
  | signal | broadcast => cases ho

/-- A thread in its own code, and about to be, relies on nothing but its calls being there. -/
theorem Own.of_inProgress (hk : ∀ f ∈ k, f.inProgress = true)
    (ht : u = true → ∀ f ∈ k, f.threaded = true) : Own u t k m := by
  have hcrit : ∀ f ∈ k.head?, f.critical = false := fun f hf =>
    Frame.not_critical_of_inProgress (hk f (List.mem_of_mem_head? hf))
  refine ⟨fun g hg => hk g (List.mem_of_mem_tail hg), ht, fun _ f hf hc => ?_,
    fun f hf htaking => ?_⟩
  · simp [hcrit f hf] at hc
  · have := Frame.critical_of_taking htaking
    simp [hcrit f hf] at this

/-- In its own code a thread has all its calls in `progress()`. -/
theorem Own.inProgress (ho : Own u t k m) (hk : ownCode k = true) :
    ∀ f ∈ k, f.inProgress = true := by
  cases k with
  | nil => exact fun _ hf => absurd hf List.not_mem_nil
  | cons f k => exact List.forall_mem_cons.mpr ⟨hk, ho.nested⟩

/-- A line of the innermost call keeps `m`. -/
theorem Own.line_keeps {now : Timeval} {f : Frame} {o : Option Frame} (ho : Own true t (f :: k) m)
    (h : f.line true t now m = some (o, m', e)) : Keeps t m m' o :=
  Frame.line_keeps h (ho.threaded rfl f List.mem_cons_self) (ho.holds rfl f rfl)

/-- **The thread's own step keeps its side.** -/
theorem Own.step (ho : Own u t k m) (hm : Moves u t k m l m' e) : Own u t l m' := by
  cases hm with
  | lock hk | unlock hk => exact .of_inProgress (ho.inProgress hk) ho.threaded
  | @call f _ _ hk hf hmu =>
    obtain ⟨-, htaking, hthreaded, -⟩ := Frame.of_starts hf
    refine ⟨ho.inProgress hk, fun hu => List.forall_mem_cons.mpr ⟨hthreaded, ho.threaded hu⟩,
      fun hu _ _ _ => hmu hu, fun g hg hgt => ?_⟩
    obtain rfl := Option.some.inj hg
    simp [htaking] at hgt
  | @line now f o k _ _ _ h =>
    have hthreaded : u = true → ∀ g ∈ k, g.threaded = true := fun hu g hg =>
      ho.threaded hu g (List.mem_cons_of_mem f hg)
    cases o with
    | none => exact .of_inProgress ho.nested hthreaded
    | some g =>
      have hkeeps : u = true → g.threaded = true ∧ (g.critical = true → m'.mutex = some t) := by
        rintro rfl
        exact (ho.line_keeps h).1 g rfl
      refine ⟨ho.nested, fun hu => List.forall_mem_cons.mpr ⟨(hkeeps hu).1, hthreaded hu⟩,
        fun hu g' hg' hc => ?_, fun g' hg' hgt => ?_⟩
      · obtain rfl := Option.some.inj hg'
        exact (hkeeps hu).2 hc
      · obtain rfl := Option.some.inj hg'
        exact Frame.found_of_line h hgt

/-- **Another thread's step keeps it too.** -/
theorem Own.other {t' : Tid} {k' : List Frame} (ho : Own true t k m) (ho' : Own true t' k' m)
    (hne : t' ≠ t) (hm : Moves true t k m l m' e) : Own true t' k' m' := by
  have hmutex : m.mutex = some t' → m'.mutex = some t' := by
    cases hm with
    | lock _ hnone => exact fun h => by cases hnone.symm.trans h
    | unlock _ hmu => exact fun h => absurd (Option.some.inj (h.symm.trans hmu)) hne
    | call => exact id
    | line h => exact (ho.line_keeps h).2 t' hne
  refine ⟨ho'.nested, ho'.threaded, fun hu f hf hc => hmutex (ho'.holds hu f hf hc),
    fun f hf htaking => ?_⟩
  rcases signaled_eq_or_of_moves hm with hsame | ⟨g, hg, hgc⟩
  · rw [hsame]
    exact ho'.found f hf htaking
  · -- both would hold `m`
    have ht := ho.holds rfl g hg hgc
    have ht' := ho'.holds rfl f hf (Frame.critical_of_taking htaking)
    exact absurd (Option.some.inj (ht'.symm.trans ht)) hne

/-- **One step keeps the counters right**; without threads it is the one thread's. -/
theorem Sound.step (i : Sound u t₀ s) (hE : u = false → t = t₀)
    (h : exec u t a (s.loc t) s.mem = some (l, m, e)) : Sound u t₀ (s.move t l m) := by
  have hm := moves_of_exec h
  obtain ⟨n, hn, hcount⟩ := i.waiting
  have hreg := registrations_of_moves hm
  have hsig := signaled_of_moves (i.own t) (by omega) i.signaled hm
  refine ⟨?_, hsig.1, ?_, fun hu t' ht' => ?_⟩
  · have hle := hn.le t
    refine ⟨n + registrations l - registrations (s.loc t), hn.move (by omega), ?_⟩
    rw [State.move_mem]
    omega
  · refine (State.forall_move s t l m (A := fun t k => Own u t k m)).mpr
      ⟨(i.own t).step hm, fun t' hne => ?_⟩
    cases u with
    | true => exact (i.own t).other (i.own t') hne hm
    | false =>
      rw [i.single rfl t' (hE rfl ▸ hne)]
      exact .of_inProgress (by simp) (by simp)
  · rw [State.move_loc_of_ne _ _ _ _ (hE hu ▸ ht')]
    exact i.single hu t' ht'

end Step

/-! ## The counters in runs -/

/-- **A run keeps the counters right.** -/
theorem sound_of_path {u : Bool} {t₀ : Tid} {s : St}
    {π : List (Transition Tid (List Frame) Mem Act Event)} (hp : (lines u).Path start π s)
    (hE : ∀ x ∈ π, u = false → x.tid = t₀) : Sound u t₀ s :=
  hp.invariant (fun _ s => Sound u t₀ s) (fun _ t _ => u = false → t = t₀)
    (fun _ _ _ _ _ _ _ i hE h => i.step hE h) hE (start_sound u t₀)

/-- …and takes no wake-up that is not there. -/
theorem consumed_of_path {u : Bool} {t₀ : Tid} {s : St}
    {π : List (Transition Tid (List Frame) Mem Act Event)} (hp : (lines u).Path start π s)
    (hE : ∀ x ∈ π, u = false → x.tid = t₀) :
    ∀ x ∈ π, x.ev = .consumed → x.pre.mem.cond.c_signaled ≠ 0 := by
  induction hp with
  | nil => exact fun _ hx => absurd hx List.not_mem_nil
  | snoc hp hstep ih =>
    obtain ⟨-, hE⟩ := List.forall_mem_cons.mp hE
    obtain ⟨l, m, hexec, -⟩ := step_eq_some.mp hstep
    refine List.forall_mem_cons.mpr ⟨fun he => ?_, ih hE⟩
    have i := sound_of_path hp hE
    obtain ⟨n, -, hcount⟩ := i.waiting
    have hpos := (signaled_of_moves (i.own _) (by omega) i.signaled (moves_of_exec hexec)).2 he
    exact Int.ne_of_gt hpos

end Libult.Condition.Lines
