import Libult.Interleaving.Stored

/-!
# Condition/Code — `condition_t`, one stretch under the mutex a step

Every call is made with `m` held, and `using_threads()` is true.  What a thread does between taking
`m` and releasing it is one step: the functions below compute the counters such a stretch leaves and
where the thread goes on.  Between stretches it is in `progress()`.

    holding ─condition_wait─▸ polling ─(m, c_signaled ≠ 0)─▸ holding
          ╰──── c_signaled ≠ 0: early ─(m)─▸ holding
-/

namespace Libult.Condition

open Interleaving

/-- A thread. -/
abbrev Tid := ℕ

/-- The counters of a `condition_t`, as the code computes them. -/
structure Counters where
  c_waiting : ℤ
  c_signaled : ℤ
  deriving DecidableEq, Repr

/-- What is kept of them: they are `int`s. -/
def Counters.ints (c : Counters) : Counters := ⟨int32 c.c_waiting, int32 c.c_signaled⟩

/-- The counters are below 2³¹. -/
def Counters.Below (c : Counters) : Prop := c.c_waiting < 2 ^ 31 ∧ c.c_signaled < 2 ^ 31

/-- An `int` keeps them, then. -/
theorem Counters.ints_eq {c : Counters} (hw : 0 ≤ c.c_waiting) (hs : 0 ≤ c.c_signaled)
    (h : c.Below) : c.ints = c := by
  obtain ⟨hwlt, hslt⟩ := h
  rw [ints, int32_of_mem (by omega) hwlt, int32_of_mem (by omega) hslt]

/-- `condition_construct`. -/
def conditionConstruct : Counters := ⟨0, 0⟩

/-- `struct timespec`. -/
structure Timespec where
  tv_sec : ℤ
  tv_nsec : ℤ
  deriving DecidableEq, Repr

/-- `struct timeval`. -/
structure Timeval where
  tv_sec : ℤ
  tv_usec : ℤ
  deriving DecidableEq, Repr

/-- `absolute.tv_sec = abstime->tv_sec; absolute.tv_usec = abstime->tv_nsec / 1000`. -/
def Timespec.absolute (abstime : Timespec) : Timeval :=
  ⟨abstime.tv_sec, abstime.tv_nsec.tdiv 1000⟩

/-- Where a thread is between its stretches. -/
inductive Point
  /-- Without `m`. -/
  | outside
  /-- With `m`, in none of the calls. -/
  | holding
  /-- In `condition_wait`'s early return: `progress()`, then `m` again. -/
  | early
  /-- In the loop of `condition_wait`. -/
  | polling
  /-- In the loop of `condition_timedwait`. -/
  | timedPolling (absolute : Timeval)
  deriving DecidableEq, Repr

/-! ## The stretches -/

/-- `condition_wait` up to its first `mutex_unlock(m)`. -/
def conditionWait (c : Counters) : Counters × Point :=
  let c := { c with c_waiting := c.c_waiting + 1 }
  if c.c_signaled ≠ 0 then
    ({ c with c_waiting := c.c_waiting - 1 }, .early)
  else
    (c, .polling)

/-- `condition_wait` from the `mutex_lock(m)` of its loop: once more round, or out. -/
def conditionWaitPoll (c : Counters) : Counters × Point :=
  if 0 = c.c_signaled then (c, .polling)
  else (⟨c.c_waiting - 1, c.c_signaled - 1⟩, .holding)

/-- The end of `condition_timedwait`. -/
def conditionTimedwaitEnd (c : Counters) : Counters :=
  let c := if 0 ≠ c.c_signaled then { c with c_signaled := c.c_signaled - 1 } else c
  { c with c_waiting := c.c_waiting - 1 }

/-- `condition_timedwait` up to its first `mutex_unlock(m)`, or its return. -/
def conditionTimedwait (abstime : Timespec) (c : Counters) : Counters × Point :=
  let c := { c with c_waiting := c.c_waiting + 1 }
  if 0 = c.c_signaled then (c, .timedPolling abstime.absolute)
  else (conditionTimedwaitEnd c, .holding)

/-- `condition_timedwait` from the `mutex_lock(m)` of its loop, `tv` being what `gettimeofday`
returned before it. -/
def conditionTimedwaitPoll (absolute tv : Timeval) (c : Counters) : Counters × Point :=
  if 0 = c.c_signaled ∧ (tv.tv_sec ≤ absolute.tv_sec ∨
      (tv.tv_sec = absolute.tv_sec ∧ tv.tv_usec < absolute.tv_usec)) then
    (c, .timedPolling absolute)
  else (conditionTimedwaitEnd c, .holding)

def conditionSignal (c : Counters) : Counters :=
  if c.c_waiting ≠ 0 then { c with c_signaled := c.c_signaled + 1 } else c

def conditionBroadcast (c : Counters) : Counters := { c with c_signaled := c.c_waiting }

/-! ## The program -/

/-- What the threads share. -/
structure Mem where
  cond : Counters
  /-- The thread that holds `m`. -/
  mutex : Option Tid
  deriving DecidableEq, Repr

/-- What a thread can do next. -/
inductive Act
  /-- Take and release `m` around the calls. -/
  | lock
  | unlock
  | wait
  | timedwait (abstime : Timespec)
  /-- Take `m` again after `progress()`, the clock then showing `tv`. -/
  | resume (tv : Timeval)
  | signal
  | broadcast
  deriving DecidableEq, Repr

/-- A call of `condition_wait` or `condition_timedwait`. -/
def Act.begins : Act → Bool
  | .wait | .timedwait _ => true
  | _ => false

/-- What a step shows: whether it took a wake-up (`c_signaled--`). -/
inductive Event
  | tau
  | consumed
  deriving DecidableEq, Repr

/-- A stretch by `t` that leaves `c` and goes on at `p`; it has `m` still if it has returned. -/
def stretch (t : Tid) (before : Counters) (r : Counters × Point) : Point × Mem × Event :=
  (r.2, ⟨r.1, if r.2 = .holding then some t else none⟩,
    if r.1.c_signaled < before.c_signaled then .consumed else .tau)

/-- One action of one thread. -/
def exec (t : Tid) (a : Act) (p : Point) (m : Mem) : Option (Point × Mem × Event) :=
  match a, p with
  | .lock, .outside =>
      if m.mutex = none then some (.holding, { m with mutex := some t }, .tau) else none
  | .unlock, .holding => some (.outside, { m with mutex := none }, .tau)
  | .wait, .holding => some (stretch t m.cond (conditionWait m.cond))
  | .timedwait abstime, .holding => some (stretch t m.cond (conditionTimedwait abstime m.cond))
  | .resume _, .early =>
      if m.mutex = none then some (.holding, { m with mutex := some t }, .tau) else none
  | .resume _, .polling =>
      if m.mutex = none then some (stretch t m.cond (conditionWaitPoll m.cond)) else none
  | .resume tv, .timedPolling absolute =>
      if m.mutex = none then
        some (stretch t m.cond (conditionTimedwaitPoll absolute tv m.cond))
      else none
  | .signal, .holding => some (.holding, { m with cond := conditionSignal m.cond }, .tau)
  | .broadcast, .holding => some (.holding, { m with cond := conditionBroadcast m.cond }, .tau)
  | _, _ => none

/-- **The condition variable** as a program, its counters integers. -/
def condition : Program Tid Point Mem Act Event := ⟨exec⟩

/-- The memory with the counters in `int`s. -/
def Mem.ints (m : Mem) : Mem := { m with cond := m.cond.ints }

/-- **…and with its counters in `int`s.** -/
def intCondition : Program Tid Point Mem Act Event := condition.stored Mem.ints

/-- A state of it. -/
abbrev St := State Tid Point Mem

/-- A constructed condition, `m` free. -/
def start : St := ⟨fun _ => .outside, ⟨conditionConstruct, none⟩⟩

/-- A registered waiter; an early return has given its registration back, and needs no wake-up. -/
def Point.inside : Point → Bool
  | .polling | .timedPolling _ => true
  | _ => false

/-- In `condition_wait` or `condition_timedwait`, its early return included. -/
def Point.within : Point → Bool
  | .early | .polling | .timedPolling _ => true
  | _ => false

theorem Point.within_iff {p : Point} : p.within = true ↔ p.inside = true ∨ p = .early := by
  cases p <;> simp [within, inside]

/-! ## The ways a step treats the counters -/

/-- **What a step does to the counters and to its thread**: the seven ways. -/
inductive Moves : Act → Point → Counters → Point → Counters → Event → Prop
  /-- Nothing. -/
  | stay {a : Act} {p l : Point} {c : Counters} : l = p ∨ p.inside = false ∧ l.inside = false →
      (a = .signal → c.c_waiting = 0) → a ≠ .broadcast → (a = .wait → c.c_signaled ≠ 0) →
      Moves a p c l c .tau
  /-- A wait begins. -/
  | enter {a : Act} {p l : Point} {c : Counters} : p.inside = false → l.inside = true →
      a.begins = true → (a = .wait → l = .polling) → c.c_signaled = 0 →
      Moves a p c l { c with c_waiting := c.c_waiting + 1 } .tau
  /-- A wait ends with a wake-up. -/
  | leave {tv : Timeval} {p l : Point} {c : Counters} : p.inside = true → l.inside = false →
      c.c_signaled ≠ 0 →
      Moves (.resume tv) p c l ⟨c.c_waiting - 1, c.c_signaled - 1⟩ .consumed
  /-- A timed wait ends without. -/
  | expire {tv absolute : Timeval} {l : Point} {c : Counters} : l.inside = false →
      c.c_signaled = 0 →
      Moves (.resume tv) (.timedPolling absolute) c l { c with c_waiting := c.c_waiting - 1 } .tau
  /-- A timed wait takes a wake-up as it begins. -/
  | take {abstime : Timespec} {p l : Point} {c : Counters} : p.inside = false → l.inside = false →
      c.c_signaled ≠ 0 →
      Moves (.timedwait abstime) p c l { c with c_signaled := c.c_signaled - 1 } .consumed
  /-- A signal that finds somebody registered. -/
  | signal {p : Point} {c : Counters} : p.inside = false → c.c_waiting ≠ 0 →
      Moves .signal p c p { c with c_signaled := c.c_signaled + 1 } .tau
  | broadcast {p : Point} {c : Counters} : p.inside = false →
      Moves .broadcast p c p { c with c_signaled := c.c_waiting } .tau

section Stretches

variable {c : Counters}

theorem conditionWait_of_ne (h : c.c_signaled ≠ 0) : conditionWait c = (c, .early) := by
  simp [conditionWait, h]

theorem conditionWait_of_eq (h : c.c_signaled = 0) :
    conditionWait c = ({ c with c_waiting := c.c_waiting + 1 }, .polling) := by
  simp [conditionWait, h]

theorem conditionTimedwaitEnd_of_ne (h : c.c_signaled ≠ 0) :
    conditionTimedwaitEnd c = ⟨c.c_waiting - 1, c.c_signaled - 1⟩ := by
  simp [conditionTimedwaitEnd, Ne.symm h]

theorem conditionTimedwaitEnd_of_eq (h : c.c_signaled = 0) :
    conditionTimedwaitEnd c = { c with c_waiting := c.c_waiting - 1 } := by
  simp [conditionTimedwaitEnd, h]

end Stretches

/-- A stretch that leaves `c_signaled` takes no wake-up… -/
theorem Moves.of_stretch {t : Tid} {a : Act} {p : Point} {c : Counters} {r : Counters × Point}
    (hs : r.1.c_signaled = c.c_signaled) (h : Moves a p c r.2 r.1 .tau) :
    Moves a p c r.2 r.1 (stretch t c r).2.2 := by
  have htau : (stretch t c r).2.2 = .tau := if_neg (by omega)
  rwa [htau]

/-- …and one that lowers it takes one. -/
theorem Moves.of_stretch_consumed {t : Tid} {a : Act} {p : Point} {c : Counters}
    {r : Counters × Point} (hs : r.1.c_signaled = c.c_signaled - 1)
    (h : Moves a p c r.2 r.1 .consumed) : Moves a p c r.2 r.1 (stretch t c r).2.2 := by
  have hconsumed : (stretch t c r).2.2 = .consumed := if_pos (by omega)
  rwa [hconsumed]

theorem conditionWait_moves (t : Tid) (c : Counters) :
    Moves .wait .holding c (conditionWait c).2 (conditionWait c).1
      (stretch t c (conditionWait c)).2.2 := by
  by_cases h : c.c_signaled = 0
  · rw [conditionWait_of_eq h]
    exact .of_stretch rfl (.enter rfl rfl rfl (fun _ => rfl) h)
  · rw [conditionWait_of_ne h]
    exact .of_stretch rfl (.stay (.inr ⟨rfl, rfl⟩) (by simp) (by simp) fun _ => h)

theorem conditionWaitPoll_moves (t : Tid) (tv : Timeval) (c : Counters) :
    Moves (.resume tv) .polling c (conditionWaitPoll c).2 (conditionWaitPoll c).1
      (stretch t c (conditionWaitPoll c)).2.2 := by
  by_cases h : c.c_signaled = 0
  · rw [show conditionWaitPoll c = (c, .polling) by simp [conditionWaitPoll, h]]
    exact .of_stretch rfl (.stay (.inl rfl) (by simp) (by simp) (by simp))
  · rw [show conditionWaitPoll c = (⟨c.c_waiting - 1, c.c_signaled - 1⟩, .holding) by
      simp [conditionWaitPoll, Ne.symm h]]
    exact .of_stretch_consumed rfl (.leave rfl rfl h)

theorem conditionTimedwait_moves (t : Tid) (abstime : Timespec) (c : Counters) :
    Moves (.timedwait abstime) .holding c (conditionTimedwait abstime c).2
      (conditionTimedwait abstime c).1 (stretch t c (conditionTimedwait abstime c)).2.2 := by
  by_cases h : c.c_signaled = 0
  · rw [show conditionTimedwait abstime c =
      ({ c with c_waiting := c.c_waiting + 1 }, .timedPolling abstime.absolute) by
        simp [conditionTimedwait, h]]
    exact .of_stretch rfl (.enter rfl rfl rfl (by simp) h)
  · rw [show conditionTimedwait abstime c =
      ({ c with c_signaled := c.c_signaled - 1 }, .holding) by
        simp [conditionTimedwait, conditionTimedwaitEnd, Ne.symm h]]
    exact .of_stretch_consumed rfl (.take rfl rfl h)

theorem conditionTimedwaitPoll_moves (t : Tid) (absolute tv : Timeval) (c : Counters) :
    Moves (.resume tv) (.timedPolling absolute) c (conditionTimedwaitPoll absolute tv c).2
      (conditionTimedwaitPoll absolute tv c).1
      (stretch t c (conditionTimedwaitPoll absolute tv c)).2.2 := by
  unfold conditionTimedwaitPoll
  split
  · exact .of_stretch rfl (.stay (.inl rfl) (by simp) (by simp) (by simp))
  · by_cases h : c.c_signaled = 0
    · rw [conditionTimedwaitEnd_of_eq h]
      exact .of_stretch rfl (.expire rfl h)
    · rw [conditionTimedwaitEnd_of_ne h]
      exact .of_stretch_consumed rfl (.leave rfl rfl h)

theorem conditionSignal_moves (c : Counters) :
    Moves .signal .holding c .holding (conditionSignal c) .tau := by
  unfold conditionSignal
  split
  · exact .signal rfl ‹_›
  · exact .stay (.inl rfl) (fun _ => not_not.mp ‹_›) (by simp) (by simp)

/-- **Every step is one of these moves.** -/
theorem moves_of_exec {t : Tid} {a : Act} {p l : Point} {m m' : Mem} {e : Event}
    (h : exec t a p m = some (l, m', e)) : Moves a p m.cond l m'.cond e := by
  unfold exec at h
  split at h <;> simp only [stretch, Option.ite_none_right_eq_some, Option.some.injEq,
    Prod.mk.injEq, reduceCtorEq] at h
  · obtain ⟨-, rfl, rfl, rfl⟩ := h
    exact .stay (.inr ⟨rfl, rfl⟩) (by simp) (by simp) (by simp)
  · obtain ⟨rfl, rfl, rfl⟩ := h
    exact .stay (.inr ⟨rfl, rfl⟩) (by simp) (by simp) (by simp)
  · obtain ⟨rfl, rfl, rfl⟩ := h
    exact conditionWait_moves t m.cond
  · obtain ⟨rfl, rfl, rfl⟩ := h
    exact conditionTimedwait_moves t _ m.cond
  · obtain ⟨-, rfl, rfl, rfl⟩ := h
    exact .stay (.inr ⟨rfl, rfl⟩) (by simp) (by simp) (by simp)
  · obtain ⟨-, rfl, rfl, rfl⟩ := h
    exact conditionWaitPoll_moves t _ m.cond
  · obtain ⟨-, rfl, rfl, rfl⟩ := h
    exact conditionTimedwaitPoll_moves t _ _ m.cond
  · obtain ⟨rfl, rfl, rfl⟩ := h
    exact conditionSignal_moves m.cond
  · obtain ⟨rfl, rfl, rfl⟩ := h
    exact .broadcast rfl

/-- The early return is taken by a wait as it begins. -/
theorem holding_of_early {t : Tid} {a : Act} {p : Point} {m m' : Mem} {e : Event}
    (h : exec t a p m = some (.early, m', e)) : p = .holding := by
  unfold exec at h
  split at h <;> simp only [stretch, Option.ite_none_right_eq_some, Option.some.injEq,
    Prod.mk.injEq, reduceCtorEq, false_and, and_false] at h
  · rfl
  · rfl
  · obtain ⟨-, h, -⟩ := h
    unfold conditionWaitPoll at h
    split at h <;> cases h
  · obtain ⟨-, h, -⟩ := h
    unfold conditionTimedwaitPoll at h
    split at h <;> cases h

end Libult.Condition
