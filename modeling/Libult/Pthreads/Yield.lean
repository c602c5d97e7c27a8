import Libult.Interleaving.Program
import Libult.Pthreads.Nanosecs
import Mathlib.Order.Bounds.Basic

/-!
# Pthreads/Yield — how long a yield sleeps

`threads_pthreads_yield_init` keeps the time a yield sleeps as a count of nanoseconds and as a
`struct timespec`, and goes from each to the other through a `double`.  `nanosleep` takes no
`timespec` whose nanoseconds are negative, or a second and more.

    yield_nsleep_time ─ * 1E9, + ─▸ yield_nsleep_nanosecs ─ / 1E9, - ─▸ yield_nsleep_time
                                             ▴
                                 mca_base_component_var_register
-/

namespace Libult.Pthreads

open Interleaving Program

/-- A thread. -/
abbrev Tid := ℕ

/-! ## The code -/

/-- `threads_pthreads_yield_strategy_t`. -/
inductive YieldStrategy
  | schedYield -- PTHREADS_YIELD_SCHED_YIELD = 0
  | nanosleep -- PTHREADS_YIELD_NANOSLEEP
  deriving DecidableEq, Repr

/-- What `threads_pthreads_yield_fn` points to. -/
inductive YieldFn
  | schedYield -- thread_pthreads_yield_sched_yield
  | nanosleep -- thread_pthreads_yield_nanosleep
  deriving DecidableEq, Repr

/-- The statics of `threads_pthreads_yield.c`. -/
structure Mem where
  yieldNsleepNanosecs : UInt64
  yieldNsleepTime : Timespec
  yieldStrategy : YieldStrategy
  threadsPthreadsYieldFn : YieldFn
  deriving DecidableEq, Repr

/-- What the user has set when the variables are registered.  `mca_base_component_var_register` is
not under `src/`: it leaves what is set in the variable, and the variable alone where nothing is. -/
structure Settings where
  yieldStrategy : Option YieldStrategy
  nanosleepTime : Option UInt64
  deriving DecidableEq, Repr

/-- What a thread shows of what it does. -/
inductive Event
  /-- `nanosleep_time` is registered with this default, and this is set. -/
  | registered (dflt : UInt64) (set : Settings)
  /-- `sched_yield()`. -/
  | schedYield
  /-- `nanosleep(&yield_nsleep_time, NULL)`. -/
  | nanosleep (time : Timespec)
  deriving DecidableEq, Repr

/-- `threads_pthreads_yield_init(component)`. -/
def threadsPthreadsYieldInit (set : Settings) (m : Mem) : Mem × Event :=
  let strategy := set.yieldStrategy.getD m.yieldStrategy
  let fn := match strategy with
    | .nanosleep => .nanosleep
    | .schedYield => m.threadsPthreadsYieldFn -- use initial value
  let dflt := m.yieldNsleepTime.nanosecs
  let nanosecs := set.nanosleepTime.getD dflt
  (⟨nanosecs, .ofNanosecs nanosecs, strategy, fn⟩, .registered dflt set)

/-- `thread_yield()`. -/
def threadYield (m : Mem) : Event :=
  match m.threadsPthreadsYieldFn with
  | .schedYield => .schedYield
  | .nanosleep => .nanosleep m.yieldNsleepTime

/-- What a thread can do next. -/
inductive Act
  | yieldInit (set : Settings)
  | threadYield
  deriving DecidableEq, Repr

/-- One action of one thread: a call is one step. -/
def exec (_ : Tid) (a : Act) (_ : Unit) (m : Mem) : Option (Unit × Mem × Event) :=
  match a with
  | .yieldInit set => some ((), threadsPthreadsYieldInit set m)
  | .threadYield => some ((), m, threadYield m)

/-- **The yields of the pthreads backend** as a program. -/
def yields : Program Tid Unit Mem Act Event := ⟨exec⟩

/-- A state of it. -/
abbrev St := State Tid Unit Mem

theorem step_yieldInit (s : St) (t : Tid) (set : Settings) :
    yields.step s t (.yieldInit set)
      = some (s.move t () (threadsPthreadsYieldInit set s.mem).1,
        (threadsPthreadsYieldInit set s.mem).2) := rfl

theorem step_threadYield (s : St) (t : Tid) :
    yields.step s t .threadYield = some (s.move t () s.mem, threadYield s.mem) := rfl

/-- The statics as they are initialised. -/
def start : St := ⟨fun _ => (), 0, ⟨0, 1⟩, .schedYield, .schedYield⟩

/-! ## One call -/

theorem yieldNsleepTime_of_set {set : Settings} {n : UInt64} (h : set.nanosleepTime = some n)
    (m : Mem) : (threadsPthreadsYieldInit set m).1.yieldNsleepTime = .ofNanosecs n := by
  simp only [threadsPthreadsYieldInit, h, Option.getD_some]

/-- **How long a yield sleeps.**  What is set is the time in its two parts, up to 73 years; that
`nanosleep` takes them fails first at a hundred days, a nanosecond short of a second. -/
theorem yield_nsleep_time :
    (∀ (set : Settings) (m : Mem) (n : UInt64) (t : Timespec), set.nanosleepTime = some n →
      (threadsPthreadsYieldInit set m).1.yieldNsleepTime = t → n.toNat < 2 ^ 61 →
        t.tv_sec.toInt * 10 ^ 9 + t.tv_nsec.toInt = n.toNat ∧ (t.Valid ↔ t.Is n.toNat)) ∧
      IsLeast {n : UInt64 | ∃ set m, set.nanosleepTime = some n ∧
        ¬ (threadsPthreadsYieldInit set m).1.yieldNsleepTime.Valid} 9007199999999999 := by
  refine ⟨?_, ?_, ?_⟩
  · rintro set m n t hset rfl hn
    rw [yieldNsleepTime_of_set hset]
    have hsum := ofNanosecs_sum hn
    refine ⟨hsum, fun ⟨_, h0, h1⟩ => ⟨?_, ?_⟩, Timespec.Is.valid⟩ <;> omega
  · refine ⟨⟨none, some 9007199999999999⟩, start.mem, rfl, fun h => ?_⟩
    rw [yieldNsleepTime_of_set rfl] at h
    -- 9007200 seconds
    have hnsec : (Timespec.ofNanosecs 9007199999999999).tv_nsec.toInt = -1 := by decide +kernel
    have := h.nsec_nonneg
    omega
  · rintro n ⟨set, m, hset, hinvalid⟩
    rw [yieldNsleepTime_of_set hset] at hinvalid
    rw [UInt64.le_iff_toNat_le]
    by_contra hlt
    exact hinvalid (is_ofNanosecs (not_le.mp hlt)).valid

/-- …such as an hour. -/
theorem yield_nsleep_time_hour :
    (threadsPthreadsYieldInit ⟨none, some 3600000000000⟩ start.mem).1.yieldNsleepTime.Valid ↔
      (threadsPthreadsYieldInit ⟨none, some 3600000000000⟩ start.mem).1.yieldNsleepTime.Is
        3600000000000 :=
  (yield_nsleep_time.1 _ _ 3600000000000 _ rfl rfl (by decide)).2

/-! ## Every yield of a run -/

/-- The time that was set last. -/
def lastTime : List Event → ℕ
  | [] => 1
  | .registered _ ⟨_, some n⟩ :: _ => n.toNat
  | _ :: h => lastTime h

/-- `nanosleep` has been set. -/
def Asked (h : List Event) : Prop :=
  ∃ dflt set, .registered dflt set ∈ h ∧ set.yieldStrategy = some .nanosleep

/-- What is shown after `h`: the time that was set last is the default of the next registration, and
is slept once `nanosleep` has been set. -/
def Proper (h : List Event) : Event → Prop
  | .registered dflt _ => dflt.toNat = lastTime h
  | .schedYield => ¬ Asked h
  | .nanosleep time => Asked h ∧ time.Is (lastTime h)

/-- A time that is set is a number of 53 bits. -/
def Act.Short : Act → Prop
  | .yieldInit set => ∀ n, set.nanosleepTime = some n → n.toNat < 2 ^ 53
  | .threadYield => True

/-- **The invariant of the runs.** -/
structure Keeps (h : List Event) (s : St) : Prop where
  short : lastTime h < 2 ^ 53
  time : s.mem.yieldNsleepTime.Is (lastTime h)
  fn : s.mem.threadsPthreadsYieldFn = .nanosleep ↔ Asked h
  strategy : s.mem.yieldStrategy = .nanosleep → Asked h
  proper : ∀ h₁ e h₂, h = h₁ ++ e :: h₂ → Proper h₂ e

theorem asked_cons {e : Event} {h : List Event} :
    Asked (e :: h) ↔ (∃ dflt set, e = .registered dflt set ∧ set.yieldStrategy = some .nanosleep) ∨
      Asked h := by
  simp only [Asked, List.mem_cons, or_and_right, exists_or, eq_comm]

theorem proper_cons {e : Event} {h : List Event} (he : Proper h e)
    (hh : ∀ h₁ e' h₂, h = h₁ ++ e' :: h₂ → Proper h₂ e') :
    ∀ h₁ e' h₂, e :: h = h₁ ++ e' :: h₂ → Proper h₂ e' := by
  intro h₁ e' h₂ heq
  cases h₁ with
  | nil =>
    obtain ⟨rfl, rfl⟩ := List.cons.inj heq
    exact he
  | cons e₁ h₁ => exact hh h₁ e' h₂ (List.cons.inj heq).2

theorem start_keeps : Keeps [] start where
  short := by norm_num [lastTime]
  time := ⟨rfl, rfl⟩
  fn := by simp [start, Asked]
  strategy h := by cases h
  proper h₁ e h₂ h := by simp at h

section Step

variable {h : List Event} {s : St} {t : Tid}

theorem Keeps.threadYield_step (i : Keeps h s) :
    Keeps (threadYield s.mem :: h) (s.move t () s.mem) := by
  have hasked : Asked (threadYield s.mem :: h) ↔ Asked h := by
    rw [asked_cons, or_iff_right]
    rintro ⟨dflt, set, he, -⟩
    cases hfn : s.mem.threadsPthreadsYieldFn <;> simp [threadYield, hfn] at he
  have hlast : lastTime (threadYield s.mem :: h) = lastTime h := by
    cases hfn : s.mem.threadsPthreadsYieldFn <;> simp [threadYield, hfn, lastTime]
  have he : Proper h (threadYield s.mem) := by
    cases hfn : s.mem.threadsPthreadsYieldFn with
    | schedYield =>
      rw [threadYield, hfn]
      exact fun hc => by simpa [hfn] using i.fn.mpr hc
    | nanosleep =>
      rw [threadYield, hfn]
      exact ⟨i.fn.mp hfn, i.time⟩
  exact ⟨hlast ▸ i.short, hlast ▸ i.time, i.fn.trans hasked.symm,
    fun hs => hasked.mpr (i.strategy hs), proper_cons he i.proper⟩

theorem Keeps.yieldInit_step (i : Keeps h s) {set : Settings}
    (hset : ∀ n, set.nanosleepTime = some n → n.toNat < 2 ^ 53) :
    Keeps ((threadsPthreadsYieldInit set s.mem).2 :: h)
      (s.move t () (threadsPthreadsYieldInit set s.mem).1) := by
  have dflt := i.time.toNat_nanosecs i.short
  -- what is in the variable after the registration
  have last : lastTime ((threadsPthreadsYieldInit set s.mem).2 :: h)
      = (set.nanosleepTime.getD s.mem.yieldNsleepTime.nanosecs).toNat := by
    obtain ⟨strategy, _ | n⟩ := set
    · exact dflt.symm
    · rfl
  have short : (set.nanosleepTime.getD s.mem.yieldNsleepTime.nanosecs).toNat < 2 ^ 53 := by
    cases hn : set.nanosleepTime with
    | none => exact dflt.trans_lt i.short
    | some n => exact hset n hn
  have asked : Asked ((threadsPthreadsYieldInit set s.mem).2 :: h) ↔
      set.yieldStrategy = some .nanosleep ∨ Asked h := by
    rw [asked_cons]
    simp [threadsPthreadsYieldInit]
  refine ⟨last ▸ short, last ▸ is_ofNanosecs (by omega), ?_, ?_, proper_cons dflt i.proper⟩
  · rw [asked, ← i.fn, State.move_mem]
    obtain ⟨_ | _ | _, n⟩ := set
    · cases hs : s.mem.yieldStrategy with
      | schedYield => simp [threadsPthreadsYieldInit, hs]
      | nanosleep => simp [threadsPthreadsYieldInit, hs, i.fn.mpr (i.strategy hs)]
    · simp [threadsPthreadsYieldInit]
    · simp [threadsPthreadsYieldInit]
  · rw [asked, State.move_mem]
    obtain ⟨_ | _ | _, n⟩ := set
    · exact fun hs => .inr (i.strategy hs)
    · exact fun hs => by cases hs
    · exact fun _ => .inl rfl

end Step

/-- **Every yield sleeps what was set last**, once `nanosleep` has been set — whatever strategy is
set after that —, and what was set last is the default of the next registration. -/
theorem yields_what_is_set {s : St} {π : List (Transition Tid Unit Mem Act Event)}
    (hp : yields.Path start π s) (hE : Allowed (fun _ _ a => a.Short) π) {h₁ h₂ : List Event}
    {e : Event} (hh : events π = h₁ ++ e :: h₂) : Proper h₂ e := by
  refine (hp.invariant Keeps _ ?_ hE start_keeps).proper h₁ e h₂ hh
  intro h s t a l m e i ha hx
  cases a with
  | yieldInit set =>
    obtain ⟨rfl, rfl, rfl⟩ := by simpa [yields, exec] using hx
    exact i.yieldInit_step ha
  | threadYield =>
    obtain ⟨rfl, rfl, rfl⟩ := by simpa [yields, exec] using hx
    exact i.threadYield_step

/-- …such as a second and a half, with `sched_yield` set after it. -/
theorem yields_second_and_half :
    Proper [.registered 1500000000 ⟨some .schedYield, none⟩,
      .registered 1 ⟨some .nanosleep, some 1500000000⟩] (.nanosleep ⟨1, 500000000⟩) := by
  have path := (((Path.nil start).snoc (step_yieldInit _ 0 ⟨some .nanosleep, some 1500000000⟩)).snoc
    (step_yieldInit _ 0 ⟨some .schedYield, none⟩)).snoc (step_threadYield _ 1)
  refine yields_what_is_set path ?_ (show _ = [] ++ _ :: _ by decide +kernel)
  simp [Allowed, Act.Short]

end Libult.Pthreads
