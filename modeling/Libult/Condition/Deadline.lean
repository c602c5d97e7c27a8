import Libult.Condition.Code
import Mathlib.Data.Nat.Find
import Mathlib.Data.Prod.Lex

/-!
# Condition/Deadline — when `condition_timedwait` stops polling

A round of the loop ends with the clock reading `tv` and a test of `c_signaled`.  The test compares
the reading with the deadline in two disjuncts, of which the first, `tv_sec <= absolute.tv_sec`,
holds throughout the deadline's own second; the second, on the microseconds, decides nothing.
-/

namespace Libult.Condition

/-! ## First rounds -/

/-- `n` is the first of the rounds with `A`. -/
def FirstAt (A : ℕ → Prop) (n : ℕ) : Prop := A n ∧ ∀ i < n, ¬ A i

/-- **Two loops end at the same round** — if one ends only where the other does — just in case both
end at the first round of the other. -/
theorem firstAt_congr_iff {A B : ℕ → Prop} (hAB : ∀ n, A n → B n) :
    (∀ n, FirstAt A n ↔ FirstAt B n) ↔ ∀ n, FirstAt B n → A n := by
  constructor
  · intro h n hn
    exact ((h n).mpr hn).1
  · intro h n
    constructor
    · rintro ⟨hA, hbefore⟩
      refine ⟨hAB n hA, fun i hi hB => ?_⟩
      -- the first round with `B` up to `i` has `A`, and comes before `n`
      obtain ⟨k, hk, hfirst⟩ : ∃ k ≤ i, FirstAt B k := by
        classical
        have hex : ∃ k, B k := ⟨i, hB⟩
        exact ⟨Nat.find hex, Nat.find_min' hex hB, Nat.find_spec hex, fun j => Nat.find_min hex⟩
      exact hbefore k (by omega) (h k hfirst)
    · intro hn
      exact ⟨h n hn, fun i hi hA => hn.2 i hi (hAB i hA)⟩

/-! ## The loop -/

/-- `condition_timedwait` without `using_threads()`: the end of a round of its loop. -/
def conditionTimedwaitPollSt (absolute tv : Timeval) (c : Counters) : Counters × Point :=
  if 0 = c.c_signaled ∧ (tv.tv_sec ≤ absolute.tv_sec ∨
      (tv.tv_sec = absolute.tv_sec ∧ tv.tv_usec < absolute.tv_usec)) then
    (c, .timedPolling absolute)
  else (conditionTimedwaitEnd c, .holding)

/-- What a round sees once `progress()` has returned: the clock and the counters. -/
structure Round where
  tv : Timeval
  cond : Counters
  deriving DecidableEq, Repr

/-- A round of the loop, in the branch that `using_threads()` selects. -/
def timedwaitRound (usingThreads : Bool) (absolute : Timeval) (r : Round) : Counters × Point :=
  if usingThreads then conditionTimedwaitPoll absolute r.tv r.cond
  else conditionTimedwaitPollSt absolute r.tv r.cond

/-- The rounds of a run with threads are these. -/
theorem exec_resume (t : Tid) (tv absolute : Timeval) {m : Mem} (hm : m.mutex = none) :
    exec t (.resume tv) (.timedPolling absolute) m =
      some (stretch t m.cond (timedwaitRound true absolute ⟨tv, m.cond⟩)) := by
  simp [exec, hm, timedwaitRound]

/-- Where the call is before round `n` of its loop. -/
def timedwaitAt (usingThreads : Bool) (abstime : Timespec) (rounds : ℕ → Round) : ℕ → Point
  | 0 => .timedPolling abstime.absolute
  | n + 1 =>
      match timedwaitAt usingThreads abstime rounds n with
      | .timedPolling absolute => (timedwaitRound usingThreads absolute (rounds n)).2
      | p => p

/-- The loop stops at round `n`. -/
def Stops (usingThreads : Bool) (abstime : Timespec) (rounds : ℕ → Round) (n : ℕ) : Prop :=
  timedwaitAt usingThreads abstime rounds n = .timedPolling abstime.absolute ∧
    timedwaitAt usingThreads abstime rounds (n + 1) = .holding

/-- What the test of a round comes to. -/
def Round.ends (absolute : Timeval) (r : Round) : Prop :=
  r.cond.c_signaled ≠ 0 ∨ absolute.tv_sec < r.tv.tv_sec

instance (absolute : Timeval) (r : Round) : Decidable (r.ends absolute) := by
  unfold Round.ends
  infer_instance

/-- `(tv_sec, tv_usec)`, the seconds first. -/
def Timeval.lex (tv : Timeval) : ℤ ×ₗ ℤ := toLex (tv.tv_sec, tv.tv_usec)

/-- **The round is due**: signalled, or the clock is at the deadline or behind it. -/
def Round.due (absolute : Timeval) (r : Round) : Prop :=
  r.cond.c_signaled ≠ 0 ∨ absolute.lex ≤ r.tv.lex

section Loop

variable {usingThreads : Bool} {absolute : Timeval} {abstime : Timespec} {r : Round}
  {rounds : ℕ → Round} {n : ℕ}

/-- **The microseconds decide nothing**, in either branch. -/
theorem timedwaitRound_point (usingThreads : Bool) (absolute : Timeval) (r : Round) :
    (timedwaitRound usingThreads absolute r).2 =
      if r.ends absolute then .holding else .timedPolling absolute := by
  have htest : (0 = r.cond.c_signaled ∧ (r.tv.tv_sec ≤ absolute.tv_sec ∨
      (r.tv.tv_sec = absolute.tv_sec ∧ r.tv.tv_usec < absolute.tv_usec))) ↔ ¬ r.ends absolute := by
    unfold Round.ends
    omega
  have hround : timedwaitRound usingThreads absolute r = if ¬ r.ends absolute then
      (r.cond, .timedPolling absolute) else (conditionTimedwaitEnd r.cond, .holding) := by
    cases usingThreads
    · exact (if_neg Bool.false_ne_true).trans (if_congr htest rfl rfl)
    · exact (if_pos rfl).trans (if_congr htest rfl rfl)
  rw [hround, ite_not]
  split <;> rfl

theorem Round.due_iff : r.due absolute ↔ r.ends absolute ∨
    r.tv.tv_sec = absolute.tv_sec ∧ absolute.tv_usec ≤ r.tv.tv_usec := by
  simp only [Round.due, Round.ends, Timeval.lex, Prod.Lex.toLex_le_toLex]
  grind

/-- No round before `n` has ended the loop. -/
def Runs (absolute : Timeval) (rounds : ℕ → Round) (n : ℕ) : Prop :=
  ∀ i < n, ¬ (rounds i).ends absolute

theorem runs_succ : Runs absolute rounds (n + 1) ↔
    Runs absolute rounds n ∧ ¬ (rounds n).ends absolute := Nat.forall_lt_succ_right

/-- **The call is in the loop as long as no round has ended it.** -/
theorem timedwaitAt_of_runs (h : Runs abstime.absolute rounds n) :
    timedwaitAt usingThreads abstime rounds n = .timedPolling abstime.absolute := by
  induction n with
  | zero => rfl
  | succ n ih =>
    obtain ⟨hn, hlast⟩ := runs_succ.mp h
    rw [timedwaitAt, ih hn]
    exact (timedwaitRound_point ..).trans (if_neg hlast)

theorem timedwaitAt_of_not_runs (h : ¬ Runs abstime.absolute rounds n) :
    timedwaitAt usingThreads abstime rounds n = .holding := by
  induction n with
  | zero => exact absurd (fun _ hi => absurd hi (Nat.not_lt_zero _)) h
  | succ n ih =>
    rw [timedwaitAt]
    by_cases hn : Runs abstime.absolute rounds n
    · have hlast := not_not.mp fun hlast => h (runs_succ.mpr ⟨hn, hlast⟩)
      rw [timedwaitAt_of_runs hn]
      exact (timedwaitRound_point ..).trans (if_pos hlast)
    · rw [ih hn]

/-- **The loop stops at the first round whose test fails.** -/
theorem stops_iff : Stops usingThreads abstime rounds n ↔
    FirstAt (fun i => (rounds i).ends abstime.absolute) n := by
  constructor
  · rintro ⟨hin, hout⟩
    have hn : Runs abstime.absolute rounds n := not_not.mp fun h => by
      cases hin.symm.trans (timedwaitAt_of_not_runs h)
    refine ⟨not_not.mp fun hlast => ?_, hn⟩
    cases hout.symm.trans (timedwaitAt_of_runs (runs_succ.mpr ⟨hn, hlast⟩))
  · rintro ⟨hlast, hn⟩
    exact ⟨timedwaitAt_of_runs hn, timedwaitAt_of_not_runs fun h => (runs_succ.mp h).2 hlast⟩

end Loop

/-- **`condition_timedwait` honours its deadline**, in either branch, exactly if at the first due
round it is signalled or the clock has left the deadline's second. -/
theorem deadline_honoured_iff (usingThreads : Bool) (abstime : Timespec) (rounds : ℕ → Round) :
    (∀ n, Stops usingThreads abstime rounds n ↔
      FirstAt (fun i => (rounds i).due abstime.absolute) n) ↔
    ∀ n, FirstAt (fun i => (rounds i).due abstime.absolute) n →
      (rounds n).cond.c_signaled ≠ 0 ∨ abstime.tv_sec < (rounds n).tv.tv_sec := by
  simp only [stops_iff]
  exact firstAt_congr_iff fun n h => Round.due_iff.mpr (.inl h)

/-- **In the deadline's own second the deadline is passed over**: it is 10.5 s, the clock shows 10.9
and then 11. -/
theorem deadline_not_honoured :
    ¬ ∀ (usingThreads : Bool) (abstime : Timespec) (rounds : ℕ → Round) (n : ℕ),
      Stops usingThreads abstime rounds n ↔
        FirstAt (fun i => (rounds i).due abstime.absolute) n := by
  intro hall
  have h := (hall true ⟨10, 500000000⟩
    (fun i => ⟨if i = 0 then ⟨10, 900000⟩ else ⟨11, 0⟩, ⟨1, 0⟩⟩) 0).mpr
      ⟨Round.due_iff.mpr (.inr ⟨rfl, by decide⟩), by simp⟩
  exact absurd (stops_iff.mp h).1 (by decide)

end Libult.Condition
