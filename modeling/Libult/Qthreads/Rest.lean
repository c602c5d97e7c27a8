import Libult.Interleaving.Ending
import Libult.Qthreads.Monitor
import Mathlib.Data.Prod.Lex

/-!
# Qthreads/Rest — whoever has been marked comes back

A wait whose record nobody has marked takes its mutex again and again, in vain: it polls.  Every
other line is work, and work runs out, however long the queue a broadcast has to go through.  What
is left then is the waits nobody has signalled, and those that a client keeps from their mutex.

    grades:    lines into the queue  ▸  lines of the signals and broadcasts  ▸  lines to the poll
-/

namespace Libult.Qthreads

open Interleaving Program

/-! ## Polling and working -/

/-- **A thread at work** executes its next line, but for taking the mutex with its record
unmarked. -/
def Works (s : St) (t : Tid) (a : Act) : Prop :=
  a = .run ∧ ∀ k mu, s.loc t = .wait k mu .l120 → (s.mem.waiter (t, k)).m_signaled = 1

/-- No worker has a next line. -/
def Stuck (s : St) : Prop := ∀ t, Works s t .run → exec t .run (s.loc t) s.mem = none

/-! ## The three grades -/

/-- What is left of the way into the queue. -/
def WaitPc.entering : WaitPc → ℕ
  | .l108 => 7
  | .l109 => 6
  | .l110 => 5
  | .l111 | .l113 => 4
  | .l115 => 3
  | .l116 => 2
  | _ => 0

def Loc.entering : Loc → ℕ
  | .wait _ _ pc => pc.entering
  | _ => 0

/-- What is left of a broadcast, with `n` unmarked. -/
def BroadcastPc.left (n : ℕ) : BroadcastPc → ℕ
  | .l134 => 4 * n + 4
  | .l135 => 4 * n + 3
  | .l136 => 4 * n + 2
  | .l137 _ => 4 * n + 1
  | .l139 _ => 4 * n
  | .l142 => 2
  | .l143 => 1

def SignalPc.left : SignalPc → ℕ
  | .l147 => 8
  | .l148 => 7
  | .l149 => 6
  | .l150 _ => 5
  | .l152 _ => 4
  | .l153 => 3
  | .l154 => 2
  | .l157 => 1

def Loc.waking (n : ℕ) : Loc → ℕ
  | .broadcast pc => pc.left n
  | .signal pc => pc.left
  | _ => 0

/-- From line 118 to the return of a marked wait, or to the next poll of another. -/
def round (marked : Bool) : ℕ := if marked then 7 else 1

def WaitPc.turn (marked : Bool) : WaitPc → ℕ
  | .l118 => round marked
  | .l120 => round marked - 1
  | .l122 => 5
  | .l123 => 4
  | .l124 signaled => if 1 = signaled then 2 else round marked + 2
  | .l125 signaled => if 1 = signaled then 1 else round marked + 1
  | _ => 0

/-- The record `w` is marked. -/
def Mem.marked (m : Mem) (w : Addr) : Bool := decide ((m.waiter w).m_signaled = 1)

def Loc.turn (t : Tid) (m : Mem) : Loc → ℕ
  | .wait k _ pc => pc.turn (m.marked (t, k))
  | _ => 0

/-- **What a line of work uses up**, the unmarked going from `n` to `n'`. -/
inductive Falls (t : Tid) (n n' : ℕ) (l : Loc) (m : Mem) (l' : Loc) (m' : Mem) : Prop
  | entering : l'.entering < l.entering → Falls t n n' l m l' m'
  | waking : l'.entering = l.entering → n' ≤ n → l'.waking n' < l.waking n →
      Falls t n n' l m l' m'
  | turn : l'.entering = l.entering → n' = n → l'.waking n = l.waking n → m'.waiter = m.waiter →
      l'.turn t m < l.turn t m → Falls t n n' l m l' m'

section Line

variable {t : Tid} {f f' : Fifo Addr} {m m' : Mem} {e : Event Addr} {l l' : Loc}

theorem Fifo.length_same (hs : f.step e = some f') (he : e = .tau ∨ ∃ w, e = .back w) :
    f'.unmarked.length = f.unmarked.length := by
  rcases he with rfl | ⟨w, rfl⟩
  · rw [Option.some.inj hs]
  · rw [step, Option.ite_none_left_eq_some] at hs
    rw [Option.some.inj hs.2]

/-- **A line of the wait**, but for the poll. -/
theorem condWait_falls {k : ℕ} {mu : Mid} {pc : WaitPc} {pc' : Option WaitPc}
    (hpoll : pc = .l120 → (m.waiter (t, k)).m_signaled = 1)
    (hl : condWait t (t, k) mu m pc = some (pc', m', e)) (hs : f.step e = some f') :
    Falls t f.unmarked.length f'.unmarked.length (.wait k mu pc) m
      (pc'.elim .idle (.wait k mu)) m' := by
  have turn : ∀ o : Option WaitPc, (e = .tau ∨ ∃ w, e = .back w) → m'.waiter = m.waiter →
      o.elim 0 WaitPc.entering = pc.entering →
      o.elim 0 (WaitPc.turn (m.marked (t, k))) < pc.turn (m.marked (t, k)) →
      Falls t f.unmarked.length f'.unmarked.length (.wait k mu pc) m
        (o.elim .idle (.wait k mu)) m' := by
    intro o he hw hent hlt
    refine .turn ?_ (Fifo.length_same hs he) ?_ hw ?_ <;> cases o <;>
      first | exact hent | exact hlt | rfl
  have enter : ∀ pc₁, WaitPc.entering pc₁ < pc.entering →
      Falls t f.unmarked.length f'.unmarked.length (.wait k mu pc) m (.wait k mu pc₁) m' :=
    fun _ hlt => .entering hlt
  cases pc <;> simp only [condWait, Option.ite_none_right_eq_some, Option.some.injEq,
    Prod.mk.injEq, Option.map_eq_some_iff] at hl
  case l108 =>
    obtain ⟨-, rfl, -, -⟩ := hl
    exact enter _ (by decide)
  case l110 =>
    obtain ⟨rfl, -, -⟩ := hl
    refine enter _ ?_
    split <;> decide
  case l113 =>
    obtain ⟨_, -, rfl, -, -⟩ := hl
    exact enter _ (by decide)
  case l109 | l111 | l115 | l116 =>
    obtain ⟨rfl, -, -⟩ := hl
    exact enter _ (by decide)
  case l118 =>
    obtain ⟨rfl, rfl, rfl⟩ := hl
    refine turn (some .l120) (.inl rfl) rfl rfl ?_
    generalize m.marked (t, k) = b
    revert b
    decide
  case l120 =>
    obtain ⟨-, rfl, rfl, rfl⟩ := hl
    have hm : m.marked (t, k) = true := decide_eq_true (hpoll rfl)
    refine turn (some .l122) (.inl rfl) rfl rfl ?_
    rw [hm]
    decide
  case l122 =>
    obtain ⟨-, rfl, rfl, rfl⟩ := hl
    exact turn (some .l123) (.inl rfl) rfl rfl (by simp [WaitPc.turn])
  case l123 =>
    obtain ⟨rfl, rfl, rfl⟩ := hl
    refine turn (some (.l124 _)) (.inl rfl) rfl rfl ?_
    by_cases hm : (m.waiter (t, k)).m_signaled = 1
    · simp [WaitPc.turn, hm]
    · simp [WaitPc.turn, Mem.marked, Ne.symm hm, hm, round]
  case l124 signaled =>
    obtain ⟨rfl, rfl, rfl⟩ := hl
    refine turn (some (.l125 _)) (.inl rfl) rfl rfl ?_
    by_cases hn : 1 = signaled <;> simp [WaitPc.turn, hn]
  case l125 signaled =>
    split at hl
    · obtain ⟨rfl, rfl, rfl⟩ := Prod.mk.injEq .. ▸ hl
      exact turn none (.inr ⟨_, rfl⟩) rfl rfl (by simp_all [WaitPc.turn])
    · obtain ⟨rfl, rfl, rfl⟩ := Prod.mk.injEq .. ▸ hl
      exact turn (some .l118) (.inl rfl) rfl rfl (by simp_all [WaitPc.turn])

/-- **A line of a broadcast**: each turn of its loop marks somebody. -/
theorem condBroadcast_falls {pc : BroadcastPc} {pc' : Option BroadcastPc}
    (hl : condBroadcast t m pc = some (pc', m', e)) (hs : f.step e = some f') :
    Falls t f.unmarked.length f'.unmarked.length (.broadcast pc) m
      (pc'.elim .idle .broadcast) m' := by
  have waking : ∀ o : Option BroadcastPc, f'.unmarked.length ≤ f.unmarked.length →
      o.elim 0 (BroadcastPc.left f'.unmarked.length) < pc.left f.unmarked.length →
      Falls t f.unmarked.length f'.unmarked.length (.broadcast pc) m
        (o.elim .idle .broadcast) m' := by
    intro o hle hlt
    refine .waking ?_ hle ?_ <;> cases o <;> first | exact hlt | rfl
  cases pc <;> simp only [condBroadcast, Option.ite_none_right_eq_some, Option.some.injEq,
    Prod.mk.injEq, Option.map_eq_some_iff] at hl
  case l134 =>
    obtain ⟨-, rfl, -, rfl⟩ := hl
    have hle := Fifo.length_le hs (by simp)
    exact waking (some _) hle (by simp only [Option.elim_some, BroadcastPc.left]; omega)
  case l135 =>
    obtain ⟨rfl, -, rfl⟩ := hl
    have hle := Fifo.length_le hs (by simp)
    refine waking (some _) hle ?_
    split <;> simp only [Option.elim_some, BroadcastPc.left] <;> omega
  case l136 =>
    obtain ⟨_, -, rfl, -, rfl⟩ := hl
    have hle := Fifo.length_le hs (by simp)
    exact waking (some _) hle (by simp only [Option.elim_some, BroadcastPc.left]; omega)
  case l139 cur =>
    obtain ⟨rfl, -, rfl⟩ := hl
    have hlen := Fifo.length_mark hs
    exact waking (some _) (by omega) (by simp only [Option.elim_some, BroadcastPc.left]; omega)
  case l137 | l142 =>
    obtain ⟨rfl, -, rfl⟩ := hl
    have hle := Fifo.length_le hs (by simp)
    exact waking (some _) hle (by simp only [Option.elim_some, BroadcastPc.left]; omega)
  case l143 =>
    obtain ⟨rfl, -, rfl⟩ := hl
    exact waking none (Fifo.length_le hs (by simp)) (by simp [BroadcastPc.left])

/-- **A line of a signal.** -/
theorem condSignal_falls {pc : SignalPc} {pc' : Option SignalPc}
    (hl : condSignal t m pc = some (pc', m', e)) (hs : f.step e = some f') :
    Falls t f.unmarked.length f'.unmarked.length (.signal pc) m (pc'.elim .idle .signal) m' := by
  have waking : ∀ o : Option SignalPc, (∀ w, e ≠ .arrive w) → o.elim 0 SignalPc.left < pc.left →
      Falls t f.unmarked.length f'.unmarked.length (.signal pc) m (o.elim .idle .signal) m' := by
    intro o he hlt
    refine .waking ?_ (Fifo.length_le hs he) ?_ <;> cases o <;> first | exact hlt | rfl
  cases pc <;> simp only [condSignal, Option.ite_none_right_eq_some, Option.some.injEq,
    Prod.mk.injEq, Option.map_eq_some_iff] at hl
  case l147 =>
    obtain ⟨-, rfl, -, rfl⟩ := hl
    exact waking (some _) (by simp) (by decide)
  case l148 | l153 =>
    obtain ⟨rfl, -, rfl⟩ := hl
    refine waking (some _) (by simp) ?_
    split <;> decide
  case l149 =>
    obtain ⟨_, -, rfl, -, rfl⟩ := hl
    exact waking (some _) (by simp) (by simp [SignalPc.left])
  case l157 =>
    obtain ⟨rfl, -, rfl⟩ := hl
    exact waking none (by simp) (by decide)
  all_goals
    obtain ⟨rfl, -, rfl⟩ := hl
    exact waking (some _) (by simp) (by simp [SignalPc.left])

/-- **Every line of work goes down a grade.** -/
theorem exec_falls (hpoll : ∀ k mu, l = .wait k mu .l120 → (m.waiter (t, k)).m_signaled = 1)
    (hx : exec t .run l m = some (l', m', e)) (hs : f.step e = some f') :
    Falls t f.unmarked.length f'.unmarked.length l m l' m' := by
  cases l with
  | idle => cases hx
  | wait k mu pc =>
    obtain ⟨⟨pc', m₁, e₁⟩, hl, heq⟩ := Option.map_eq_some_iff.mp hx
    obtain ⟨rfl, rfl, rfl⟩ : _ = l' ∧ m₁ = m' ∧ e₁ = e := by simpa using heq
    exact condWait_falls (fun hpc => hpoll k mu (hpc ▸ rfl)) hl hs
  | broadcast pc =>
    obtain ⟨⟨pc', m₁, e₁⟩, hl, heq⟩ := Option.map_eq_some_iff.mp hx
    obtain ⟨rfl, rfl, rfl⟩ : _ = l' ∧ m₁ = m' ∧ e₁ = e := by simpa using heq
    exact condBroadcast_falls hl hs
  | signal pc =>
    obtain ⟨⟨pc', m₁, e₁⟩, hl, heq⟩ := Option.map_eq_some_iff.mp hx
    obtain ⟨rfl, rfl, rfl⟩ : _ = l' ∧ m₁ = m' ∧ e₁ = e := by simpa using heq
    exact condSignal_falls hl hs

end Line

/-! ## The measure -/

/-- How many are unmarked. -/
def backlog (h : List (Event Addr)) : ℕ := (Fifo.run h).elim 0 fun f => f.unmarked.length

/-- **The work of the threads `A`**: the ways in, the signals and broadcasts, the turns. -/
def work (A : Finset Tid) (h : List (Event Addr)) (s : St) : ℕ ×ₗ ℕ ×ₗ ℕ :=
  toLex (∑ t ∈ A, (s.loc t).entering,
    toLex (∑ t ∈ A, (s.loc t).waking (backlog h), ∑ t ∈ A, (s.loc t).turn t s.mem))

theorem BroadcastPc.left_mono {n n' : ℕ} (hn : n' ≤ n) (pc : BroadcastPc) :
    pc.left n' ≤ pc.left n := by
  cases pc <;> simp only [left] <;> omega

theorem Loc.waking_mono {n n' : ℕ} (hn : n' ≤ n) (l : Loc) : l.waking n' ≤ l.waking n := by
  cases l with
  | broadcast pc => exact pc.left_mono hn
  | _ => exact le_rfl

/-- **A line of work lowers the measure.** -/
theorem work_falls {A : Finset Tid} {h : List (Event Addr)} {s : St} {t : Tid} {l : Loc} {m : Mem}
    {e : Event Addr} (hA : t ∈ A)
    (hf : Falls t (backlog h) (backlog (e :: h)) (s.loc t) s.mem l m) :
    work A (e :: h) (s.move t l m) < work A h s := by
  simp only [work, Prod.Lex.toLex_lt_toLex]
  cases hf with
  | entering hlt =>
    exact .inl (sum_move_lt (f := fun _ => Loc.entering) (g := fun _ => Loc.entering) hA hlt
      fun _ _ _ => le_rfl)
  | waking hent hle hlt =>
    refine .inr ⟨sum_move_eq (f := Loc.entering) hent, .inl ?_⟩
    exact sum_move_lt (f := fun _ => Loc.waking (backlog h))
      (g := fun _ => Loc.waking (backlog (e :: h))) hA hlt fun t' _ _ => (s.loc t').waking_mono hle
  | turn hent hn hwak hw hlt =>
    refine .inr ⟨sum_move_eq (f := Loc.entering) hent, .inr ⟨?_, ?_⟩⟩
    · rw [hn]
      exact sum_move_eq (f := Loc.waking (backlog h)) hwak
    · have hm : ∀ t' (l' : Loc), l'.turn t' m = l'.turn t' s.mem := fun t' l' => by
        unfold Loc.turn Mem.marked
        rw [hw]
      refine sum_move_lt (f := fun t' (l' : Loc) => l'.turn t' s.mem)
        (g := fun t' (l' : Loc) => l'.turn t' m) hA ?_ fun t' _ _ => (hm t' _).le
      rw [hm]
      exact hlt

/-! ## What every run keeps -/

/-- **What a broadcast and a wait know**: the one has found a waiter, the other has given its mutex
up. -/
structure Kept (s : St) : Prop where
  tail : ∀ t, s.loc t = .broadcast .l136 → s.mem.m_waiter_tail ≠ none
  mutex : ∀ t k mu, s.loc t = .wait k mu .l120 → s.mem.mutex mu ≠ some t

section Step

variable {f : Fifo Addr} {h : List (Event Addr)} {s : St} {t : Tid} {l : Loc} {m : Mem}
  {e : Event Addr}

/-- Only the thread itself takes a mutex for it. -/
theorem moves_mutex {l₀ : Loc} {m₀ : Mem} (hm : Moves t l₀ m₀ l m e) {t' : Tid} {mu : Mid}
    (hne : t' ≠ t) (ht : m.mutex mu = some t') : m₀.mutex mu = some t' := by
  have update : ∀ {mu' : Mid} {o : Option Tid}, o ≠ some t' →
      Function.update m₀.mutex mu' o mu = some t' → m₀.mutex mu = some t' := by
    intro mu' o ho hu
    by_cases hmu : mu = mu'
    · subst hmu
      rw [Function.update_self] at hu
      exact absurd hu ho
    · rwa [Function.update_of_ne hmu] at hu
  have hsome : some t ≠ some t' := fun hc => hne (Option.some.inj hc).symm
  cases hm with
  | lock => exact update hsome ht
  | unlock => exact update (by simp) ht
  | scribble | callWait | callBroadcast | callSignal => exact ht
  | broadcast hl => exact (condBroadcast_point hl).1 ▸ ht
  | signal hl => exact (condSignal_point hl).1 ▸ ht
  | @wait _ _ k mu' pc _ _ hl =>
    cases pc <;> simp only [condWait, Option.ite_none_right_eq_some, Option.some.injEq,
      Prod.mk.injEq, Option.map_eq_some_iff] at hl
    case l118 =>
      obtain ⟨-, rfl, -⟩ := hl
      exact update (by simp) ht
    case l120 =>
      obtain ⟨-, -, rfl, -⟩ := hl
      exact update hsome ht
    case l108 | l122 =>
      obtain ⟨-, -, rfl, -⟩ := hl
      exact ht
    case l113 =>
      obtain ⟨_, -, -, rfl, -⟩ := hl
      exact ht
    case l125 =>
      split at hl <;> obtain ⟨-, rfl, -⟩ := Prod.mk.injEq .. ▸ hl <;> exact ht
    all_goals
      obtain ⟨-, rfl, -⟩ := hl
      exact ht

/-- What the two lines come from. -/
theorem moves_kept {l₀ : Loc} {m₀ : Mem} (hm : Moves t l₀ m₀ l m e) :
    (l = .broadcast .l136 → m.m_waiter_tail ≠ none) ∧
      ∀ k mu, l = .wait k mu .l120 → m.mutex mu ≠ some t := by
  cases hm with
  | lock | unlock | scribble | callWait | callBroadcast | callSignal => simp
  | @broadcast _ _ pc pc' _ hl =>
    refine ⟨fun h136 => ?_, fun k mu hw => (by cases pc' <;> cases hw)⟩
    cases pc' <;> cases h136
    cases pc <;> simp only [condBroadcast, Option.ite_none_right_eq_some, Option.some.injEq,
      Prod.mk.injEq, Option.map_eq_some_iff, reduceCtorEq, false_and, and_false,
      exists_false] at hl
    obtain ⟨hpc, rfl, -⟩ := hl
    intro hnone
    simp [hnone] at hpc
  | @signal _ _ _ pc' _ hl =>
    refine ⟨fun h136 => ?_, fun k mu hw => ?_⟩
    · cases pc' <;> cases h136
    · cases pc' <;> cases hw
  | @wait _ _ k₀ mu₀ pc pc' _ hl =>
    refine ⟨fun h136 => (by cases pc' <;> cases h136), fun k mu hw => ?_⟩
    cases pc' <;> cases hw
    cases pc <;> simp only [condWait, Option.ite_none_right_eq_some, Option.some.injEq,
      Prod.mk.injEq, Option.map_eq_some_iff, reduceCtorEq, false_and, and_false,
      exists_false] at hl
    case l110 =>
      obtain ⟨hpc, -⟩ := hl
      split at hpc <;> cases hpc
    case l118 =>
      obtain ⟨-, rfl, -⟩ := hl
      simp [Mem.unlockMutex]
    case l125 =>
      split at hl <;> cases hl

/-- **One step keeps it.** -/
theorem Kept.step (k : Kept s) (r : Refines f h s) (hm : Moves t (s.loc t) s.mem l m e) :
    Kept (s.move t l m) := by
  obtain ⟨htail, hmutex⟩ := moves_kept hm
  constructor
  · refine (State.forall_move (A := fun _ l' => l' = .broadcast .l136 → m.m_waiter_tail ≠ none)
      s t l m).mpr ⟨htail, fun t' ht' h136 => ?_⟩
    -- the broadcast holds `m_lock`
    have hheld : s.mem.m_lock = some t' := (r.view t').lock.mpr (by rw [h136]; rfl)
    have hS : s.mem.m_lock = some t ∨ s.mem.m_lock = none → Shape t f s.mem (s.loc t) := by
      rintro (hlock | hlock)
      · exact absurd (Option.some.inj (hheld.symm.trans hlock)) ht'
      · cases hheld.symm.trans hlock
    rcases (r.view t).section_or_quiet (Fifo.nodup r.run) hm hS with
      ⟨-, -, hlock | hlock, -⟩ | ⟨-, -, hagree, -⟩
    · exact absurd (Option.some.inj (hheld.symm.trans hlock)) ht'
    · cases hheld.symm.trans hlock
    · rw [hagree.tail]
      exact k.tail t' h136
  · exact (State.forall_move (A := fun t' l' => ∀ k mu, l' = .wait k mu .l120 →
      m.mutex mu ≠ some t') s t l m).mpr ⟨hmutex, fun t' ht' k' mu hw hmu =>
        k.mutex t' k' mu hw (moves_mutex hm ht' hmu)⟩

/-- **The invariant of the runs.** -/
structure Sane (h : List (Event Addr)) (s : St) : Prop where
  refines : ∃ f, Refines f h s
  kept : Kept s

theorem Sane.step (i : Sane h s) (hm : Moves t (s.loc t) s.mem l m e) :
    Sane (e :: h) (s.move t l m) := by
  obtain ⟨f, r⟩ := i.refines
  exact ⟨r.step hm, i.kept.step r hm⟩

/-- **Work falls**, whoever does it. -/
theorem Sane.falls {A : Finset Tid} (i : Sane h s) (ht : t ∈ A) (hw : Works s t .run)
    (hx : exec t .run (s.loc t) s.mem = some (l, m, e)) :
    Sane (e :: h) (s.move t l m) ∧ work A (e :: h) (s.move t l m) < work A h s := by
  have hstep := i.step (moves_of_exec hx)
  refine ⟨hstep, work_falls ht ?_⟩
  obtain ⟨f', r'⟩ := hstep.refines
  obtain ⟨f, hr, hs⟩ := Fifo.run_cons.mp r'.run
  rw [backlog, backlog, hr, r'.run]
  exact exec_falls hw.2 hx hs

end Step

/-! ## At rest -/

/-- **The condition at rest.**  No signal or broadcast is in flight, `m_lock` is free, and its chain
is a queue.  Each wait has given its mutex up, and is in the queue or has its mutex with a thread
that does not wait with it. -/
structure Rested (s : St) : Prop where
  lock : s.mem.m_lock = none
  place : ∀ t, s.loc t = .idle ∨ ∃ k mu, s.loc t = .wait k mu .l120
  queue : ∃ q, IsQueue q s ∧ ∀ t k mu, s.loc t = .wait k mu .l120 → (t, k) ∈ q ∨
    ∃ t', s.mem.mutex mu = some t' ∧ ∀ k' pc, s.loc t' ≠ .wait k' mu pc

section Rested

variable {f : Fifo Addr} {h : List (Event Addr)} {s : St} {t : Tid}

/-- Whoever has `m_lock` can go on. -/
theorem Refines.goes_on (r : Refines f h s) (k : Kept s) (ht : s.mem.m_lock = some t) :
    exec t .run (s.loc t) s.mem ≠ none := by
  have hl := (r.view t).lock.mp ht
  have hS := r.held t ht
  have htail := k.tail t
  generalize s.loc t = l at hl hS htail
  intro hx
  cases l with
  | idle => cases hl
  | wait k mu pc =>
    have hx := Option.map_eq_none_iff.mp hx
    cases pc <;> first
      | exact absurd hl Bool.false_ne_true | exact absurd hx (Option.some_ne_none _) | skip
    -- the queue is not empty, so the head is not NULL
    obtain ⟨q, z, hE, -⟩ := hS
    have hhead := hE.linked.head
    rw [List.getLast?_concat] at hhead
    rw [condWait, hhead] at hx
    cases hx
  | broadcast pc =>
    have hx := Option.map_eq_none_iff.mp hx
    cases pc <;> first
      | exact absurd hl Bool.false_ne_true | exact absurd hx (Option.some_ne_none _) | skip
    exact htail rfl (Option.map_eq_none_iff.mp hx)
  | signal pc =>
    have hx := Option.map_eq_none_iff.mp hx
    cases pc <;> first
      | exact absurd hl Bool.false_ne_true | exact absurd hx (Option.some_ne_none _) | skip
    obtain ⟨a, -, hW, -⟩ := hS
    rw [condSignal, hW.tail] at hx
    cases hx

/-- With `m_lock` free only a mutex keeps a thread from its next line. -/
theorem Refines.place (r : Refines f h s) (hlock : s.mem.m_lock = none)
    (hx : exec t .run (s.loc t) s.mem = none) : s.loc t = .idle ∨
      ∃ k mu, s.loc t = .wait k mu .l120 ∧ s.mem.mutex mu ≠ none := by
  have hl : (s.loc t).locked = false := Bool.not_eq_true _ ▸ fun hl => by
    cases hlock.symm.trans ((r.view t).lock.mpr hl)
  generalize s.loc t = l at hl hx
  cases l with
  | idle => exact .inl rfl
  | wait k mu pc =>
    have hx := Option.map_eq_none_iff.mp hx
    cases pc <;> first
      | exact absurd hl.symm Bool.false_ne_true | exact absurd hx (Option.some_ne_none _) | skip
    case l108 => simp [condWait, hlock] at hx
    case l120 => exact .inr ⟨k, mu, rfl, by simpa [condWait] using hx⟩
    case l122 => simp [condWait, hlock] at hx
  | broadcast pc =>
    have hx := Option.map_eq_none_iff.mp hx
    cases pc <;> first | exact absurd hl.symm Bool.false_ne_true | skip
    simp [condBroadcast, hlock] at hx
  | signal pc =>
    have hx := Option.map_eq_none_iff.mp hx
    cases pc <;> first | exact absurd hl.symm Bool.false_ne_true | skip
    simp [condSignal, hlock] at hx

/-- **Where no worker can go on, the condition is at rest.** -/
theorem Stuck.rested (hstuck : Stuck s) (i : Sane h s) : Rested s := by
  obtain ⟨f, r⟩ := i.refines
  have hlock : s.mem.m_lock = none := by
    by_contra hne
    obtain ⟨t, ht⟩ := Option.ne_none_iff_exists'.mp hne
    refine r.goes_on i.kept ht (hstuck t ⟨rfl, fun k mu hloc => ?_⟩)
    have hl := (r.view t).lock.mp ht
    rw [hloc] at hl
    cases hl
  have place : ∀ t, s.loc t = .idle ∨ ∃ k mu, s.loc t = .wait k mu .l120 ∧
      ((s.mem.waiter (t, k)).m_signaled = 1 → s.mem.mutex mu ≠ none) := fun t => by
    by_cases hpoll : ∀ k mu, s.loc t = .wait k mu .l120 → (s.mem.waiter (t, k)).m_signaled = 1
    · rcases r.place hlock (hstuck t ⟨rfl, hpoll⟩) with hidle | ⟨k, mu, hloc, hmu⟩
      · exact .inl hidle
      · exact .inr ⟨k, mu, hloc, fun _ => hmu⟩
    · push Not at hpoll
      obtain ⟨k, mu, hloc, hne⟩ := hpoll
      exact .inr ⟨k, mu, hloc, fun h1 => absurd h1 hne⟩
  have hq := r.isQueue hlock
  refine ⟨hlock, fun t => (place t).imp_right fun ⟨k, mu, hloc, _⟩ => ⟨k, mu, hloc⟩, f.queue, hq,
    fun t k mu hloc => ?_⟩
  by_cases hin : (t, k) ∈ f.queue
  · exact .inl hin
  -- it is marked, so somebody else has its mutex
  have hun : f.unmarked = f.queue := by
    rw [Fifo.unmarked, (r.free hlock).owed]
    rfl
  have hsig : (s.mem.waiter (t, k)).m_signaled = 1 := by
    rw [(r.view t).signaled k mu _ hloc (by simp) (by simp), hun, if_neg hin]
  rcases place t with hidle | ⟨k', mu', hloc', hmu⟩
  · cases hloc.symm.trans hidle
  obtain ⟨rfl, rfl⟩ : k = k' ∧ mu = mu' := by simpa [hloc] using hloc'
  obtain ⟨t', ht'⟩ := Option.ne_none_iff_exists'.mp (hmu hsig)
  refine .inr ⟨t', ht', fun k' pc hloc₁ => ?_⟩
  rcases place t' with hidle | ⟨k₂, mu₂, hloc₂, -⟩
  · cases hloc₁.symm.trans hidle
  · obtain ⟨rfl, rfl, rfl⟩ : k' = k₂ ∧ mu = mu₂ ∧ pc = .l120 := by simpa [hloc₁] using hloc₂
    exact i.kept.mutex t' k' mu hloc₁ ht'

end Rested

/-- **Whoever has been marked comes back.**  From any point of any run the work that is left, polls
and new calls not counted, is bounded, in whatever order the threads do it, and some schedule does
it; where it is done every signal and broadcast is over, and the waits that are left have not been
signalled, or their mutex has not been given back. -/
theorem marked_return {waiter : Addr → Waiter} {s : St}
    {π : List (Transition Tid Loc Mem Act (Event Addr))} (hp : cond.Path (start waiter) π s) :
    (∃ N, ∀ ρ s', cond.Path s ρ s' → Allowed Works ρ →
      ρ.length ≤ N ∧ (Stuck s' → Rested s')) ∧
    ∃ ρ s', cond.Path s ρ s' ∧ Allowed Works ρ ∧ Stuck s' := by
  have hstart : Kept (start waiter) := ⟨fun _ h => (by cases h), fun _ _ _ h => (by cases h)⟩
  have hsane : ∀ {π s}, cond.Path (start waiter) π s → Sane (events π) s := fun hp =>
    hp.invariant Sane (fun _ _ _ => True) (fun _ _ _ _ _ _ _ i _ hx => i.step (moves_of_exec hx))
      (fun _ _ => trivial) ⟨⟨_, start_refines waiter⟩, hstart⟩
  obtain ⟨⟨N, hN⟩, ρ, s', hρ, hw, hlast⟩ := hp.runs_out (w := work) (hsane hp)
    (fun _ _ _ h => h.1) (fun _ _ => rfl) (fun _ _ _ _ _ _ _ ht i hw hx => i.falls ht hw hx)
  exact ⟨⟨N, fun ρ s' hρ hw => ⟨hN ρ s' hρ hw, fun hstuck =>
    hstuck.rested (hsane (hp.append hρ))⟩⟩, ρ, s', hρ, hw, hlast⟩

/-- Two waits, a signal for the first, which still polls. -/
def signalled : List (Tid × Act) := signalFirst.take 26

theorem marked_return_signal :
    ∃ s, s.loc 0 = .wait 5 0 .l120 ∧ (s.mem.waiter (0, 5)).m_signaled = 1 ∧
      (∃ N, ∀ ρ s', cond.Path s ρ s' → Allowed Works ρ →
        ρ.length ≤ N ∧ (Stuck s' → Rested s')) ∧
      ∃ ρ s', cond.Path s ρ s' ∧ Allowed Works ρ ∧ Stuck s' := by
  obtain ⟨s, π, hp, hloc, hsig⟩ := exists_path_of_run (p := cond)
    (s := start fun _ => ⟨1, some (1, 3)⟩) signalled (P := fun s _ =>
      s.loc 0 = .wait 5 0 .l120 ∧ (s.mem.waiter (0, 5)).m_signaled = 1) (by decide)
  exact ⟨s, hloc, hsig, marked_return hp⟩

end Libult.Qthreads
