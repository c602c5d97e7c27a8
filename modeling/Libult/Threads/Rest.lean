import Libult.Interleaving.Ending
import Libult.Threads.Ownership
import Libult.Threads.Wakeup
import Mathlib.Data.Prod.Lex

/-!
# Threads/Rest — whoever acquires gets through

A thread in `condition_wait` polls while there is nothing for it: in the loop while there is no
wake-up, and on the way round the loop while those there are are for others.  Every other line is
work, and work runs out.  What is left then is an owner and the threads parked behind it, or
nobody.

    grades:    RELEASE, or the flag taken  ▸  a wake-up taken  ▸  lines to the next poll
-/

namespace Libult.Threads

open Interleaving Program Condition

/-! ## Polling and working -/

/-- The thread is in `progress()` and would come out of it in vain. -/
def WaitPc.polls (m : Mem) : WaitPc → Bool
  | .l33 => m.act && decide (m.cond.c_signaled ≠ 0)
  | .l39 => decide (m.cond.c_signaled = 0)
  | _ => false

/-- **A thread at work** executes its next line. -/
def Works (s : St) (t : Tid) (a : Act) : Prop :=
  a = .run ∧ (s.loc t).frame.waits (WaitPc.polls s.mem) = false

theorem Works.noWakeup {s : St} {t : Tid} {a : Act} (h : Works s t a) : NoWakeup s t a := by
  obtain ⟨rfl, -⟩ := h
  exact nofun

/-- No worker has a next line. -/
def Stuck (s : St) : Prop := ∀ t, Works s t .run → exec t .run (s.loc t) s.mem = none

/-! ## Wake-ups and owners -/

/-- The thread is between its `ACQUIRE_THREAD` and the clearing of the flag. -/
def Frame.keeps : Frame → Bool
  | .inside | .apart | .release .l69 => true
  | _ => false

/-- The thread has come out of the polling loop, and has not taken its wake-up. -/
def Frame.found (f : Frame) : Prop := f.waits WaitPc.leaving = true ∨ ∃ v, f.taking = some v

/-- **The stock**: there are no more wake-ups than threads that have yet to take one, there is one
for the thread that has found one, and a set flag has an owner. -/
structure Stocked (s : St) : Prop where
  nonneg : 0 ≤ s.mem.cond.c_signaled
  needed : ∃ N, Waiters WaitPc.needing s N ∧ s.mem.cond.c_signaled ≤ N.card
  found : ∀ t, (s.loc t).frame.found → s.mem.cond.c_signaled ≠ 0
  owned : s.mem.act = true → ∃ t, (s.loc t).frame.keeps = true

theorem start_stocked : Stocked (start false) where
  nonneg := le_rfl
  needed := ⟨∅, fun t => by simp [start, Frame.waits], le_rfl⟩
  found t h := by rcases h with h | ⟨v, h⟩ <;> cases h
  owned h := by cases h

/-- A registered thread without `lck` has yet to take a wake-up. -/
theorem WaitPc.needing_of_registered {pc : WaitPc} (hr : pc.registered = true)
    (hh : pc.holds = false) : pc.needing = true := by
  cases pc <;> first | (cases hr; done) | (cases hh; done) | rfl

theorem Frame.holds_of_found {f : Frame} (h : f.found) : f.holds = true := by
  obtain h | ⟨v, h⟩ := h
  · unfold Frame.waits at h
    split at h
    · rename_i pc
      cases pc <;> first | rfl | cases h
    · cases h
  · unfold Frame.taking at h
    split at h
    · rfl
    · cases h

/-- Nowhere else has a wake-up been found. -/
theorem Frame.not_found {f : Frame} (hl : f.waits WaitPc.leaving = false) (ht : f.taking = none) :
    ¬ f.found := by
  rintro (h | ⟨v, h⟩)
  · exact Bool.false_ne_true (hl.symm.trans h)
  · cases ht.symm.trans h

section Step

variable {s : St} {t : Tid} {a : Act} {l : Thread} {m : Mem} {e : Event}

/-- **A release finds everybody who is registered in the polling loop.** -/
theorem Counted.card_of_release (c : Counted s) (hh : (s.loc t).frame.holds = true)
    (ht : (s.loc t).frame.waits WaitPc.registered = false) {N : Finset Tid}
    (hN : Waiters WaitPc.needing s N) : s.mem.cond.c_waiting ≤ N.card := by
  obtain ⟨W, hW, hcard⟩ := c.count
  rw [hcard]
  refine Int.ofNat_le.mpr (Finset.card_le_card fun t' ht' => (hN t').mpr ?_)
  have hreg : (s.loc t').frame.waits WaitPc.registered = true := (hW t').mp ht'
  have hne : (s.loc t').frame.holds = false := Bool.not_eq_true _ ▸ fun hh' => by
    obtain rfl := c.holder_eq hh hh'
    exact Bool.false_ne_true (ht.symm.trans hreg)
  show (s.loc t').frame.waits WaitPc.needing = true
  generalize (s.loc t').frame = f at hreg hne
  unfold Frame.waits at hreg ⊢
  split at hreg
  · exact WaitPc.needing_of_registered hreg hne
  · cases hreg

/-- **What a step does to the owner of a set flag.** -/
theorem moves_keeps (h : Moves t a (s.loc t) s.mem l m e) (hw : (s.loc t).waking = none)
    (hact : m.act = true) :
    l.frame.keeps = true ∨
      s.mem.act = true ∧ ((s.loc t).frame.keeps = true → l.frame.keeps = true) := by
  generalize s.loc t = th at h hw
  cases h with
  | @wait pc o _ _ h =>
    refine .inr ⟨?_, fun hk => by cases hk⟩
    cases pc <;> simp only [conditionWait, Option.ite_none_right_eq_some, Option.some.injEq,
      Prod.mk.injEq] at h
    case l34 | l40 => obtain ⟨-, -, rfl⟩ := h; exact hact
    all_goals obtain ⟨-, rfl⟩ := h; exact hact
  | take | unlock | lock | callRelease => exact .inl rfl
  | clear => cases hact
  | wakeClear | wakeLoad | wakeStore => cases hw
  | callWakeup => exact .inr ⟨hact, id⟩
  | _ => exact .inr ⟨hact, fun hk => by cases hk⟩

/-- **One step keeps the stock.** -/
theorem Stocked.step (k : Stocked s) (c : Counted s) (o : Owned s)
    (hm : Moves t a (s.loc t) s.mem l m e) : Stocked (s.move t l m) := by
  have hown : m.act = true → ∃ t', ((s.move t l m).loc t').frame.keeps = true := fun hact => by
    rcases moves_keeps hm (o.awake t) hact with hk | ⟨hact', hk⟩
    · exact ⟨t, by rwa [State.move_loc_self]⟩
    · obtain ⟨t', ht'⟩ := k.owned hact'
      by_cases hne : t' = t
      · subst hne
        exact ⟨t', by rw [State.move_loc_self]; exact hk ht'⟩
      · exact ⟨t', by rwa [State.move_loc_of_ne _ _ _ _ hne]⟩
  obtain ⟨N, hN, hle⟩ := k.needed
  -- the stock is as it was, or the mover has `lck` and nobody else has found a wake-up
  have build : ∀ N' : Finset Tid, Waiters WaitPc.needing (s.move t l m) N' →
      0 ≤ m.cond.c_signaled → m.cond.c_signaled ≤ N'.card →
      (l.frame.found → m.cond.c_signaled ≠ 0) →
      m.cond.c_signaled = s.mem.cond.c_signaled ∨ (s.loc t).frame.holds = true →
      Stocked (s.move t l m) := by
    intro N' hN' hnn hle' hl hoth
    refine ⟨hnn, ⟨N', hN', hle'⟩, ?_, hown⟩
    refine (State.forall_move (A := fun _ th => th.frame.found → m.cond.c_signaled ≠ 0)
      s t l m).mpr ⟨hl, fun t' ht' hf => ?_⟩
    rcases hoth with heq | hh
    · rw [heq]
      exact k.found t' hf
    · exact absurd (c.holder_eq hh (Frame.holds_of_found hf)) ht'
  obtain ⟨hs, -⟩ | ⟨-, -, w, hw, -⟩ := moves_serves hm
  · have stays := fun hl => hN.stay (t := t) (m := m) (l := l) hl
    have enters := fun hl => hN.enter (t := t) (m := m) (l := l) hl
    have leaves := fun hl => hN.leave (t := t) (m := m) (l := l) hl
    have hout := hN.card_leave (t := t)
    have hfound := k.found t
    have hnn := k.nonneg
    have htake := (o.fits t).taking
    have hload := c.loaded t
    have hrel := fun hh ht => c.card_of_release (t := t) hh ht hN
    have hcard : 0 ≤ s.mem.cond.c_waiting := by
      obtain ⟨W, -, hW⟩ := c.count
      omega
    generalize (s.loc t).frame = f at *
    generalize l.frame = f' at *
    generalize s.mem = m₀ at *
    cases hs with
    | stay hneed _ hleave htaking heq =>
      rw [← heq] at hnn hle hfound
      refine build N (stays (by rw [hneed])) hnn hle (fun h => hfound ?_) (.inl heq)
      exact h.imp hleave fun ⟨v, hv⟩ => ⟨v, htaking v hv⟩
    | refuse =>
      exact build N (stays Iff.rfl) hnn hle (fun h => absurd h (Frame.not_found rfl rfl)) (.inl rfl)
    | enter hz =>
      exact build (insert t N) (enters rfl) hnn (by omega)
        (fun h => absurd h (Frame.not_found rfl rfl)) (.inl rfl)
    | stop hne => exact build N (stays Iff.rfl) hnn hle (fun _ => hne) (.inl rfl)
    | load => exact build N (stays Iff.rfl) hnn hle (fun _ => hfound (.inl rfl)) (.inl rfl)
    | @take v _ =>
      obtain rfl := htake v rfl
      have hne := hfound (.inr ⟨_, rfl⟩)
      have hcut := hout rfl
      exact build (N.erase t) (leaves (by simp [Frame.waits, WaitPc.needing]))
        (show 0 ≤ m₀.cond.c_signaled - 1 by omega)
        (show m₀.cond.c_signaled - 1 ≤ _ by omega) (fun h => absurd h (Frame.not_found rfl rfl))
        (.inr rfl)
    | @broadcast v _ =>
      obtain rfl := hload v rfl
      exact build N (stays Iff.rfl) hcard (hrel rfl rfl)
        (fun h => absurd h (Frame.not_found rfl rfl)) (.inr rfl)
  · have hawake := o.awake t
    generalize s.loc t = th at hw hawake
    obtain ⟨f, _ | pc⟩ := th
    · cases hw
    · cases hawake

end Step

/-! ## The three grades -/

/-- What is left of a `RELEASE_THREAD`, and of an `ACQUIRE_THREAD` as a whole. -/
def Frame.stage : Frame → ℕ
  | .release .l69 => 4
  | .release (.l70 .l103) => 3
  | .release (.l70 (.l103w _)) => 2
  | .release .l71 | .acquire _ => 1
  | _ => 0

/-- From line 49 of `ACQUIRE_THREAD` to the taking of the flag, or to the next poll. -/
def again (act : Bool) : ℕ := if act then 7 else 1

/-- From the `progress()` on the way round. -/
def aside (act zero : Bool) : ℕ := if act && !zero then 0 else again act + 2

/-- The lines of `condition_wait` up to there, `zero` being whether `c_signaled` is. -/
def WaitPc.turn (act zero : Bool) : WaitPc → ℕ
  | .l27 => if zero then 6 else aside act zero + 6
  | .l27w _ => if zero then 5 else aside act zero + 5
  | .l30 => if zero then 4 else aside act zero + 4
  | .l31 => aside act zero + 3
  | .l31w _ => aside act zero + 2
  | .l32 => aside act zero + 1
  | .l33 => aside act zero
  | .l34 => again act + 1
  | .l37 => 3
  | .l38 => if zero then 1 else 6
  | .l39 => if zero then 0 else 5
  | .l40 => 4
  | .l48 => 2
  | .l48w _ => 1
  | .l49 => again act + 2
  | .l49w _ => again act + 1

def Frame.turn (act zero : Bool) : Frame → ℕ
  | .acquire .l48 => again act + 1
  | .acquire .l49 => again act
  | .acquire (.l50 pc) => pc.turn act zero
  | _ => 0

/-- No wake-up is pending. -/
def Mem.zero (m : Mem) : Bool := decide (m.cond.c_signaled = 0)

/-- **What a line of work uses up.** -/
inductive Falls (f : Frame) (m : Mem) (f' : Frame) (m' : Mem) : Prop
  | stage : f'.stage < f.stage → Falls f m f' m'
  | token : f'.stage = f.stage → m'.cond.c_signaled.toNat < m.cond.c_signaled.toNat →
      Falls f m f' m'
  | turn : f'.stage = f.stage → m'.act = m.act → m'.cond.c_signaled = m.cond.c_signaled →
      f'.turn m.act m.zero < f.turn m.act m.zero → Falls f m f' m'

section Line

variable {t : Tid} {th th' : Thread} {m m' : Mem} {e : Event}

/-- A line that leaves the flag and the wake-ups as they are. -/
theorem Falls.goto {f f' : Frame} (hs : f'.stage = f.stage) (ha : m'.act = m.act)
    (hc : m'.cond.c_signaled = m.cond.c_signaled)
    (ht : ∀ act zero, m.act = act → m.zero = zero → f'.turn act zero < f.turn act zero) :
    Falls f m f' m' :=
  .turn hs ha hc (ht _ _ rfl rfl)

/-- **A line of the wait**, but for the polls. -/
theorem conditionWait_falls {pc : WaitPc} {o : Option WaitPc}
    (hpoll : pc.polls m = false) (nonneg : 0 ≤ m.cond.c_signaled)
    (hfound : (Frame.acquire (.l50 pc)).found → m.cond.c_signaled ≠ 0)
    (htake : ∀ v ∈ (Frame.acquire (.l50 pc)).taking, v = m.cond.c_signaled)
    (h : conditionWait t m pc = some (o, m')) :
    Falls (.acquire (.l50 pc)) m (.acquire (o.elim .l49 .l50)) m' := by
  cases pc <;> simp only [conditionWait, Option.ite_none_right_eq_some, Option.some.injEq,
    Prod.mk.injEq] at h
  case l48w v =>
    obtain ⟨rfl, rfl⟩ := h
    obtain rfl := htake v rfl
    have hne := hfound (.inr ⟨_, rfl⟩)
    exact .token rfl (show (m.cond.c_signaled - 1).toNat < m.cond.c_signaled.toNat by omega)
  case l30 =>
    obtain ⟨rfl, rfl⟩ := h
    refine .goto rfl rfl rfl fun act zero _ hz => ?_
    split <;> simp_all [Frame.turn, WaitPc.turn, Mem.zero]
  case l37 =>
    obtain ⟨rfl, rfl⟩ := h
    refine .goto rfl rfl rfl fun act zero _ hz => ?_
    split <;> simp_all [Frame.turn, WaitPc.turn, Mem.zero]
  case l33 =>
    obtain ⟨rfl, rfl⟩ := h
    refine .goto rfl rfl rfl fun act zero ha hz => ?_
    cases act <;> simp_all [Frame.turn, WaitPc.turn, Mem.zero, aside, WaitPc.polls]
  case l39 =>
    obtain ⟨rfl, rfl⟩ := h
    refine .goto rfl rfl rfl fun act zero _ hz => ?_
    simp_all [Frame.turn, WaitPc.turn, Mem.zero, WaitPc.polls]
  case l34 | l40 =>
    obtain ⟨-, rfl, rfl⟩ := h
    exact .goto rfl rfl rfl fun act zero _ _ => by simp [Frame.turn, WaitPc.turn]
  case l27 | l27w =>
    obtain ⟨rfl, rfl⟩ := h
    exact .goto rfl rfl rfl fun act zero _ _ => by cases zero <;> simp [Frame.turn, WaitPc.turn]
  case l38 =>
    obtain ⟨rfl, rfl⟩ := h
    exact .goto rfl rfl rfl fun act zero _ _ => by cases zero <;> simp [Frame.turn, WaitPc.turn]
  all_goals
    obtain ⟨rfl, rfl⟩ := h
    exact .goto rfl rfl rfl fun act zero _ _ => by simp [Frame.turn, WaitPc.turn]

/-- **Every line of work goes down a grade.** -/
theorem moves_falls (hw : th.waking = none) (hpoll : th.frame.waits (WaitPc.polls m) = false)
    (nonneg : 0 ≤ m.cond.c_signaled) (hfound : th.frame.found → m.cond.c_signaled ≠ 0)
    (htake : ∀ v ∈ th.frame.taking, v = m.cond.c_signaled)
    (h : Moves t .run th m th' m' e) : Falls th.frame m th'.frame m' := by
  cases h with
  | wait h => exact conditionWait_falls hpoll nonneg hfound htake h
  | enter => exact .goto rfl rfl rfl fun act zero _ _ => by simp [Frame.turn]
  | test hact =>
    refine .goto rfl rfl rfl fun act zero ha _ => ?_
    obtain rfl : act = true := ha.symm.trans hact
    cases zero <;> simp [Frame.turn, WaitPc.turn, aside, again]
  | find hact =>
    refine .goto rfl rfl rfl fun act zero ha _ => ?_
    obtain rfl : act = false := ha.symm.trans hact
    simp [Frame.turn, again]
  | take | clear | load | store | leave => exact .stage (by simp [Frame.stage])
  | wakeClear | wakeLoad | wakeStore => cases hw

end Line

/-! ## The measure -/

/-- **The work of the threads `A`**: the stages, the wake-ups, the turns. -/
def work (A : Finset Tid) (s : St) : ℕ ×ₗ ℕ ×ₗ ℕ :=
  toLex (∑ t ∈ A, (s.loc t).frame.stage,
    toLex (s.mem.cond.c_signaled.toNat, ∑ t ∈ A, (s.loc t).frame.turn s.mem.act s.mem.zero))

section Measure

variable {A : Finset Tid} {s : St} {t : Tid} {l : Thread} {m : Mem}

/-- **A line of work lowers the measure.** -/
theorem work_falls (hA : t ∈ A) (hf : Falls (s.loc t).frame s.mem l.frame m) :
    work A (s.move t l m) < work A s := by
  simp only [work, Prod.Lex.toLex_lt_toLex]
  cases hf with
  | stage hlt =>
    exact .inl (sum_move_lt (f := fun _ (th : Thread) => th.frame.stage)
      (g := fun _ (th : Thread) => th.frame.stage) hA hlt fun _ _ _ => le_rfl)
  | token hs hlt =>
    exact .inr ⟨sum_move_eq (f := fun th : Thread => th.frame.stage) hs, .inl hlt⟩
  | turn hs hact hc hlt =>
    refine .inr ⟨sum_move_eq (f := fun th : Thread => th.frame.stage) hs, .inr ⟨?_, ?_⟩⟩
    · rw [State.move_mem, hc]
    · have hz : m.zero = s.mem.zero := by rw [Mem.zero, hc, Mem.zero]
      rw [State.move_mem, hact, hz]
      exact sum_move_lt (f := fun _ (th : Thread) => th.frame.turn s.mem.act s.mem.zero)
        (g := fun _ (th : Thread) => th.frame.turn s.mem.act s.mem.zero) hA hlt fun _ _ _ => le_rfl

/-- **What every run of the two macros keeps.** -/
structure Sane (s : St) : Prop where
  counted : Counted s
  owned : Owned s
  stocked : Stocked s

theorem Sane.step {a : Act} {e : Event} (i : Sane s) (ha : NoWakeup s t a)
    (hm : Moves t a (s.loc t) s.mem l m e) : Sane (s.move t l m) :=
  ⟨i.counted.step hm, i.owned.step i.counted ha hm, i.stocked.step i.counted i.owned hm⟩

/-- **Work falls**, whoever does it. -/
theorem Sane.falls {e : Event} (i : Sane s) (ht : t ∈ A) (hw : Works s t .run)
    (hx : exec t .run (s.loc t) s.mem = some (l, m, e)) :
    Sane (s.move t l m) ∧ work A (s.move t l m) < work A s :=
  have hm := moves_of_exec hx
  ⟨i.step hw.noWakeup hm, work_falls ht (moves_falls (i.owned.awake t) hw.2 i.stocked.nonneg
    (i.stocked.found t) (i.owned.fits t).taking hm)⟩

end Measure

/-! ## At rest -/

/-- **The macros at rest.**  Whoever has `lck` is inside; while it is free everybody is out, apart,
or parked in the polling loop; and with no owner everybody is out. -/
structure Rested (s : St) : Prop where
  held : ∀ t, s.mem.lck = some t → (s.loc t).frame = .inside
  free : s.mem.lck = none → ∀ t, (s.loc t).frame = .out ∨ (s.loc t).frame = .apart ∨
    (s.loc t).frame = .acquire (.l50 .l39)
  through : (∀ t, (s.loc t).frame.owns = false) → ∀ t, (s.loc t).frame = .out

section Rested

variable {s : St} {t : Tid} {th : Thread} {m : Mem}

/-- Only `lck` keeps a thread from its next line. -/
theorem frame_of_exec (hw : th.waking = none) (h : exec t .run th m = none) :
    th.frame = .out ∨ th.frame = .inside ∨ th.frame = .apart ∨
      th.frame.holds = false ∧ m.lck ≠ none := by
  obtain ⟨f, _ | pc⟩ := th
  · cases f with
    | out => exact .inl rfl
    | inside => exact .inr (.inl rfl)
    | apart => exact .inr (.inr (.inl rfl))
    | release pc => cases h
    | acquire pc =>
      have h := Option.map_eq_none_iff.mp h
      refine .inr (.inr (.inr ?_))
      cases pc with
      | l48 => exact ⟨rfl, by simpa [acquireThread] using h⟩
      | l49 | l52 => cases h
      | l50 pc =>
        have h := Option.map_eq_none_iff.mp h
        cases pc with
        | l34 | l40 => exact ⟨rfl, by simpa [conditionWait] using h⟩
        | _ => cases h
  · cases hw

/-- The polls are two. -/
theorem Frame.eq_of_polls {f : Frame} (h : f.waits (WaitPc.polls m) = true) :
    f = .acquire (.l50 .l33) ∧ m.cond.c_signaled ≠ 0 ∨
      f = .acquire (.l50 .l39) ∧ m.cond.c_signaled = 0 := by
  unfold Frame.waits at h
  split at h
  · rename_i pc
    cases pc with
    | l33 => exact .inl ⟨rfl, by simpa using (Bool.and_eq_true_iff.mp h).2⟩
    | l39 => exact .inr ⟨rfl, by simpa [WaitPc.polls] using h⟩
    | _ => cases h
  · cases h

/-- **Where no worker can go on, the macros are at rest.** -/
theorem Stuck.rested (hstuck : Stuck s) (i : Sane s) : Rested s := by
  obtain ⟨c, o, k⟩ := i
  have hheld : ∀ t, s.mem.lck = some t → (s.loc t).frame = .inside := fun t ht => by
    have hh := (c.holder t).mpr ht
    have hpoll : (s.loc t).frame.waits (WaitPc.polls s.mem) = false := by
      by_contra h
      rcases Frame.eq_of_polls (Bool.of_not_eq_false h) with ⟨h, -⟩ | ⟨h, -⟩ <;>
        rw [h] at hh <;> cases hh
    rcases frame_of_exec (o.awake t) (hstuck t ⟨rfl, hpoll⟩) with h | h | h | ⟨h, -⟩
    · rw [h] at hh
      cases hh
    · exact h
    · rw [h] at hh
      cases hh
    · exact absurd (h.symm.trans hh) (by decide)
  -- with `lck` free whoever is in `ACQUIRE_THREAD` polls
  have place : s.mem.lck = none → ∀ t, (s.loc t).frame = .out ∨ (s.loc t).frame = .apart ∨
      (s.loc t).frame.waits (WaitPc.polls s.mem) = true := fun hfree t => by
    by_cases hpoll : (s.loc t).frame.waits (WaitPc.polls s.mem) = true
    · exact .inr (.inr hpoll)
    · rcases frame_of_exec (o.awake t) (hstuck t ⟨rfl, Bool.not_eq_true _ ▸ hpoll⟩) with
        h | h | h | ⟨-, h⟩
      · exact .inl h
      · have := c.not_holds hfree t
        rw [h] at this
        cases this
      · exact .inr (.inl h)
      · exact absurd hfree h
  have hfree : s.mem.lck = none → ∀ t, (s.loc t).frame = .out ∨ (s.loc t).frame = .apart ∨
      (s.loc t).frame = .acquire (.l50 .l39) ∧ s.mem.cond.c_signaled = 0 := fun hfree t => by
    rcases place hfree t with h | h | h
    · exact .inl h
    · exact .inr (.inl h)
    · rcases Frame.eq_of_polls h with ⟨-, hne⟩ | h
      · -- the wake-ups there are have takers, and those are not parked
        obtain ⟨N, hN, hle⟩ := k.needed
        have hnn := k.nonneg
        obtain ⟨t', ht'⟩ : N.Nonempty := Finset.card_pos.mp (by omega)
        have hneed : (s.loc t').frame.waits WaitPc.needing = true := (hN t').mp ht'
        rcases place hfree t' with h' | h' | h'
        · rw [h'] at hneed
          cases hneed
        · rw [h'] at hneed
          cases hneed
        · rcases Frame.eq_of_polls h' with ⟨h', -⟩ | ⟨-, h'⟩
          · rw [h'] at hneed
            cases hneed
          · exact absurd h' hne
      · exact .inr (.inr h)
  refine ⟨hheld, fun h t => (hfree h t).imp_right (Or.imp_right And.left), fun hnone t => ?_⟩
  have hlck : s.mem.lck = none := by
    by_contra h
    obtain ⟨t', ht'⟩ := Option.ne_none_iff_exists'.mp h
    have := hnone t'
    rw [hheld t' ht'] at this
    cases this
  have hact : s.mem.act = false := Bool.not_eq_true _ ▸ fun h => by
    obtain ⟨t', ht'⟩ := k.owned h
    have hown := hnone t'
    generalize (s.loc t').frame = f at ht' hown
    unfold Frame.keeps at ht'
    split at ht' <;> first | cases hown | cases ht'
  rcases hfree hlck t with h | h | ⟨h, hz⟩
  · exact h
  · have := hnone t
    rw [h] at this
    cases this
  · -- a clear flag has a wake-up for everybody registered
    obtain ⟨W, hW, hcard⟩ := c.count
    have hreg : (s.loc t).frame.waits WaitPc.registered = true := by rw [h]; rfl
    have hpos : 0 < W.card := Finset.card_pos.mpr ⟨t, (hW t).mpr hreg⟩
    have heven := o.free hlck hact
    omega

end Rested

/-- **Whoever acquires gets through.**  From any point of any run of `ACQUIRE_THREAD` and
`RELEASE_THREAD` the work that is left, polls and new calls not counted, is bounded, in whatever
order the threads do it, and some schedule does it; where it is done, the threads still in
`ACQUIRE_THREAD` wait for an owner, and if there is none, there are none. -/
theorem gets_through {s : St} {π : List (Transition Tid Thread Mem Act Event)}
    (hp : threads.Path (start false) π s) (hE : Allowed NoWakeup π) :
    (∃ N, ∀ ρ s', threads.Path s ρ s' → Allowed Works ρ →
      ρ.length ≤ N ∧ (Stuck s' → Rested s')) ∧
    ∃ ρ s', threads.Path s ρ s' ∧ Allowed Works ρ ∧ Stuck s' := by
  have hsane : ∀ {π s}, threads.Path (start false) π s → Allowed NoWakeup π → Sane s :=
    fun hp hE => hp.invariant (fun _ => Sane) NoWakeup
      (fun _ _ _ _ _ _ _ i ha hx => i.step ha (moves_of_exec hx)) hE
      ⟨start_counted false, start_owned, start_stocked⟩
  obtain ⟨⟨N, hN⟩, ρ, s', hρ, hw, hlast⟩ := hp.runs_out (I := fun _ => Sane)
    (w := fun A _ => work A) (hsane hp hE) (fun _ _ _ h => h.1) (fun _ _ => rfl)
    (fun _ _ _ _ _ _ _ ht i hw hx => i.falls ht hw hx)
  refine ⟨⟨N, fun ρ s' hρ hw => ⟨hN ρ s' hρ hw, fun hstuck => hstuck.rested ?_⟩⟩,
    ρ, s', hρ, hw, hlast⟩
  exact hsane (hp.append hρ) (allowed_append.mpr ⟨hw.mono fun _ _ _ => Works.noWakeup, hE⟩)

/-- Thread 1 polls with a wake-up pending, its last owner out. -/
theorem gets_through_sleeper :
    ∃ s, (s.loc 0).frame = .out ∧ (s.loc 1).frame.waits WaitPc.polling = true ∧
      (∃ N, ∀ ρ s', threads.Path s ρ s' → Allowed Works ρ →
        ρ.length ≤ N ∧ (Stuck s' → Rested s')) ∧
      ∃ ρ s', threads.Path s ρ s' ∧ Allowed Works ρ ∧ Stuck s' := by
  obtain ⟨s, π, hp, hE, hout, hpoll⟩ := exists_path_of_run (p := threads)
    (s := start false) releaseSleeper (P := fun s π => Allowed NoWakeup π ∧
      (s.loc 0).frame = .out ∧ (s.loc 1).frame.waits WaitPc.polling = true) (by decide)
  exact ⟨s, hout, hpoll, gets_through hp hE⟩

end Libult.Threads
