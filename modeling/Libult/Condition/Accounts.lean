import Libult.Condition.Accounting

/-!
# Condition/Accounts — the accounts of a run, its counters in `int`s

The lines compute with integers, and `condition_t` keeps `int`s.  As long as fewer than 2³¹ wake-ups
are pending and fewer than 2³¹ waits registered the two are one, and the counters are right; a
signal or a wait beyond that makes its counter negative.

    signal, signal, …     c_signaled 0, 1, …, 2³¹ - 1, -2³¹
-/

namespace Libult.Condition.Lines

open Interleaving Program

/-! ## What a timed wait takes -/

section Timedwait

variable {u : Bool} {t : Tid} {k l : List Frame} {abstime : Timespec} {s s' : St} {m : Mem}
  {e : Event} {x : Transition Tid (List Frame) Mem Act Event}
  {ρ : List (Transition Tid (List Frame) Mem Act Event)}

/-- The call that `t` has made from `k` takes a wake-up. -/
def Consumes (t : Tid) (k : List Frame) (ρ : List (Transition Tid (List Frame) Mem Act Event)) :
    Prop :=
  ∃ x ∈ ρ, x.ev = .consumed ∧ x.tid = t ∧ ∃ f, x.pre.loc t = f :: k

/-- The `condition_timedwait` that `t` has called from `k` ends without finding a signal: its last
test, at line 88, fails. -/
def FindsNone (t : Tid) (k : List Frame) (ρ : List (Transition Tid (List Frame) Mem Act Event)) :
    Prop :=
  ∃ x ∈ ρ, x.pre.mem.cond.c_signaled = 0 ∧ x.tid = t ∧
    ∃ abstime tv, x.pre.loc t = .timedwait abstime tv .l88 :: k

theorem consumes_cons : Consumes t k (x :: ρ) ↔
    (x.ev = .consumed ∧ x.tid = t ∧ ∃ f, x.pre.loc t = f :: k) ∨ Consumes t k ρ := by
  simp only [Consumes, List.mem_cons, exists_eq_or_imp]

theorem findsNone_cons : FindsNone t k (x :: ρ) ↔ (x.pre.mem.cond.c_signaled = 0 ∧ x.tid = t ∧
    ∃ abstime tv, x.pre.loc t = .timedwait abstime tv .l88 :: k) ∨ FindsNone t k ρ := by
  simp only [FindsNone, List.mem_cons, exists_eq_or_imp]

/-- **The course of a timed wait**, on the stack of its thread: it takes a wake-up, or finds none,
on its way to line 91. -/
inductive Course (abstime : Timespec) (t : Tid) (k : List Frame)
    (ρ : List (Transition Tid (List Frame) Mem Act Event)) : List Frame → Prop
  /-- On its way; in `progress()` it may have made calls. -/
  | under (g : List Frame) (tv : Timeval) (pc : TimedwaitPc) : pc ≠ .l91 →
      (g ≠ [] → (Frame.timedwait abstime tv pc).inProgress = true) → ¬ Consumes t k ρ →
      ¬ FindsNone t k ρ → Course abstime t k ρ (g ++ .timedwait abstime tv pc :: k)
  | ending (tv : Timeval) : (Consumes t k ρ ↔ ¬ FindsNone t k ρ) →
      Course abstime t k ρ (.timedwait abstime tv .l91 :: k)
  | returned : (Consumes t k ρ ↔ ¬ FindsNone t k ρ) → Course abstime t k ρ k

/-- A step that is not of the call, or of its `progress()`. -/
theorem Course.skip (h : Course abstime t k ρ l)
    (hc : x.ev = .consumed → x.tid = t → ∀ f, x.pre.loc t ≠ f :: k)
    (hf : x.tid = t → ∀ abstime tv, x.pre.loc t ≠ .timedwait abstime tv .l88 :: k) :
    Course abstime t k (x :: ρ) l := by
  have hc : Consumes t k (x :: ρ) ↔ Consumes t k ρ := by
    rw [consumes_cons, or_iff_right]
    rintro ⟨he, ht, f, hx⟩
    exact hc he ht f hx
  have hf : FindsNone t k (x :: ρ) ↔ FindsNone t k ρ := by
    rw [findsNone_cons, or_iff_right]
    rintro ⟨-, ht, abstime, tv, hx⟩
    exact hf ht abstime tv hx
  cases h with
  | under g tv pc hpc hg hnc hnf => exact .under g tv pc hpc hg (mt hc.mp hnc) (mt hf.mp hnf)
  | ending tv h => exact .ending tv (by rw [hc, hf, h])
  | returned h => exact .returned (by rw [hc, hf, h])

/-- A line of the call before its last. -/
theorem conditionTimedwait_course {now tv : Timeval} {pc : TimedwaitPc} {m' : Mem}
    {q : Option (Timeval × TimedwaitPc)} (hpc : pc ≠ .l91)
    (h : conditionTimedwait u t now m abstime tv pc = some (q, m', e)) :
    (∃ tv' pc', q = some (tv', pc') ∧ pc' ≠ .l91 ∧ e ≠ .consumed ∧
      (pc = .l88 → m.cond.c_signaled ≠ 0)) ∨
    (∃ tv', q = some (tv', .l91) ∧ (pc = .l88 ∧ m.cond.c_signaled = 0 ∧ e ≠ .consumed ∨
      pc = .l89 ∧ e = .consumed)) := by
  cases pc <;> simp only [conditionTimedwait, Option.ite_none_right_eq_some, Option.some.injEq,
    Prod.mk.injEq] at h
  case l91 => exact absurd rfl hpc
  case l88 =>
    obtain ⟨rfl, -, rfl⟩ := h
    by_cases hz : m.cond.c_signaled = 0
    · exact .inr ⟨tv, by simp [hz], .inl ⟨rfl, hz, by simp⟩⟩
    · exact .inl ⟨tv, .l89, by simp [Ne.symm hz], by simp, by simp, fun _ => hz⟩
  case l89 =>
    obtain ⟨rfl, -, rfl⟩ := h
    exact .inr ⟨tv, rfl, .inr ⟨rfl, rfl⟩⟩
  case l69 =>
    obtain ⟨-, rfl, -, rfl⟩ := h
    exact .inl ⟨tv, .l70, rfl, by simp, by simp, by simp⟩
  all_goals
    obtain ⟨rfl, -, rfl⟩ := h
    refine .inl ⟨_, _, rfl, ?_, by simp, by simp⟩
    first | (split <;> simp) | simp

/-- A line of the call itself. -/
theorem Course.line {now tv : Timeval} {pc : TimedwaitPc} {q : Option (Timeval × TimedwaitPc)}
    {a : Act} (h : Course abstime t k ρ (.timedwait abstime tv pc :: k))
    (hs : s.loc t = .timedwait abstime tv pc :: k)
    (hl : conditionTimedwait u t now s.mem abstime tv pc = some (q, m, e)) :
    Course abstime t k (⟨s, t, a, e⟩ :: ρ)
      ((q.map fun q => Frame.timedwait abstime q.1 q.2).toList ++ k) := by
  have hc : Consumes t k (⟨s, t, a, e⟩ :: ρ) ↔ e = .consumed ∨ Consumes t k ρ := by
    rw [consumes_cons]
    simp [hs]
  have hf : FindsNone t k (⟨s, t, a, e⟩ :: ρ) ↔
      (s.mem.cond.c_signaled = 0 ∧ pc = .l88) ∨ FindsNone t k ρ := by
    rw [findsNone_cons]
    simp [hs]
  generalize hk : (Frame.timedwait abstime tv pc :: k) = k' at h
  cases h with
  | under g tv' pc' hpc hg hnc hnf =>
    obtain rfl : g = [] := by
      have := congrArg List.length hk
      simpa using this
    obtain ⟨rfl, rfl⟩ : tv = tv' ∧ pc = pc' := by simpa using hk
    rcases conditionTimedwait_course hpc hl with ⟨tv₁, pc₁, rfl, hpc₁, he, hz⟩ |
        ⟨tv₁, rfl, ⟨rfl, hz, he⟩ | ⟨rfl, rfl⟩⟩
    · refine .under [] tv₁ pc₁ hpc₁ (by simp) ?_ ?_
      · rw [hc]
        simp [he, hnc]
      · rw [hf]
        rintro (⟨h0, h88⟩ | h)
        exacts [hz h88 h0, hnf h]
    · refine .ending tv₁ ?_
      rw [hc, hf]
      simp [he, hz, hnc]
    · refine .ending tv₁ ?_
      rw [hc, hf]
      simp [hnf]
  | ending tv' h =>
    obtain ⟨rfl, rfl⟩ : tv = tv' ∧ pc = .l91 := by simpa using hk
    simp only [conditionTimedwait, Option.some.injEq, Prod.mk.injEq] at hl
    obtain ⟨rfl, -, rfl⟩ := hl
    refine .returned ?_
    rw [hc, hf]
    simp [h]
  | returned => exact absurd (congrArg List.length hk) (by simp)

/-- A step of the calls that its `progress()` has made. -/
theorem Course.above {a : Act} {g₀ : Frame} {g : List Frame} {tv : Timeval} {pc : TimedwaitPc}
    (hpc : pc ≠ .l91) (hown : (Frame.timedwait abstime tv pc).inProgress = true)
    (hnc : ¬ Consumes t k ρ) (hnf : ¬ FindsNone t k ρ)
    (hs : s.loc t = g₀ :: g ++ .timedwait abstime tv pc :: k)
    (hm : Moves u t (s.loc t) s.mem l m e) : Course abstime t k (⟨s, t, a, e⟩ :: ρ) l := by
  have hx : ∀ f, s.loc t ≠ f :: k := fun f hx => by
    have := congrArg List.length (hs.symm.trans hx)
    simp at this
    omega
  refine Course.skip (x := ⟨s, t, a, e⟩) ?_ (fun _ _ => hx) fun _ abstime' tv' => hx _
  generalize hk : s.loc t = k' at hs hm
  cases hm with
  | @line _ _ o =>
    obtain ⟨rfl, rfl⟩ := List.cons.inj hs
    change Course abstime t k ρ (o.toList ++ (g ++ .timedwait abstime tv pc :: k))
    rw [← List.append_assoc]
    exact .under (o.toList ++ g) tv pc hpc (fun _ => hown) hnc hnf
  | lock | unlock =>
    subst hs
    exact .under (g₀ :: g) tv pc hpc (fun _ => hown) hnc hnf
  | @call f =>
    subst hs
    exact .under (f :: g₀ :: g) tv pc hpc (fun _ => hown) hnc hnf

/-- **One step of the thread** keeps the course, until the call has returned. -/
theorem Course.step {a : Act} (h : Course abstime t k ρ (s.loc t))
    (hlen : k.length < (s.loc t).length) (hm : Moves u t (s.loc t) s.mem l m e) :
    Course abstime t k (⟨s, t, a, e⟩ :: ρ) l := by
  generalize hs : s.loc t = k' at h hlen hm
  have hcourse := h
  cases h with
  | returned => exact absurd hlen (lt_irrefl _)
  | ending tv =>
    generalize hk : (Frame.timedwait abstime tv .l91 :: k) = k' at hm
    cases hm with
    | line hl =>
      obtain ⟨rfl, rfl⟩ := List.cons.inj hk
      obtain ⟨q, hq, rfl⟩ := Frame.line_timedwait hl
      exact hcourse.line hs hq
    | lock hown | unlock hown | call hown =>
      subst hk
      cases hown
  | under g tv pc hpc hg hnc hnf =>
    cases g with
    | nil =>
      generalize hk : ([] ++ Frame.timedwait abstime tv pc :: k) = k' at hm
      cases hm with
      | line hl =>
        obtain ⟨rfl, rfl⟩ := List.cons.inj hk
        obtain ⟨q, hq, rfl⟩ := Frame.line_timedwait hl
        exact hcourse.line hs hq
      | lock hown | unlock hown =>
        subst hk
        refine hcourse.skip (by simp) fun _ abstime' tv' hx => ?_
        obtain ⟨-, -, rfl⟩ : abstime = abstime' ∧ tv = tv' ∧ pc = .l88 := by
          simpa using hs.symm.trans hx
        cases hown
      | @call f _ _ hown =>
        subst hk
        have hunder : Course abstime t k ρ ([f] ++ .timedwait abstime tv pc :: k) :=
          .under [f] tv pc hpc (fun _ => hown) hnc hnf
        refine hunder.skip (by simp) fun _ abstime' tv' hx => ?_
        obtain ⟨-, -, rfl⟩ : abstime = abstime' ∧ tv = tv' ∧ pc = .l88 := by
          simpa using hs.symm.trans hx
        cases hown
    | cons g₀ g => exact .above hpc (hg (by simp)) hnc hnf hs (hs ▸ hm)

/-- **The course of a timed wait in a run.** -/
theorem course_of_path {tv : Timeval} (hs : s.loc t = .timedwait abstime tv .l59 :: k)
    (hp : (intLines u).Path s ρ s') (hlen : ∀ x ∈ ρ, k.length < (x.pre.loc t).length) :
    Course abstime t k ρ (s'.loc t) := by
  induction hp with
  | nil =>
    rw [hs]
    exact .under [] tv .l59 (by simp) (by simp) (by simp [Consumes]) (by simp [FindsNone])
  | @snoc s₁ s₂ ρ t' a e hp hstep ih =>
    obtain ⟨hx, hlen⟩ := List.forall_mem_cons.mp hlen
    obtain ⟨l, m, hexec, rfl⟩ := step_eq_some.mp hstep
    obtain ⟨m₁, hexec₁, rfl⟩ := stored_exec.mp hexec
    by_cases ht : t' = t
    · subst ht
      rw [State.move_loc_self]
      exact (ih hlen).step hx (moves_of_exec hexec₁)
    · rw [State.move_loc_of_ne _ _ _ _ (Ne.symm ht)]
      exact (ih hlen).skip (fun _ h => absurd h ht) fun h => absurd h ht

/-- **A timed wait takes a wake-up unless it ends without finding one.** -/
theorem consumes_iff {tv : Timeval} (hs : s.loc t = .timedwait abstime tv .l59 :: k)
    (hp : (intLines u).Path s ρ s') (hlen : ∀ x ∈ ρ, k.length < (x.pre.loc t).length)
    (hend : s'.loc t = k) : Consumes t k ρ ↔ ¬ FindsNone t k ρ := by
  have hcourse := course_of_path hs hp hlen
  generalize s'.loc t = l at hend hcourse
  cases hcourse with
  | returned h => exact h
  | under =>
    have := congrArg List.length hend
    rw [List.length_append, List.length_cons] at this
    omega
  | ending => exact absurd (congrArg List.length hend) (by simp)

end Timedwait

/-! ## In `int`s -/

/-- **There is room in the `int`s**: no signal is made with 2³¹ - 1 wake-ups pending, and no wait
registers with as many registered. -/
def Fits (s : St) (t : Tid) : Act → Prop
  | .run _ => ∀ f ∈ (s.loc t).head?, (f.signals = true → s.mem.cond.c_signaled < 2 ^ 31 - 1) ∧
      (f.registers = true → s.mem.cond.c_waiting < 2 ^ 31 - 1)
  | .lock | .unlock | .call _ => True

instance (s : St) (t : Tid) : (a : Act) → Decidable (Fits s t a)
  | .run _ => by unfold Fits; infer_instance
  | .lock | .unlock | .call _ => .isTrue trivial

/-- **One step keeps the counters below**, if there is room. -/
theorem below_step {u : Bool} {s : St} {t : Tid} {a : Act} {l : List Frame} {m : Mem} {e : Event}
    (h : s.mem.cond.Below) (hf : Fits s t a) (hx : exec u t a (s.loc t) s.mem = some (l, m, e)) :
    m.cond.Below := by
  unfold Fits at hf
  generalize s.loc t = k at hf hx
  cases a with
  | lock | unlock | call =>
    obtain ⟨-, hr⟩ := Option.ite_none_right_eq_some.mp hx
    obtain ⟨-, rfl, -⟩ := hr
    exact h
  | run now =>
    cases k with
    | nil => cases hx
    | cons f k =>
      obtain ⟨⟨o, m₁, e₁⟩, hline, hr⟩ := Option.map_eq_some_iff.mp hx
      obtain ⟨-, rfl, -⟩ := hr
      obtain ⟨hsig, hreg⟩ := hf f rfl
      have heff := Frame.line_effect hline
      unfold Counters.Below at h ⊢
      generalize s.mem.cond = c at heff h hsig hreg
      generalize m.cond = c' at heff ⊢
      cases heff with
      | quiet => exact h
      | register hr => have := hreg hr; dsimp only; omega
      | signal hs => have := hsig hs; dsimp only; omega
      | _ => dsimp only; omega

/-- **Where there is room, a run in `int`s is a run in integers.** -/
theorem path_of_intLines {u : Bool} {t₀ : Tid} {s : St}
    {π : List (Transition Tid (List Frame) Mem Act Event)} (hp : (intLines u).Path start π s)
    (hu : ∀ x ∈ π, u = false → x.tid = t₀) (hf : Allowed Fits π) : (lines u).Path start π s := by
  have hE : Allowed (fun s t a => (u = false → t = t₀) ∧ Fits s t a) π := fun x hx =>
    ⟨hu x hx, hf x hx⟩
  refine hp.of_stored hE fun π s' t a l m e hπ hE hx hexec => ?_
  have i := (sound_of_path hπ fun x hx => (hE x hx).1).step hx.1 hexec
  have hbelow : s'.mem.cond.Below := hπ.invariant (fun _ s => s.mem.cond.Below) Fits
    (fun _ _ _ _ _ _ _ hi hx hexec => below_step hi hx hexec) (hE.mono fun _ _ _ h => h.2)
    (by simp [start, conditionConstruct, Counters.Below])
  obtain ⟨n, -, hcount⟩ := i.waiting
  have hsig := i.signaled
  rw [State.move_mem] at hcount hsig
  rw [Mem.ints, Counters.ints_eq (by omega) hsig (below_step hbelow hx.2 hexec)]

/-- **The accounts of a run.** -/
structure Accounted (u : Bool) (π : List (Transition Tid (List Frame) Mem Act Event)) (s : St) :
    Prop where
  /-- `c_waiting` is the number of wait calls that have registered and not deregistered. -/
  waiting : ∃ n : ℕ, Weighs registrations s n ∧ s.mem.cond.c_waiting = n
  waiting_nonneg : 0 ≤ s.mem.cond.c_waiting
  signaled_nonneg : 0 ≤ s.mem.cond.c_signaled
  /-- `c_signaled` is never decremented at 0. -/
  consumed : ∀ x ∈ π, x.ev = .consumed → x.pre.mem.cond.c_signaled ≠ 0
  /-- A timed wait, from its call to its return, takes no wake-up if it ends without finding one. -/
  timedwait : ∀ ρ π₀ s₀ t k abstime tv, π = ρ ++ π₀ → (intLines u).Path s₀ ρ s →
    s₀.loc t = .timedwait abstime tv .l59 :: k → (∀ x ∈ ρ, k.length < (x.pre.loc t).length) →
    s.loc t = k → FindsNone t k ρ → ¬ Consumes t k ρ

/-- **The waiters are accounted for** in every run, with any number of threads or with one, as long
as there is room in the `int`s. -/
theorem waiters_accounted {u : Bool} {s : St}
    {π : List (Transition Tid (List Frame) Mem Act Event)} (hp : (intLines u).Path start π s)
    (hu : u = false → ∃ t₀, ∀ x ∈ π, x.tid = t₀) (hf : Allowed Fits π) : Accounted u π s := by
  obtain ⟨t₀, ht₀⟩ : ∃ t₀, ∀ x ∈ π, u = false → x.tid = t₀ := by
    cases u with
    | true => exact ⟨0, fun _ _ => by simp⟩
    | false => exact (hu rfl).imp fun t₀ h x hx _ => h x hx
  have hp' := path_of_intLines hp ht₀ hf
  have i := sound_of_path hp' ht₀
  obtain ⟨n, hn, hcount⟩ := i.waiting
  refine ⟨⟨n, hn, hcount⟩, by omega, i.signaled, consumed_of_path hp' ht₀, ?_⟩
  intro ρ π₀ s₀ t k abstime tv _ hρ hs hlen hend hnone hc
  exact (consumes_iff hs hρ hlen hend).mp hc hnone

/-- A waiter, and a timed wait that ends without a signal. -/
def timeOut : List (Tid × Act) :=
  [(0, Act.lock), (0, Act.call (.wait .l27))] ++ List.replicate 5 (0, Act.run ⟨0, 0⟩) ++
  [(1, Act.lock), (1, Act.call (.timedwait ⟨0, 0⟩ ⟨0, 0⟩ .l59))] ++
  List.replicate 11 (1, Act.run ⟨1, 0⟩)

/-- A wait whose `progress()` makes a timed wait, whose `progress()` broadcasts. -/
def nest : List (Tid × Act) :=
  [(0, Act.call (.wait .l27))] ++ List.replicate 3 (0, Act.run ⟨0, 0⟩) ++
  [(0, Act.call (.timedwait ⟨9, 0⟩ ⟨0, 0⟩ .l59))] ++ List.replicate 4 (0, Act.run ⟨0, 0⟩) ++
  [(0, Act.call .broadcast)] ++ List.replicate 7 (0, Act.run ⟨0, 0⟩)

theorem waiters_accounted_nested :
    (∃ s π, (intLines true).Path start π s ∧ s.mem.cond = ⟨1, 0⟩ ∧ s.loc 1 = [] ∧
      Accounted true π s) ∧
    ∃ s π, (intLines false).Path start π s ∧ s.mem.cond = ⟨1, 1⟩ ∧ s.loc 0 = [.wait .l44] ∧
      Accounted false π s := by
  constructor
  · obtain ⟨s, π, hp, hc, hl, hf⟩ := exists_path_of_run (p := intLines true) (s := start) timeOut
      (P := fun s π => s.mem.cond = ⟨1, 0⟩ ∧ s.loc 1 = [] ∧ Allowed Fits π) (by decide +kernel)
    exact ⟨s, π, hp, hc, hl, waiters_accounted hp (by simp) hf⟩
  · obtain ⟨s, π, hp, hc, hl, ht, hf⟩ := exists_path_of_run (p := intLines false) (s := start) nest
      (P := fun s π => s.mem.cond = ⟨1, 1⟩ ∧ s.loc 0 = [.wait .l44] ∧ (∀ x ∈ π, x.tid = 0) ∧
        Allowed Fits π) (by decide +kernel)
    exact ⟨s, π, hp, hc, hl, waiters_accounted hp (fun _ => ⟨0, ht⟩) hf⟩

/-! ## Without room -/

/-- A signal for somebody, by a thread that holds `m`. -/
theorem signal_round {s : St} {t : Tid} {c : Counters} (hl : s.loc t = [])
    (hs : s.mem = ⟨c, some t⟩) (hw : int32 c.c_waiting ≠ 0) : ∃ π, (intLines true).Path s π
      (s.move t [] ⟨⟨int32 c.c_waiting, int32 (c.c_signaled + 1)⟩, some t⟩) := by
  obtain ⟨π, hπ⟩ : ∃ π, (intLines true).run s [] ((t, .call (.signal .l96)) ::
      List.replicate 2 (t, .run ⟨0, 0⟩)) =
        some (s.move t [] ⟨⟨int32 c.c_waiting, int32 (c.c_signaled + 1)⟩, some t⟩, π) := by
    simp [Program.run, Program.step, intLines, stored, lines, exec, hl, hs, ownCode, Frame.starts,
      Frame.line, conditionSignal, Mem.ints, Counters.ints, hw, Mem.setSignaled, int32_add,
      List.replicate]
  exact ⟨π, path_of_run hπ⟩

/-- A wait made from the `progress()` of the calls `k`, up to its own. -/
theorem wait_round {s : St} {t : Tid} {c : Counters} {k : List Frame} (hl : s.loc t = k)
    (hk : ownCode k = true) (hs : s.mem = ⟨c, none⟩) (hz : int32 c.c_signaled = 0) :
    ∃ π, (intLines false).Path s π
      (s.move t (.wait .l44 :: k) ⟨⟨int32 (c.c_waiting + 1), 0⟩, none⟩) ∧ ∀ x ∈ π, x.tid = t := by
  obtain ⟨π, hπ⟩ : ∃ π, (intLines false).run s [] ((t, .call (.wait .l27)) ::
      List.replicate 3 (t, .run ⟨0, 0⟩)) =
        some (s.move t (.wait .l44 :: k) ⟨⟨int32 (c.c_waiting + 1), 0⟩, none⟩, π) := by
    simp [Program.run, Program.step, intLines, stored, lines, exec, hl, hk, hs, Frame.starts,
      Frame.line, conditionWait, Mem.ints, Counters.ints, hz, Mem.setWaiting, int32_add,
      List.replicate]
  exact ⟨π, path_of_run hπ, tid_of_run (P := (· = t)) hπ (by simp [List.replicate])⟩

/-- A waiter, and another thread that has taken `m`. -/
def oneWaiter : List (Tid × Act) :=
  [(0, Act.lock), (0, Act.call (.wait .l27))] ++ List.replicate 5 (0, Act.run ⟨0, 0⟩) ++
  [(1, Act.lock)]

/-- Any number of signals for one waiter. -/
theorem exists_signals (n : ℕ) : ∃ s π, (intLines true).Path start π s ∧
    s.mem.cond.c_signaled = int32 n := by
  obtain ⟨s, π, hp, hl, hm⟩ := exists_path_of_run (p := intLines true) (s := start) oneWaiter
    (P := fun s _ => s.loc 1 = [] ∧ s.mem = ⟨⟨1, 0⟩, some 1⟩) (by decide +kernel)
  let x (n : ℕ) : St := s.move 1 [] ⟨⟨1, int32 n⟩, some 1⟩
  have hx₀ : x 0 = s := by
    have hself : s.move 1 (s.loc 1) s.mem = s := State.move_self s 1
    rw [hl, hm] at hself
    simpa only [x, Int.ofNat_zero, int32_zero] using hself
  have round : ∀ n, ∃ π, (intLines true).Path (x n) π (x (n + 1)) ∧ ∀ y ∈ π, True := fun n => by
    have hone : int32 1 = 1 := int32_of_mem (by decide) (by decide)
    obtain ⟨ρ, hρ⟩ := signal_round (s := x n) (State.move_loc_self ..) rfl (by rw [hone]; decide)
    refine ⟨ρ, ?_, fun _ _ => trivial⟩
    rwa [State.move_move, hone, int32_add, ← Int.natCast_succ] at hρ
  obtain ⟨ρ, hρ, -⟩ := Path.rounds x round n
  exact ⟨_, _, hp.append (hx₀ ▸ hρ), rfl⟩

/-- Any number of waits, each made from the `progress()` of the one before. -/
theorem exists_waits (n : ℕ) : ∃ s π, (intLines false).Path start π s ∧ (∀ x ∈ π, x.tid = 0) ∧
    s.mem.cond.c_waiting = int32 n := by
  let x (n : ℕ) : St := start.move 0 (List.replicate n (.wait .l44)) ⟨⟨int32 n, 0⟩, none⟩
  have round : ∀ n, ∃ π, (intLines false).Path (x n) π (x (n + 1)) ∧ ∀ y ∈ π, y.tid = 0 := by
    intro n
    have hown : ownCode (List.replicate n (.wait .l44)) = true := by cases n <;> rfl
    obtain ⟨ρ, hρ, htid⟩ := wait_round (s := x n) (State.move_loc_self ..) hown rfl int32_zero
    refine ⟨ρ, ?_, htid⟩
    rwa [State.move_move, int32_add, ← Int.natCast_succ] at hρ
  obtain ⟨π, hπ, htid⟩ := Path.rounds x round n
  have hx₀ : x 0 = start := by
    have hself : start.move 0 [] ⟨⟨0, 0⟩, none⟩ = start := State.move_self start 0
    simpa only [x, Int.ofNat_zero, int32_zero, List.replicate_zero] using hself
  exact ⟨_, π, hx₀ ▸ hπ, htid, rfl⟩

/-- **Without room the counters become negative**: `c_signaled` with threads, `c_waiting`
without. -/
theorem not_accounted :
    (∃ s π, (intLines true).Path start π s ∧ s.mem.cond.c_signaled = -2 ^ 31 ∧
      ¬ Accounted true π s) ∧
    ∃ s π, (intLines false).Path start π s ∧ (∀ x ∈ π, x.tid = 0) ∧
      s.mem.cond.c_waiting = -2 ^ 31 ∧ ¬ Accounted false π s := by
  have hwrap : int32 (2 ^ 31 : ℕ) = -2 ^ 31 := by decide +kernel
  constructor
  · obtain ⟨s, π, hp, hs⟩ := exists_signals (2 ^ 31)
    refine ⟨s, π, hp, hs.trans hwrap, fun h => ?_⟩
    have := h.signaled_nonneg
    omega
  · obtain ⟨s, π, hp, htid, hw⟩ := exists_waits (2 ^ 31)
    refine ⟨s, π, hp, htid, hw.trans hwrap, fun h => ?_⟩
    have := h.waiting_nonneg
    omega

end Libult.Condition.Lines
