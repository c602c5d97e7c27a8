import Libult.Threads.Waiting

/-!
# Threads/Wakeup — the wake-up that comes between the test and the registration

`WAKEUP_THREAD` takes no lock: the value it stores in `c_signaled` is the `c_waiting` it has loaded,
and `lck` may have a holder that has tested the flag and not yet registered.  If somebody else is
registered the wake-ups for them send that holder back to its test; if nobody is, it goes to sleep
behind a clear flag.

    49: *act ─▸ 27 ─▸ 30 ─ c_signaled = 0 ─▸ 37–41
        ╰── WAKEUP: *act = false, c_signaled = c_waiting = 0
-/

namespace Libult.Threads

open Interleaving Program Condition

/-- The lines of `condition_wait` before its polling loop. -/
def WaitPc.entering : WaitPc → Bool
  | .l27 | .l27w _ | .l30 => true
  | _ => false

/-- The line behind the polling loop. -/
def WaitPc.leaving : WaitPc → Bool
  | .l48 => true
  | _ => false

/-- What a `WAKEUP_THREAD` is about to store in `c_signaled`. -/
def Thread.storing : Thread → Option ℤ
  | ⟨_, some (.l78 (.l103w v))⟩ => some v
  | _ => none

/-- The events since the flag was last set. -/
def sinceTaken (h : List Event) : List Event := h.takeWhile (· ≠ .taken)

@[simp] theorem sinceTaken_taken (h : List Event) : sinceTaken (.taken :: h) = [] := rfl

theorem sinceTaken_cons {e : Event} (he : e ≠ .taken) (h : List Event) :
    sinceTaken (e :: h) = e :: sinceTaken h := by
  simp [sinceTaken, he]

/-- **A `WAKEUP_THREAD` has finished, and the flag has stayed clear since it cleared it.** -/
def Woken (h : List Event) : Prop := ∃ t, [.woken t, .cleared t].Sublist (sinceTaken h)

/-- **A wake-up reaches everybody**: when a `WAKEUP_THREAD` stores, it stores one for each thread
that has yet to take one, and if it stores none nobody is between its test of the flag and the
polling loop. -/
def Heard (s : St) (t : Tid) (a : Act) : Prop :=
  a = .run → ∀ v ∈ (s.loc t).storing,
    (∀ N : Finset Tid, (∀ t' ∈ N, (s.loc t').frame.waits WaitPc.needing = true) →
      (N.card : ℤ) ≤ v) ∧
      (v = 0 → ∀ t', (s.loc t').frame.waits WaitPc.entering = false)

/-- **What a thread may rely on**, `n` being how many have yet to take a wake-up and `c` how many
are pending: behind the loop there is one, what has been loaded is enough, and after a wake-up
whoever is about to register will not sleep. -/
structure Attended (n : ℕ) (woken : Prop) (c : ℤ) (f : Frame) : Prop where
  leaving : f.waits WaitPc.leaving = true → c ≠ 0
  taking : ∀ v ∈ f.taking, (n : ℤ) ≤ v
  entering : woken → f.waits WaitPc.entering = true → c ≠ 0

/-- **Served**: the pending wake-ups are none or enough for the threads `N` that have yet to take
one, and after a wake-up they are enough. -/
structure Served (N : Finset Tid) (h : List Event) (s : St) : Prop where
  needing : Waiters WaitPc.needing s N
  tokens : s.mem.cond.c_signaled = 0 ∨ (N.card : ℤ) ≤ s.mem.cond.c_signaled
  attended : ∀ t, Attended N.card (Woken h) s.mem.cond.c_signaled (s.loc t).frame
  flag : ∀ t, .cleared t ∈ sinceTaken h → s.mem.act = false
  woken : Woken h → (N.card : ℤ) ≤ s.mem.cond.c_signaled

theorem start_served : Served ∅ [] (start true) where
  needing t := by simp [start, Frame.waits]
  tokens := .inl rfl
  attended _ := ⟨fun h => (by cases h), fun _ h => (by cases h), fun _ h => (by cases h)⟩
  flag _ h := by cases h
  woken h := by
    obtain ⟨t, ht⟩ := h
    cases ht

theorem Woken.cleared {h : List Event} (hw : Woken h) : ∃ t, .cleared t ∈ sinceTaken h := by
  obtain ⟨t, ht⟩ := hw
  exact ⟨t, ht.subset (by simp)⟩

/-- A wake-up finishes with its own event. -/
theorem Woken.of_cons {e : Event} {h : List Event} (hw : Woken (e :: h))
    (he : ∀ t, e ≠ .woken t) : Woken h := by
  obtain ⟨t, ht⟩ := hw
  by_cases hT : e = .taken
  · rw [hT, sinceTaken_taken] at ht
    cases ht
  · rw [sinceTaken_cons hT] at ht
    refine ⟨t, ?_⟩
    cases ht with
    | cons _ ht => exact ht
    | cons_cons => exact absurd rfl (he t)

section Attended

variable {n n' : ℕ} {w w' : Prop} {c c' : ℤ} {f f' : Frame}

/-- Without `lck` there is nothing to rely on. -/
theorem attended_of_not_holds (hh : f.holds = false) : Attended n w c f := by
  cases f with
  | acquire pc =>
    cases pc with
    | l50 pc =>
      cases pc <;> first
        | (cases hh; done)
        | exact ⟨fun h => (by cases h), fun _ h => (by cases h), fun _ h => (by cases h)⟩
    | _ => exact ⟨fun h => (by cases h), fun _ h => (by cases h), fun _ h => (by cases h)⟩
  | _ => exact ⟨fun h => (by cases h), fun _ h => (by cases h), fun _ h => (by cases h)⟩

theorem Attended.mono (h : Attended n w c f) (hw : w' → w) : Attended n w' c f :=
  ⟨h.leaving, h.taking, fun hw' => h.entering (hw hw')⟩

end Attended

/-! ## What a step does to the wake-ups -/

/-- **The ways a thread treats the wake-ups.** -/
inductive Serves : Frame → Mem → Frame → Mem → Prop
  | stay {f f' : Frame} {m m' : Mem} : f'.waits WaitPc.needing = f.waits WaitPc.needing →
      (f'.waits WaitPc.entering = true → f.waits WaitPc.entering = true) →
      (f'.waits WaitPc.leaving = true → f.waits WaitPc.leaving = true) →
      (∀ v ∈ f'.taking, v ∈ f.taking) → m'.cond.c_signaled = m.cond.c_signaled →
      Serves f m f' m'
  | refuse {m : Mem} : m.act = true → Serves (.acquire .l49) m (.acquire (.l50 .l27)) m
  | enter {m : Mem} : m.cond.c_signaled = 0 →
      Serves (.acquire (.l50 .l30)) m (.acquire (.l50 .l37)) m
  | stop {m : Mem} : m.cond.c_signaled ≠ 0 →
      Serves (.acquire (.l50 .l37)) m (.acquire (.l50 .l48)) m
  | load {m : Mem} :
      Serves (.acquire (.l50 .l48)) m (.acquire (.l50 (.l48w m.cond.c_signaled))) m
  | take {v : ℤ} {m : Mem} :
      Serves (.acquire (.l50 (.l48w v))) m (.acquire (.l50 .l49)) (m.setSignaled (v - 1))
  | broadcast {v : ℤ} {m : Mem} :
      Serves (.release (.l70 (.l103w v))) m (.release .l71) (m.setSignaled v)

section Moves

variable {t : Tid} {a : Act} {th th' : Thread} {m m' : Mem} {e : Event}

theorem conditionWait_serves {pc : WaitPc} {o : Option WaitPc}
    (h : conditionWait t m pc = some (o, m')) :
    Serves (.acquire (.l50 pc)) m (.acquire (o.elim .l49 .l50)) m' := by
  cases pc <;> simp only [conditionWait, Option.ite_none_right_eq_some, Option.some.injEq,
    Prod.mk.injEq] at h
  case l30 =>
    obtain ⟨rfl, rfl⟩ := h
    split
    · exact .stay rfl (fun h => by cases h) (fun h => by cases h) (fun _ h => by cases h) rfl
    · exact .enter (not_not.mp ‹_›)
  case l37 =>
    obtain ⟨rfl, rfl⟩ := h
    split
    · exact .stay rfl (fun h => by cases h) (fun h => by cases h) (fun _ h => by cases h) rfl
    · exact .stop (Ne.symm ‹_›)
  case l48 => obtain ⟨rfl, rfl⟩ := h; exact .load
  case l48w => obtain ⟨rfl, rfl⟩ := h; exact .take
  case l34 | l40 =>
    obtain ⟨-, rfl, rfl⟩ := h
    exact .stay rfl (fun h => by cases h) (fun h => by cases h) (fun _ h => by cases h) rfl
  case l27 | l27w =>
    obtain ⟨rfl, rfl⟩ := h
    exact .stay rfl id (fun h => by cases h) (fun _ h => by cases h) rfl
  all_goals
    obtain ⟨rfl, rfl⟩ := h
    exact .stay rfl (fun h => by cases h) (fun h => by cases h) (fun _ h => by cases h) rfl

/-- A step treats them in one of these ways, or is the store of a `WAKEUP_THREAD`. -/
theorem moves_serves (h : Moves t a th m th' m' e) :
    Serves th.frame m th'.frame m' ∧ (∀ t', e ≠ .woken t') ∨
      th'.frame = th.frame ∧ a = .run ∧ ∃ v ∈ th.storing, m' = m.setSignaled v := by
  cases h with
  | wait h => exact .inl ⟨conditionWait_serves h, by simp⟩
  | test hact => exact .inl ⟨.refuse hact, by simp⟩
  | store => exact .inl ⟨.broadcast, by simp⟩
  | wakeStore => exact .inr ⟨rfl, rfl, _, rfl, rfl⟩
  | wakeClear | wakeLoad | callWakeup =>
    exact .inl ⟨.stay rfl id id (fun _ h => h) rfl, by simp⟩
  | _ =>
    exact .inl ⟨.stay rfl (fun h => by cases h) (fun h => by cases h) (fun _ h => by cases h) rfl,
      by simp⟩

/-- The flag is clear after a clear, and set only where that is seen. -/
theorem moves_flag (h : Moves t a th m th' m' e) :
    e = .taken ∨ m'.act = false ∨ m'.act = m.act ∧ ∀ t', e ≠ .cleared t' := by
  cases h with
  | wait h =>
    rename_i pc o
    refine .inr (.inr ⟨?_, by simp⟩)
    cases pc <;> simp only [conditionWait, Option.ite_none_right_eq_some, Option.some.injEq,
      Prod.mk.injEq] at h
    case l34 | l40 => obtain ⟨-, -, rfl⟩ := h; rfl
    all_goals obtain ⟨-, rfl⟩ := h; rfl
  | take => exact .inl rfl
  | clear | wakeClear => exact .inr (.inl rfl)
  | _ => exact .inr (.inr ⟨rfl, by simp⟩)

end Moves

section Step

variable {s : St} {t : Tid} {a : Act} {l : Thread} {m : Mem} {e : Event} {h : List Event}
  {N : Finset Tid}

/-- One step keeps a cleared flag clear, as long as nobody sets it. -/
theorem Served.flag_step (v : Served N h s) (hm : Moves t a (s.loc t) s.mem l m e) (t' : Tid)
    (ht : .cleared t' ∈ sinceTaken (e :: h)) : m.act = false := by
  rcases moves_flag hm with rfl | hact | ⟨hact, hne⟩
  · cases ht
  · exact hact
  · by_cases he : e = .taken
    · rw [he] at ht
      cases ht
    · rw [sinceTaken_cons he] at ht
      rw [hact]
      exact v.flag t' ((List.mem_cons.mp ht).resolve_left fun h => hne t' h.symm)

/-- **A step of anybody but a waker keeps everybody served.** -/
theorem Served.serve (v : Served N h s) (c : Counted s)
    (hs : Serves (s.loc t).frame s.mem l.frame m) (hne : ∀ t', e ≠ .woken t')
    (hflag : ∀ t', .cleared t' ∈ sinceTaken (e :: h) → m.act = false) :
    ∃ N', Served N' (e :: h) (s.move t l m) := by
  have hw : Woken (e :: h) → Woken h := fun hw => hw.of_cons hne
  have hself := v.attended t
  have hbroad := c.card_le (A := WaitPc.needing) (fun pc h => by cases pc <;> first | rfl | cases h)
    v.needing
  have hloaded := c.loaded t
  -- what is left to show, once the threads that have yet to take a wake-up are named
  have build : ∀ N' : Finset Tid, Waiters WaitPc.needing (s.move t l m) N' →
      (m.cond.c_signaled = 0 ∨ (N'.card : ℤ) ≤ m.cond.c_signaled) →
      Attended N'.card (Woken (e :: h)) m.cond.c_signaled l.frame →
      (N' = N ∧ m.cond.c_signaled = s.mem.cond.c_signaled ∨ (s.loc t).frame.holds = true) →
      (Woken (e :: h) → (N'.card : ℤ) ≤ m.cond.c_signaled) →
      ∃ N', Served N' (e :: h) (s.move t l m) := by
    intro N' hN' htok hatt hoth hwok
    refine ⟨N', hN', htok, ?_, hflag, hwok⟩
    refine (State.forall_move (A := fun _ th => Attended N'.card (Woken (e :: h)) m.cond.c_signaled
      th.frame) s t l m).mpr ⟨hatt, fun t' ht' => ?_⟩
    rcases hoth with ⟨rfl, heq⟩ | hh
    · rw [heq]
      exact (v.attended t').mono hw
    · exact attended_of_not_holds (Bool.not_eq_true _ ▸ fun hh' => ht' (c.holder_eq hh hh'))
  have htok := v.tokens
  have hwok := v.woken
  have stays := fun hl => v.needing.stay (t := t) (m := m) (l := l) hl
  have enters := fun hl => v.needing.enter (t := t) (m := m) (l := l) hl
  have leaves := fun hl => v.needing.leave (t := t) (m := m) (l := l) hl
  have hout := v.needing.card_leave (t := t)
  have hact : Woken h → s.mem.act = false := fun hw' => hw'.cleared.elim v.flag
  generalize (s.loc t).frame = f at *
  generalize l.frame = f' at *
  generalize s.mem = m₀ at *
  cases hs with
  | stay hneed hent hleav htake heq =>
    refine build N (stays (by rw [hneed])) (heq ▸ htok) ?_ (.inl ⟨rfl, heq⟩)
      fun hw' => heq ▸ hwok (hw hw')
    rw [heq]
    exact ⟨fun h => hself.leaving (hleav h), fun v hv => hself.taking v (htake v hv),
      fun hw' h => hself.entering (hw hw') (hent h)⟩
  | refuse hset =>
    refine build N (stays Iff.rfl) htok ⟨fun h => (by cases h), fun _ h => (by cases h), ?_⟩
      (.inl ⟨rfl, rfl⟩) fun hw' => hwok (hw hw')
    intro hw' _
    cases hset.symm.trans (hact (hw hw'))
  | enter hz =>
    refine build (insert t N) (enters rfl) (.inl hz)
      ⟨fun h => (by cases h), fun _ h => (by cases h), fun _ h => (by cases h)⟩ (.inr rfl) ?_
    intro hw'
    exact absurd hz (hself.entering (hw hw') rfl)
  | stop hne =>
    exact build N (stays Iff.rfl) htok ⟨fun _ => hne, fun _ h => (by cases h),
      fun _ h => (by cases h)⟩ (.inl ⟨rfl, rfl⟩) fun hw' => hwok (hw hw')
  | load =>
    refine build N (stays Iff.rfl) htok ⟨fun h => (by cases h), fun v hv => ?_,
      fun _ h => (by cases h)⟩ (.inl ⟨rfl, rfl⟩) fun hw' => hwok (hw hw')
    obtain rfl := Option.some.inj hv
    exact htok.resolve_left (hself.leaving rfl)
  | @take v _ =>
    have hle := hself.taking v rfl
    have hcard := hout rfl
    have : ((N.erase t).card : ℤ) ≤ v - 1 := by omega
    exact build (N.erase t) (leaves (by simp [Frame.waits, WaitPc.needing])) (.inr this)
      ⟨fun h => (by cases h), fun _ h => (by cases h), fun _ h => (by cases h)⟩ (.inr rfl)
      fun _ => this
  | @broadcast v _ =>
    have : (N.card : ℤ) ≤ v := hloaded v rfl ▸ hbroad
    exact build N (stays Iff.rfl) (.inr this)
      ⟨fun h => (by cases h), fun _ h => (by cases h), fun _ h => (by cases h)⟩ (.inr rfl)
      fun _ => this

/-- **A store that reaches everybody serves everybody.** -/
theorem Served.wake (v : Served N h s) (hf : l.frame = (s.loc t).frame) {w : ℤ}
    (hN : (N.card : ℤ) ≤ w) (hz : w = 0 → ∀ t', (s.loc t').frame.waits WaitPc.entering = false)
    (hflag : ∀ t', .cleared t' ∈ sinceTaken (e :: h) → s.mem.act = false) :
    Served N (e :: h) (s.move t l (s.mem.setSignaled w)) := by
  have hframe : ∀ t', ((s.move t l (s.mem.setSignaled w)).loc t').frame = (s.loc t').frame := by
    intro t'
    rcases eq_or_ne t' t with rfl | ht'
    · rw [State.move_loc_self, hf]
    · rw [State.move_loc_of_ne _ _ _ _ ht']
  refine ⟨v.needing.stay (by rw [hf]), .inr hN, fun t' => ?_, hflag, fun _ => hN⟩
  rw [hframe t']
  refine ⟨fun hl => ?_, (v.attended t').taking, fun _ he hw => ?_⟩
  · -- who is behind the loop has yet to take one
    have hneed : (s.loc t').frame.waits WaitPc.needing = true :=
      Frame.waits_mono (fun pc hpc => by cases pc <;> first | rfl | cases hpc) hl
    have hpos : 0 < N.card := Finset.card_pos.mpr ⟨t', (v.needing t').mpr hneed⟩
    change w ≠ 0
    omega
  · exact Bool.false_ne_true ((hz hw t').symm.trans he)

/-- **One step keeps everybody served**, if every wake-up reaches everybody. -/
theorem Served.step (v : Served N h s) (c : Counted s) (hE : Heard s t a)
    (hm : Moves t a (s.loc t) s.mem l m e) : ∃ N', Served N' (e :: h) (s.move t l m) := by
  have hflag := v.flag_step hm
  rcases moves_serves hm with ⟨hs, hne⟩ | ⟨hf, ha, w, hw, rfl⟩
  · exact v.serve c hs hne hflag
  · obtain ⟨hN, hz⟩ := hE ha w hw
    exact ⟨N, v.wake hf (hN N fun t' ht' => (v.needing t').mp ht') hz hflag⟩

end Step

/-- **`WAKEUP_THREAD` is not lost** in a run whose wake-ups reach everybody: once one has finished,
and as long as the flag stays clear, a thread in the polling loop has a wake-up pending. -/
theorem wakeup_not_lost {s : St} {π : List (Transition Tid Thread Mem Act Event)}
    (hp : threads.Path (start true) π s) (hE : Allowed Heard π) (hw : Woken (events π)) (t : Tid)
    (ht : (s.loc t).frame.waits WaitPc.polling = true) : s.mem.cond.c_signaled ≠ 0 := by
  obtain ⟨-, N, v⟩ := hp.invariant (fun h s => Counted s ∧ ∃ N, Served N h s) Heard
    (fun _ _ _ _ _ _ _ ⟨c, _, v⟩ hE hx =>
      ⟨c.step (moves_of_exec hx), v.step c hE (moves_of_exec hx)⟩) hE
    ⟨start_counted true, ∅, start_served⟩
  have hneed : (s.loc t).frame.waits WaitPc.needing = true :=
    Frame.waits_mono (fun pc hpc => by cases pc <;> first | rfl | cases hpc) ht
  have hpos : 0 < N.card := Finset.card_pos.mpr ⟨t, (v.needing t).mpr hneed⟩
  have := v.woken hw
  omega

/-- A wake-up reaches everybody, checked on the threads below `n`. -/
def HeardBelow (n : ℕ) (s : St) (t : Tid) (a : Act) : Prop :=
  a = .run → ∀ v ∈ (s.loc t).storing,
    (((Finset.range n).filter fun t' =>
      (s.loc t').frame.waits WaitPc.needing = true).card : ℤ) ≤ v ∧
      (v = 0 → ∀ t' ∈ List.range n, (s.loc t').frame.waits WaitPc.entering = false)

instance {n : ℕ} {s : St} {t : Tid} {a : Act} : Decidable (HeardBelow n s t a) := by
  unfold HeardBelow
  infer_instance

theorem heard_of_below {n : ℕ} {s : St} {t : Tid} {a : Act}
    (hs : ∀ t', ¬ t' < n → s.loc t' = ⟨.out, none⟩) (h : HeardBelow n s t a) : Heard s t a := by
  intro ha v hv
  obtain ⟨hN, hz⟩ := h ha v hv
  refine ⟨fun N hneed => ?_, fun hv₀ t' => ?_⟩
  · refine (Int.ofNat_le.mpr (Finset.card_le_card fun t' ht' => ?_)).trans hN
    refine Finset.mem_filter.mpr ⟨Finset.mem_range.mpr (not_not.mp fun hn => ?_), hneed t' ht'⟩
    have := hneed t' ht'
    rw [hs t' hn] at this
    cases this
  · by_cases hn : t' < n
    · exact hz hv₀ t' (List.mem_range.mpr hn)
    · rw [hs t' hn]
      rfl

/-- Thread 0 finds the flag set and goes to sleep, thread 1 wakes it. -/
def wakeSleeper : List (Tid × Act) :=
  (0, Act.acquire) :: List.replicate 7 (0, Act.run) ++
  (1, Act.wakeup) :: List.replicate 3 (1, Act.run)

theorem wakeup_not_lost_sleeper :
    ∃ s π, threads.Path (start true) π s ∧ Woken (events π) ∧
      (s.loc 0).frame.waits WaitPc.polling = true ∧ s.mem.cond.c_signaled ≠ 0 := by
  obtain ⟨s, π, hp, hA, hE, hw, hpoll⟩ := exists_path_of_run (p := threads) (s := start true)
    wakeSleeper (P := fun s π => (∀ x ∈ π, x.tid < 2) ∧ Allowed (HeardBelow 2) π ∧
      [Event.woken 1, .cleared 1].Sublist (sinceTaken (events π)) ∧
      (s.loc 0).frame.waits WaitPc.polling = true) (by decide)
  have hheard := hp.allowed_of_acting (A := (· < 2)) hA (fun _ _ _ hs h => heard_of_below hs h) hE
  exact ⟨s, π, hp, ⟨1, hw⟩, hpoll, wakeup_not_lost hp hheard ⟨1, hw⟩ 0 hpoll⟩

/-- Thread 0 has found the flag set when thread 1 clears it and wakes nobody; thread 0 registers and
goes to sleep. -/
def wakeTooEarly : List (Tid × Act) :=
  (0, Act.acquire) :: List.replicate 2 (0, Act.run) ++
  (1, Act.wakeup) :: List.replicate 3 (1, Act.run) ++ List.replicate 6 (0, Act.run)

/-- **The wake-up is lost** between the test and the registration. -/
theorem wakeup_lost :
    ¬ ∀ (s : St) (π : List (Transition Tid Thread Mem Act Event)),
      threads.Path (start true) π s → Woken (events π) →
      ∀ t, (s.loc t).frame.waits WaitPc.polling = true → s.mem.cond.c_signaled ≠ 0 := by
  intro hall
  obtain ⟨s, π, hp, hw, hpoll, hz⟩ := exists_path_of_run (p := threads) (s := start true)
    wakeTooEarly (P := fun s π => [Event.woken 1, .cleared 1].Sublist (sinceTaken (events π)) ∧
      (s.loc 0).frame.waits WaitPc.polling = true ∧ s.mem.cond.c_signaled = 0) (by decide)
  exact hall s π hp ⟨1, hw⟩ 0 hpoll hz

end Libult.Threads
