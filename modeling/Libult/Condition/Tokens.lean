import Libult.Condition.Bounds

/-!
# Condition/Tokens — whom a wake-up is for

Pending wake-ups are one number.  What keeps them for the threads they were sent to is that nobody
registers while some are pending: a `condition_wait` that begins then returns early and leaves them
alone.  A `condition_timedwait` that begins then takes one instead (`Moves.take`), and a broadcast
sends none to a thread in the early return, which has deregistered and is still inside.

    broadcast: c_signaled = c_waiting ──leave: both fall──▸ c_signaled = c_waiting ──▸ …
-/

namespace Libult.Condition

open Interleaving Program

/-- The thread is inside `condition_wait` or `condition_timedwait`. -/
def Inside (t : Tid) (s : St) : Prop := (s.loc t).within = true

instance (t : Tid) (s : St) : Decidable (Inside t s) := by unfold Inside; infer_instance

/-- The thread is inside a wait and registered: not in the early return. -/
def Registered (t : Tid) (s : St) : Prop := (s.loc t).inside = true

theorem inside_iff {t : Tid} {s : St} : Inside t s ↔ Registered t s ∨ s.loc t = .early :=
  Point.within_iff

theorem Registered.isInside {t : Tid} {s : St} (h : Registered t s) : Inside t s :=
  inside_iff.mpr (.inl h)

/-- **A broadcast is kept for its waiters**: at the end of a run there is a wake-up for every thread
that was inside a wait at a broadcast of it and has not left it. -/
def BroadcastKept (π : List (Transition Tid Point Mem Act Event)) (s : St) : Prop :=
  ∀ ρ x π', π = ρ ++ x :: π' → x.act = .broadcast →
    ∀ W : Finset Tid, (∀ t ∈ W, Inside t x.pre ∧ Throughout (Inside t) ρ s) →
      (W.card : ℤ) ≤ s.mem.cond.c_signaled

/-- **A signal is kept for its waiters**: whoever takes a wake-up while one of a signal is pending
was inside a wait when that signal was issued and has not left it. -/
def SignalKept (π : List (Transition Tid Point Mem Act Event)) : Prop :=
  ∀ y ρ x π', π = y :: (ρ ++ x :: π') → y.ev = .consumed →
    x.act = .signal → (∃ t, Inside t x.pre) → Throughout (·.mem.cond.c_signaled ≠ 0) ρ y.pre →
      Inside y.tid x.pre ∧ Throughout (Inside y.tid) ρ y.pre

/-- No timed wait begins while wake-ups are pending. -/
def NoTake (s : St) (_ : Tid) : Act → Prop
  | .timedwait _ => s.mem.cond.c_signaled = 0
  | _ => True

instance (s : St) (t : Tid) (a : Act) : Decidable (NoTake s t a) := by
  unfold NoTake; split <;> infer_instance

/-- No broadcast is made while a thread is in the early return: it is inside `condition_wait`, and
`c_waiting` does not count it. -/
def NoneEarly (s : St) (_ : Tid) (a : Act) : Prop := a = .broadcast → ∀ t, s.loc t ≠ .early

/-- **The step leaves every wake-up to the threads it is for.** -/
def Spares (s : St) (t : Tid) (a : Act) : Prop := NoTake s t a ∧ NoneEarly s t a

section Step

variable {s : St} {t : Tid} {a : Act} {l : Point} {m : Mem} {e : Event}

/-- **While somebody stays registered, everybody registered has a wake-up** — if everybody had one
before. -/
theorem waiting_le_signaled (hs : Counted s) {t₀ : Tid} (hin : Registered t₀ s) (hE : NoTake s t a)
    (h : s.mem.cond.c_waiting ≤ s.mem.cond.c_signaled)
    (hm : Moves a (s.loc t) s.mem.cond l m.cond e) : m.cond.c_waiting ≤ m.cond.c_signaled := by
  have hpos := hs.pos hin
  have htake : ∀ abstime, a = .timedwait abstime → s.mem.cond.c_signaled = 0 := by
    rintro abstime rfl
    exact hE
  generalize s.loc t = p at hm
  generalize s.mem.cond = c at hm h hpos htake
  generalize m.cond = c' at hm ⊢
  cases hm with
  | take _ _ hne => exact absurd (htake _ rfl) hne
  | stay => exact h
  | broadcast => exact le_rfl
  | _ => dsimp only; omega

/-- **While wake-ups are pending nobody registers**, nor does who signals or broadcasts. -/
theorem registered_of_move {t' : Tid}
    (h : s.mem.cond.c_signaled ≠ 0 ∨ a = .signal ∨ a = .broadcast)
    (hm : Moves a (s.loc t) s.mem.cond l m.cond e) (hin : Registered t' (s.move t l m)) :
    Registered t' s := by
  unfold Registered at hin ⊢
  by_cases ht : t' = t
  · subst ht
    rw [State.move_loc_self] at hin
    generalize s.loc t' = p at hm ⊢
    generalize s.mem.cond = c at hm h
    generalize m.cond = c' at hm
    cases hm with
    | stay hl =>
      rcases hl with rfl | ⟨-, hl⟩
      · exact hin
      · exact absurd (hl.symm.trans hin) Bool.false_ne_true
    | enter _ _ hb _ h0 =>
      rcases h with h | rfl | rfl
      · exact absurd h0 h
      · cases hb
      · cases hb
    | expire => rfl
    | leave hin' => exact hin'
    | take _ hl => exact absurd (hl.symm.trans hin) Bool.false_ne_true
    | signal => exact hin
    | broadcast => exact hin
  · rwa [State.move_loc_of_ne _ _ _ _ ht] at hin

/-- A waiter that is registered stays so until it leaves. -/
theorem registered_of_inside {t' : Tid} (h : exec t a (s.loc t) s.mem = some (l, m, e))
    (hreg : Registered t' s) (hin : Inside t' (s.move t l m)) : Registered t' (s.move t l m) := by
  refine (inside_iff.mp hin).resolve_right fun hearly => ?_
  by_cases ht : t' = t
  · subst ht
    rw [State.move_loc_self] at hearly
    subst hearly
    rw [Registered, holding_of_early h] at hreg
    cases hreg
  · rw [State.move_loc_of_ne _ _ _ _ ht] at hearly
    rw [Registered, hearly] at hreg
    cases hreg

/-- A broadcast wakes everybody registered. -/
theorem signaled_of_broadcast (hm : Moves .broadcast (s.loc t) s.mem.cond l m.cond e) :
    m.cond.c_signaled = m.cond.c_waiting := by
  generalize s.loc t = p at hm
  generalize s.mem.cond = c at hm
  generalize m.cond = c' at hm ⊢
  cases hm with
  | stay _ _ hnb => exact absurd rfl hnb
  | enter _ _ hb => cases hb
  | broadcast => rfl

/-- Without such takers a wake-up goes to a registered thread. -/
theorem registered_of_consumed (hE : NoTake s t a)
    (hm : Moves a (s.loc t) s.mem.cond l m.cond .consumed) : Registered t s := by
  unfold Registered
  have htake : ∀ abstime, a = .timedwait abstime → s.mem.cond.c_signaled = 0 := by
    rintro abstime rfl
    exact hE
  generalize s.loc t = p at hm ⊢
  generalize s.mem.cond = c at hm htake
  generalize m.cond = c' at hm
  cases hm with
  | leave hin => exact hin
  | take _ _ hne => exact absurd (htake _ rfl) hne

end Step

section Run

variable {s s' : St} {π ρ : List (Transition Tid Point Mem Act Event)}

/-- From a state where everybody registered has a wake-up: so it stays while somebody remains. -/
theorem waiting_le_signaled_run (hp : condition.Path start π s) (hq : condition.Path s ρ s')
    (hE : Allowed NoTake ρ) (h : s.mem.cond.c_waiting ≤ s.mem.cond.c_signaled) {t₀ : Tid}
    (hin : ∀ x ∈ ρ, Registered t₀ x.pre) : s'.mem.cond.c_waiting ≤ s'.mem.cond.c_signaled := by
  induction hq with
  | nil => exact h
  | snoc hρ hs ih =>
    obtain ⟨hx, hE⟩ := allowed_cons.mp hE
    obtain ⟨hin₀, hin⟩ := List.forall_mem_cons.mp hin
    obtain ⟨l, m, hexec, rfl⟩ := step_eq_some.mp hs
    exact waiting_le_signaled (counted (hp.append hρ)) hin₀ hx (ih hE hin) (moves_of_exec hexec)

/-- From a state on: while wake-ups are pending, whoever is registered has been so throughout. -/
theorem registered_of_pending_run (hq : condition.Path s ρ s')
    (h : Throughout (·.mem.cond.c_signaled ≠ 0) ρ s') {t : Tid} (hin : Registered t s') :
    Registered t s ∧ Throughout (Registered t) ρ s' := by
  induction hq with
  | nil => exact ⟨hin, throughout_nil.mpr hin⟩
  | snoc _ hs ih =>
    have hpend := (throughout_cons.mp h).2
    obtain ⟨l, m, hexec, rfl⟩ := step_eq_some.mp hs
    obtain ⟨h₀, h₁⟩ := ih hpend (registered_of_move (.inl hpend.1) (moves_of_exec hexec) hin)
    exact ⟨h₀, throughout_cons.mpr ⟨hin, h₁⟩⟩

/-- Whoever is registered, and does not leave, is registered throughout. -/
theorem registered_run {t : Tid} (hq : condition.Path s ρ s') (h : Registered t s)
    (hin : Throughout (Inside t) ρ s') : Throughout (Registered t) ρ s' := by
  induction hq with
  | nil => exact throughout_nil.mpr h
  | snoc _ hs ih =>
    obtain ⟨hend, hρ⟩ := throughout_cons.mp hin
    obtain ⟨l, m, hexec, rfl⟩ := step_eq_some.mp hs
    have hreg := ih hρ
    exact throughout_cons.mpr ⟨registered_of_inside hexec hreg.1 hend, hreg⟩

theorem broadcastKept (hp : condition.Path start π s) (hE : Allowed Spares π) :
    BroadcastKept π s := by
  rintro ρ ⟨s₀, t, a, e⟩ π' rfl rfl W hW
  obtain ⟨hp', s₁, hs, hρ⟩ := hp.split
  -- nobody is in the early return, so who is inside is registered
  have hreg : ∀ t' ∈ W, Throughout (Registered t') ρ s := fun t' ht' => by
    obtain ⟨hin, hthru⟩ := hW t' ht'
    have hreg₀ : Registered t' s₀ := (inside_iff.mp hin).resolve_right
      ((hE ⟨s₀, t, .broadcast, e⟩ (by simp)).2 rfl t')
    have hin₁ : Inside t' s₁ := hρ.start_of_throughout hthru
    obtain ⟨l, m, hexec, rfl⟩ := step_eq_some.mp hs
    exact registered_run hρ (registered_of_inside hexec hreg₀ hin₁) hthru
  rcases W.eq_empty_or_nonempty with rfl | ⟨t₀, ht₀⟩
  · exact (counted hp).2
  · have hle : s₁.mem.cond.c_waiting ≤ s₁.mem.cond.c_signaled := by
      obtain ⟨l, m, hexec, rfl⟩ := step_eq_some.mp hs
      exact (signaled_of_broadcast (moves_of_exec hexec)).ge
    calc (W.card : ℤ) ≤ s.mem.cond.c_waiting := (counted hp).card_le fun t ht => (hreg t ht).1
      _ ≤ s.mem.cond.c_signaled := waiting_le_signaled_run (hp'.snoc hs) hρ
          (fun x hx => (hE x (List.mem_append_left _ hx)).1) hle (hreg t₀ ht₀).2

theorem signalKept (hp : condition.Path start π s) (hE : Allowed NoTake π) : SignalKept π := by
  rintro ⟨s₂, t₂, a₂, e₂⟩ ρ ⟨s₀, t, a, e⟩ π' rfl rfl rfl - hpend
  obtain _ | ⟨hp, hs₂⟩ := hp
  obtain ⟨-, s₁, hs, hρ⟩ := hp.split
  obtain ⟨hx, -⟩ := allowed_cons.mp hE
  obtain ⟨l₂, m₂, hexec₂, -⟩ := step_eq_some.mp hs₂
  obtain ⟨h₁, hthru⟩ := registered_of_pending_run hρ hpend
    (registered_of_consumed hx (moves_of_exec hexec₂))
  obtain ⟨l, m, hexec, rfl⟩ := step_eq_some.mp hs
  exact ⟨(registered_of_move (.inr (.inl rfl)) (moves_of_exec hexec) h₁).isInside,
    hthru.mono fun _ h => h.isInside⟩

/-- **Where a pending wake-up comes from**: a signal that found somebody, with wake-ups pending ever
since — or a broadcast, and it has one for each thread still registered. -/
def Origin (π : List (Transition Tid Point Mem Act Event)) (s : St) : Prop :=
  ∃ ρ x π', π = ρ ++ x :: π' ∧
    (x.act = .signal ∧ (∃ t, Registered t x.pre) ∧ Throughout (·.mem.cond.c_signaled ≠ 0) ρ s ∨
     x.act = .broadcast ∧ s.mem.cond.c_signaled = s.mem.cond.c_waiting ∧
      ∀ t, Registered t s → Registered t x.pre ∧ Throughout (Registered t) ρ s)

theorem origin_step {t : Tid} {a : Act} {l : Point} {m : Mem} {e : Event} (hs : Counted s)
    (hE : NoTake s t a) (h : s.mem.cond.c_signaled ≠ 0 → Origin π s)
    (hm : Moves a (s.loc t) s.mem.cond l m.cond e) (hne : m.cond.c_signaled ≠ 0) :
    Origin (⟨s, t, a, e⟩ :: π) (s.move t l m) := by
  -- a wake-up that was pending already keeps its origin
  have keep : s.mem.cond.c_signaled ≠ 0 →
      m.cond.c_signaled - m.cond.c_waiting = s.mem.cond.c_signaled - s.mem.cond.c_waiting →
      Origin (⟨s, t, a, e⟩ :: π) (s.move t l m) := by
    intro hne₀ hdiff
    obtain ⟨ρ, x, π', rfl, ho⟩ := h hne₀
    refine ⟨⟨s, t, a, e⟩ :: ρ, x, π', rfl, ?_⟩
    rcases ho with ⟨hx, hin, hthru⟩ | ⟨hx, heq, hin⟩
    · exact .inl ⟨hx, hin, throughout_cons.mpr ⟨hne, hthru⟩⟩
    · refine .inr ⟨hx, by rw [State.move_mem]; omega, fun t' ht' => ?_⟩
      obtain ⟨h₀, hthru⟩ := hin t' (registered_of_move (.inl hne₀) hm ht')
      exact ⟨h₀, throughout_cons.mpr ⟨ht', hthru⟩⟩
  have htake : ∀ abstime, a = .timedwait abstime → s.mem.cond.c_signaled = 0 := by
    rintro abstime rfl
    exact hE
  have hmove : a = .broadcast → ∀ t', Registered t' (s.move t l m) → Registered t' s := fun ha t' =>
    registered_of_move (.inr (.inr ha)) hm
  have hall : a = .broadcast → m.cond.c_signaled = m.cond.c_waiting := by
    rintro rfl
    exact signaled_of_broadcast hm
  have hend : (s.move t l m).mem.cond.c_signaled ≠ 0 := hne
  have hpos : s.mem.cond.c_waiting ≠ 0 → ∃ t, Registered t s := hs.exists_inside
  generalize s.loc t = p at hm
  generalize hc : s.mem.cond = c at hm keep htake hpos
  generalize m.cond = c' at hm hne keep
  cases hm with
  | stay => exact keep hne rfl
  | enter _ _ _ _ h0 => exact absurd h0 hne
  | leave _ _ hne₀ => exact keep hne₀ (by dsimp only; omega)
  | expire _ h0 => exact absurd h0 hne
  | take _ _ hne₀ => exact absurd (htake _ rfl) hne₀
  | signal _ hw =>
    exact ⟨[], _, π, rfl, .inl ⟨rfl, hpos hw, throughout_nil.mpr hend⟩⟩
  | broadcast =>
    exact ⟨[], _, π, rfl, .inr ⟨rfl, hall rfl, fun t' ht' =>
      ⟨hmove rfl t' ht', throughout_nil.mpr ht'⟩⟩⟩

theorem origin (hp : condition.Path start π s) (hE : Allowed NoTake π)
    (hne : s.mem.cond.c_signaled ≠ 0) : Origin π s := by
  induction hp with
  | nil => exact absurd rfl hne
  | snoc hp hs ih =>
    obtain ⟨hx, hE⟩ := allowed_cons.mp hE
    obtain ⟨l, m, hexec, rfl⟩ := step_eq_some.mp hs
    exact origin_step (counted hp) hx (ih hE) (moves_of_exec hexec) hne

/-- What a timed wait does that takes a wake-up as it begins. -/
theorem exec_take {t : Tid} {abstime : Timespec} {p l : Point} {m m' : Mem} {e : Event}
    (h : exec t (.timedwait abstime) p m = some (l, m', e)) (hne : m.cond.c_signaled ≠ 0) :
    p = .holding ∧ l = .holding ∧ e = .consumed ∧ m'.cond.c_waiting = m.cond.c_waiting ∧
      m'.cond.c_signaled = m.cond.c_signaled - 1 := by
  cases p with
  | holding => ?_
  | _ => exact absurd h (by simp [exec])
  simp only [exec, stretch, conditionTimedwait, conditionTimedwaitEnd, Ne.symm hne, if_false,
    ne_eq, not_false_eq_true, if_true, Option.some.injEq, Prod.mk.injEq] at h
  obtain ⟨rfl, rfl, rfl⟩ := h
  exact ⟨rfl, rfl, if_pos (Int.sub_one_lt_of_le le_rfl), by simp, rfl⟩

/-- A broadcast is made with `m` held, and its thread goes on. -/
theorem exec_broadcast {t : Tid} {p l : Point} {m m' : Mem} {e : Event}
    (h : exec t .broadcast p m = some (l, m', e)) : p = .holding ∧ l = .holding := by
  cases p with
  | holding => exact ⟨rfl, (congrArg Prod.fst (Option.some.inj h)).symm⟩
  | _ => cases h

/-- **A timed wait that takes a wake-up takes it from the threads it is for.** -/
theorem noTake_of_kept {s₁ : St} {t : Tid} {a : Act} {e : Event} (hp : condition.Path start π s)
    (hE : Allowed NoTake π) (hs : condition.step s t a = some (s₁, e))
    (hb : BroadcastKept (⟨s, t, a, e⟩ :: π) s₁) (hk : SignalKept (⟨s, t, a, e⟩ :: π)) :
    NoTake s t a := by
  cases a with
  | timedwait abstime => ?_
  | _ => trivial
  by_contra hne
  obtain ⟨l, m, hexec, rfl⟩ := step_eq_some.mp hs
  obtain ⟨hl, rfl, rfl, hw, hsig⟩ := exec_take hexec hne
  have hout : ¬ Inside t s := by simp [Inside, hl, Point.within]
  obtain ⟨ρ, x, π', rfl, ⟨hx, ⟨t', hin⟩, hthru⟩ | ⟨hx, heq, hin⟩⟩ := origin hp hE hne
  · -- it was not inside a wait when the signal was issued
    exact hout (hk _ ρ x π' rfl rfl hx ⟨t', hin.isInside⟩ hthru).2.1
  · -- the broadcast's waiters are one wake-up short
    obtain ⟨⟨W, hW, hcard⟩, -⟩ := counted hp
    have := hb (_ :: ρ) x π' rfl hx W fun t' ht' => by
      have hreg : Registered t' s := (hW t').mp ht'
      obtain ⟨h₀, hthru⟩ := hin t' hreg
      refine ⟨h₀.isInside, throughout_cons.mpr ⟨?_, hthru.mono fun _ h => h.isInside⟩⟩
      rw [Inside, State.move_loc_of_ne _ _ _ _ fun (h : t' = t) => hout (h ▸ hreg.isInside)]
      exact hreg.isInside
    rw [State.move_mem] at this
    omega

/-- **A broadcast has no wake-up for a thread in the early return.** -/
theorem noneEarly_of_kept {s₁ : St} {t : Tid} {a : Act} {e : Event} (hp : condition.Path start π s)
    (hs : condition.step s t a = some (s₁, e)) (hb : BroadcastKept (⟨s, t, a, e⟩ :: π) s₁) :
    NoneEarly s t a := by
  rintro rfl t' hearly
  have hp₁ := hp.snoc hs
  obtain ⟨l, m, hexec, rfl⟩ := step_eq_some.mp hs
  have hsig := signaled_of_broadcast (moves_of_exec hexec)
  obtain ⟨⟨W, hW, hcard⟩, -⟩ := counted hp₁
  rw [State.move_mem] at hcard
  obtain ⟨hl, hloc⟩ : s.loc t = .holding ∧ l = .holding := exec_broadcast hexec
  have stays : ∀ t', Inside t' s → Inside t' (s.move t l m) := fun t' hin => by
    have ht : t' ≠ t := fun h => by simp [Inside, h, hl, Point.within] at hin
    rwa [Inside, State.move_loc_of_ne _ _ _ _ ht]
  have hout : t' ∉ W := fun h => by
    have hne : t' ≠ t := fun h => by simp [← h, hearly] at hl
    have := (hW t').mp h
    rw [State.move_loc_of_ne _ _ _ _ hne, hearly] at this
    cases this
  have := hb [] _ π rfl rfl (insert t' W) fun t₁ ht₁ => by
    have hin : Inside t₁ s := by
      rcases Finset.mem_insert.mp ht₁ with rfl | h
      · exact inside_iff.mpr (.inr hearly)
      · exact (registered_of_move (.inr (.inr rfl)) (moves_of_exec hexec) ((hW t₁).mp h)).isInside
    exact ⟨hin, throughout_nil.mpr (stays t₁ hin)⟩
  rw [Finset.card_insert_of_notMem hout, State.move_mem] at this
  push_cast at this
  omega

end Run

/-- **Wake-ups stay with the threads they were sent to, at every point of a run, if and only if
every step of the run leaves them to those** — while the counters fit their `int`s. -/
theorem kept_iff_spares {s : St} {π : List (Transition Tid Point Mem Act Event)}
    (hp : intCondition.Path start π s) (hf : Allowed Fits π) :
    (∀ ρ π' s', π = ρ ++ π' → intCondition.Path start π' s' →
      BroadcastKept π' s' ∧ SignalKept π') ↔ Allowed Spares π := by
  constructor
  · intro h
    induction hp with
    | nil => exact allowed_nil _
    | @snoc s₁ s₂ π t a e hp hs ih =>
      have hE := ih (allowed_cons.mp hf).2 fun ρ π' s' hπ =>
        h (_ :: ρ) π' s' (by rw [hπ, List.cons_append])
      obtain ⟨hb, hk⟩ := h [] _ _ rfl (hp.snoc hs)
      obtain _ | ⟨hp, hs⟩ := path_of_intCondition (hp.snoc hs) hf
      have htake := noTake_of_kept hp (hE.mono fun _ _ _ h => h.1) hs hb hk
      exact allowed_cons.mpr ⟨⟨htake, noneEarly_of_kept hp hs hb⟩, hE⟩
  · rintro hE ρ π' s' rfl hp'
    have hE' : Allowed Spares π' := fun x hx => hE x (List.mem_append_right _ hx)
    have hp' := path_of_intCondition hp' fun x hx => hf x (List.mem_append_right _ hx)
    exact ⟨broadcastKept hp' hE', signalKept hp' (hE'.mono fun _ _ _ h => h.1)⟩

/-- A waiter, a broadcast for it, and a second waiter that begins a wait of the given kind. -/
def waitBehind (a : Act) : List (Tid × Act) :=
  [(0, Act.lock), (0, Act.wait), (1, Act.lock), (1, Act.broadcast), (1, Act.unlock),
    (2, Act.lock), (2, a)]

theorem kept_of_wait_behind :
    ∃ s π, intCondition.Path start π s ∧ s.loc 2 = .early ∧ BroadcastKept π s ∧ SignalKept π := by
  obtain ⟨s, π, hp, hl, hf, htake, htid, hearly⟩ := exists_path_of_run (p := intCondition)
    (s := start) (waitBehind .wait) (P := fun s π => s.loc 2 = .early ∧ Allowed Fits π ∧
      Allowed NoTake π ∧ (∀ x ∈ π, x.tid ∈ [0, 1, 2]) ∧
      ∀ x ∈ π, x.act = .broadcast →
        x.pre.loc 0 ≠ .early ∧ x.pre.loc 1 ≠ .early ∧ x.pre.loc 2 ≠ .early) (by decide +kernel)
  have hspares : Allowed Spares π := fun x hx => ⟨htake x hx, fun ha t => by
    by_cases ht : t ∈ [0, 1, 2]
    · obtain ⟨h₀, h₁, h₂⟩ := hearly x hx ha
      obtain rfl | rfl | rfl : t = 0 ∨ t = 1 ∨ t = 2 := by simpa using ht
      exacts [h₀, h₁, h₂]
    · have hout := (hp.untouched (A := (· ∈ [0, 1, 2])) htid).2 x hx t ht
      simp [hout, start]⟩
  exact ⟨s, π, hp, hl, (kept_iff_spares hp hf).mpr hspares [] π s rfl hp⟩

/-- A waiter, a signal for it, a second wait that finds it pending, and a broadcast. -/
def broadcastEarly : List (Tid × Act) :=
  [(0, Act.lock), (0, Act.wait), (1, Act.lock), (1, Act.signal), (1, Act.unlock), (2, Act.lock),
    (2, Act.wait), (1, Act.lock), (1, Act.broadcast)]

/-- **A timed wait that begins after a broadcast takes the wake-up sent to another; and a broadcast
has none for a `condition_wait` in its early return.** -/
theorem not_broadcastKept :
    (∃ s π, intCondition.Path start π s ∧ Allowed Fits π ∧ s.loc 0 = .polling ∧
      s.mem.cond.c_signaled = 0 ∧ ¬ BroadcastKept π s) ∧
    ∃ s π, intCondition.Path start π s ∧ Allowed Fits π ∧ Allowed NoTake π ∧
      ¬ BroadcastKept π s := by
  constructor
  · obtain ⟨s, π, hp, hf, hl, hsig, hx, hin, hthru⟩ := exists_path_of_run (p := intCondition)
      (s := start) (waitBehind (.timedwait ⟨0, 0⟩)) (P := fun s π => Allowed Fits π ∧
        s.loc 0 = .polling ∧ s.mem.cond.c_signaled = 0 ∧
        (π[3]?.any fun x => x.act = .broadcast ∧ Inside 0 x.pre) = true ∧
        Inside 0 s ∧ ∀ y ∈ π.take 3, Inside 0 y.pre) (by decide +kernel)
    obtain ⟨x, hx, hxa⟩ := (Option.any_eq_true _ _).mp hx
    obtain ⟨hact, hin₀⟩ := of_decide_eq_true hxa
    obtain ⟨hlt, rfl⟩ := List.getElem?_eq_some_iff.mp hx
    have hsplit : π = π.take 3 ++ π[3] :: π.drop 4 := by
      rw [← List.drop_eq_getElem_cons hlt, List.take_append_drop]
    refine ⟨s, π, hp, hf, hl, hsig, fun hb => ?_⟩
    have := hb (π.take 3) π[3] (π.drop 4) hsplit hact {0} fun t ht => by
      obtain rfl := Finset.mem_singleton.mp ht
      exact ⟨hin₀, hin, hthru⟩
    simp [hsig] at this
  · obtain ⟨s, π, hp, hf, htake, hx⟩ := exists_path_of_run (p := intCondition) (s := start)
      broadcastEarly (P := fun s π => Allowed Fits π ∧ Allowed NoTake π ∧
        (π.head?.any fun x => x.act = .broadcast ∧ x.pre.loc 2 = .early) = true)
      (by decide +kernel)
    refine ⟨s, π, hp, hf, htake, fun hb => ?_⟩
    obtain _ | ⟨hp₀, hs⟩ := path_of_intCondition hp hf
    · cases hx
    · obtain ⟨hact, hearly⟩ := of_decide_eq_true hx
      exact noneEarly_of_kept hp₀ hs hb hact 2 hearly

end Libult.Condition
