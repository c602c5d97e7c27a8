import Libult.Condition.Code
import Libult.Interleaving.Census

/-!
# Condition/Bounds — no stale signals

`c_waiting` counts the registered waiters, whatever the calls: every registration is undone once.
`c_signaled` stays between zero and that count as long as `condition_signal` finds room; its guard,
`c_waiting ≠ 0`, does not ask for it, where `condition_broadcast` does.
-/

namespace Libult.Condition

open Interleaving Program

/-- `0 <= c_signaled <= c_waiting`. -/
def Counters.Bounded (c : Counters) : Prop := 0 ≤ c.c_signaled ∧ c.c_signaled ≤ c.c_waiting

instance (c : Counters) : Decidable c.Bounded := by unfold Counters.Bounded; infer_instance

/-- **A signal finds room**: somebody registered whom no earlier wake-up is meant for, or nobody. -/
def Room (s : St) (_ : Tid) (a : Act) : Prop :=
  a = .signal → s.mem.cond.c_waiting ≠ 0 → s.mem.cond.c_signaled < s.mem.cond.c_waiting

instance (s : St) (t : Tid) (a : Act) : Decidable (Room s t a) := by unfold Room; infer_instance

/-! ## The waiters are counted -/

/-- `c_waiting` counts the registered threads, and wake-ups are not owed. -/
def Counted (s : St) : Prop :=
  (∃ W, Census (fun p => Point.inside p = true) s W ∧ s.mem.cond.c_waiting = W.card) ∧
    0 ≤ s.mem.cond.c_signaled

theorem start_counted : Counted start :=
  ⟨⟨∅, fun _ => by simp [start, Point.inside], rfl⟩, le_rfl⟩

section Step

variable {s : St} {t : Tid} {a : Act} {l : Point} {m : Mem} {e : Event}

/-- Whoever is inside is counted. -/
theorem Counted.pos (h : Counted s) (ht : (s.loc t).inside = true) : 0 < s.mem.cond.c_waiting := by
  obtain ⟨⟨W, hW, hcard⟩, -⟩ := h
  rw [hcard]
  exact_mod_cast Finset.card_pos.mpr ⟨t, (hW t).mpr ht⟩

/-- If anybody is counted, somebody is inside. -/
theorem Counted.exists_inside (h : Counted s) (hne : s.mem.cond.c_waiting ≠ 0) :
    ∃ t, (s.loc t).inside = true := by
  obtain ⟨⟨W, hW, hcard⟩, -⟩ := h
  obtain ⟨t, ht⟩ := Finset.card_pos.mp (by omega : 0 < W.card)
  exact ⟨t, (hW t).mp ht⟩

/-- Threads that are inside are no more than are counted. -/
theorem Counted.card_le (h : Counted s) {W : Finset Tid} (hW : ∀ t ∈ W, (s.loc t).inside = true) :
    (W.card : ℤ) ≤ s.mem.cond.c_waiting := by
  obtain ⟨⟨V, hV, hcard⟩, -⟩ := h
  rw [hcard]
  exact_mod_cast Finset.card_le_card fun t ht => (hV t).mpr (hW t ht)

/-- **One step keeps the count.** -/
theorem Counted.step (h : Counted s) (hm : Moves a (s.loc t) s.mem.cond l m.cond e) :
    Counted (s.move t l m) := by
  obtain ⟨⟨W, hW, hcard⟩, hnonneg⟩ := h
  have outside : (s.loc t).inside = false → l.inside = false → Census (fun p => p.inside = true)
      (s.move t l m) W := fun hp hl => hW.stay (by simp [hp, hl])
  unfold Counted
  rw [State.move_mem]
  generalize hp : s.loc t = p at hm
  generalize hc : s.mem.cond = c at hm hcard hnonneg
  generalize m.cond = c' at hm ⊢
  cases hm with
  | stay hl =>
    refine ⟨⟨W, hW.stay ?_, hcard⟩, hnonneg⟩
    rcases hl with rfl | ⟨hout, hl⟩
    · rw [hp]
    · simp [hp, hout, hl]
  | enter hout hl =>
    refine ⟨⟨insert t W, hW.enter hl, ?_⟩, hnonneg⟩
    rw [hW.card_enter (by simp [hp, hout])]
    push_cast
    omega
  | leave hin hl hne =>
    have := hW.card_leave (t := t) (by simp [hp, hin])
    exact ⟨⟨W.erase t, hW.leave (by simp [hl]), by dsimp only; omega⟩, by dsimp only; omega⟩
  | expire hl =>
    have := hW.card_leave (t := t) (by simp [hp, Point.inside])
    exact ⟨⟨W.erase t, hW.leave (by simp [hl]), by dsimp only; omega⟩, hnonneg⟩
  | take hout hl hne =>
    exact ⟨⟨W, outside (hp ▸ hout) hl, hcard⟩, by dsimp only; omega⟩
  | signal hout =>
    exact ⟨⟨W, outside (hp ▸ hout) hout, hcard⟩, by dsimp only; omega⟩
  | broadcast hout =>
    exact ⟨⟨W, outside (hp ▸ hout) hout, hcard⟩, by dsimp only; omega⟩

/-- **One step keeps the bound**, a signal if it finds room. -/
theorem Counters.Bounded.step (hs : Counted s) (h : s.mem.cond.Bounded) (hr : Room s t a)
    (hm : Moves a (s.loc t) s.mem.cond l m.cond e) : m.cond.Bounded := by
  have hpos := hs.pos (t := t)
  unfold Room at hr
  unfold Counters.Bounded at *
  generalize s.loc t = p at hm hpos
  generalize s.mem.cond = c at hm h hr hpos
  generalize m.cond = c' at hm ⊢
  cases hm with
  | stay => exact h
  | signal _ hne => have := hr rfl hne; dsimp only; omega
  | expire => have := hpos rfl; dsimp only; omega
  | _ => dsimp only; omega

/-- A signal without room breaks it. -/
theorem room_of_bounded (h : m.cond.Bounded) (hm : Moves a (s.loc t) s.mem.cond l m.cond e) :
    Room s t a := by
  rintro rfl hne
  generalize s.loc t = p at hm
  generalize s.mem.cond = c at hm hne ⊢
  generalize m.cond = c' at hm h
  cases hm with
  | stay _ hz => exact absurd (hz rfl) hne
  | enter _ _ hb => cases hb
  | signal => have := h.2; dsimp only at this; omega

end Step

/-! ## The claimed bound, over runs -/

/-- **No signal stays stored**: once nobody is registered, none is left, and whoever calls
`condition_wait` from then on is in its loop until a signal or a broadcast finds somebody
registered. -/
def NoneStored (s : St) : Prop :=
  s.mem.cond.c_waiting = 0 → s.mem.cond.c_signaled = 0 ∧
    ∀ ρ s', condition.Path s ρ s' →
      (∀ x ∈ ρ, x.act = .signal ∨ x.act = .broadcast → x.pre.mem.cond.c_waiting = 0) →
      ∀ x ∈ ρ, x.act = .wait → s'.loc x.tid = .polling

/-- A step that finds nothing stored, and is no wake-up of anybody, leaves nothing stored and takes
nobody out of the loop; a wait goes into it. -/
theorem quiet_step {s : St} {t : Tid} {a : Act} {l : Point} {m : Mem} {e : Event}
    (h : s.mem.cond.c_signaled = 0)
    (hq : a = .signal ∨ a = .broadcast → s.mem.cond.c_waiting = 0)
    (hm : Moves a (s.loc t) s.mem.cond l m.cond e) :
    m.cond.c_signaled = 0 ∧ (s.loc t = .polling ∨ a = .wait → l = .polling) := by
  generalize s.loc t = p at hm ⊢
  generalize s.mem.cond = c at hm h hq
  generalize m.cond = c' at hm ⊢
  cases hm with
  | stay hl _ _ hw =>
    refine ⟨h, ?_⟩
    rintro (rfl | rfl)
    · exact hl.resolve_right fun hout => Bool.false_ne_true (hout.1.symm.trans rfl)
    · exact absurd h (hw rfl)
  | enter hout _ _ hw =>
    refine ⟨h, ?_⟩
    rintro (rfl | rfl)
    · exact absurd hout (by simp [Point.inside])
    · exact hw rfl
  | leave _ _ hne => exact absurd h hne
  | expire => exact ⟨h, by simp⟩
  | take _ _ hne => exact absurd h hne
  | signal _ hne => exact absurd (hq (.inl rfl)) hne
  | broadcast hout =>
    refine ⟨hq (.inr rfl), ?_⟩
    rintro (rfl | h')
    · exact absurd hout (by simp [Point.inside])
    · cases h'

/-- Nothing is stored where the bound holds. -/
theorem noneStored_of_bounded {s : St} (h : s.mem.cond.Bounded) : NoneStored s := by
  intro hz
  have h0 : s.mem.cond.c_signaled = 0 := by have := h.1; have := h.2; omega
  refine ⟨h0, fun ρ s' hp hq => ?_⟩
  suffices s'.mem.cond.c_signaled = 0 ∧ ∀ x ∈ ρ, x.act = .wait → s'.loc x.tid = .polling from this.2
  induction hp with
  | nil => exact ⟨h0, fun _ hx => absurd hx (by simp)⟩
  | @snoc s₁ s₂ ρ t a e _ hs ih =>
    obtain ⟨hq₁, hρ⟩ := List.forall_mem_cons.mp hq
    obtain ⟨h1, hw⟩ := ih hρ
    obtain ⟨l, m, hx, rfl⟩ := step_eq_some.mp hs
    obtain ⟨h2, hl⟩ := quiet_step h1 hq₁ (moves_of_exec hx)
    refine ⟨h2, List.forall_mem_cons.mpr ⟨fun ha => ?_, fun x hx ha => ?_⟩⟩
    · rw [State.move_loc_self]
      exact hl (.inr ha)
    · by_cases ht : x.tid = t
      · rw [ht, State.move_loc_self]
        exact hl (.inl (ht ▸ hw x hx ha))
      · rw [State.move_loc_of_ne _ _ _ _ ht]
        exact hw x hx ha

/-- In every run the registered threads are counted. -/
theorem counted {s : St} {π : List (Transition Tid Point Mem Act Event)}
    (hp : condition.Path start π s) : Counted s :=
  hp.invariant (fun _ s => Counted s) (fun _ _ _ => True)
    (fun _ _ _ _ _ _ _ hi _ hx => hi.step (moves_of_exec hx)) (fun _ _ => trivial) start_counted

/-! ## The counters in `int`s -/

/-- **There is room in the `int`s**: no signal is made with 2³¹ - 1 wake-ups pending, and no wait
with as many waiters registered. -/
def Fits (s : St) (_ : Tid) (a : Act) : Prop :=
  (a = .signal → s.mem.cond.c_signaled < 2 ^ 31 - 1) ∧
    (a.begins = true → s.mem.cond.c_waiting < 2 ^ 31 - 1)

instance (s : St) (t : Tid) (a : Act) : Decidable (Fits s t a) := by unfold Fits; infer_instance

/-- **One step keeps the counters below**, if there is room. -/
theorem Counters.Below.step {s : St} {t : Tid} {a : Act} {l : Point} {m : Mem} {e : Event}
    (h : s.mem.cond.Below) (hf : Fits s t a) (hm : Moves a (s.loc t) s.mem.cond l m.cond e) :
    m.cond.Below := by
  obtain ⟨hsig, hbegin⟩ := hf
  unfold Below at h ⊢
  generalize s.loc t = p at hm
  generalize s.mem.cond = c at hm h hsig hbegin
  generalize m.cond = c' at hm ⊢
  cases hm with
  | stay => exact h
  | enter _ _ hb => have := hbegin hb; dsimp only; omega
  | signal => have := hsig rfl; dsimp only; omega
  | _ => dsimp only; omega

/-- **Where there is room, a run in `int`s is a run in integers.** -/
theorem path_of_intCondition {s : St} {π : List (Transition Tid Point Mem Act Event)}
    (hp : intCondition.Path start π s) (hf : Allowed Fits π) : condition.Path start π s := by
  refine hp.of_stored hf fun π s' t a l m e hπ hE hx hexec => ?_
  have hm := moves_of_exec hexec
  have hbelow : s'.mem.cond.Below := hπ.invariant (fun _ s => s.mem.cond.Below) Fits
    (fun _ _ _ _ _ _ _ hi hx hexec => hi.step hx (moves_of_exec hexec)) hE
    (by simp [start, conditionConstruct, Counters.Below])
  obtain ⟨⟨W, -, hcard⟩, hs⟩ := (counted hπ).step hm
  rw [State.move_mem] at hcard hs
  rw [Mem.ints, Counters.ints_eq (by omega) hs (hbelow.step hx hm)]

/-- **`0 ≤ c_signaled ≤ c_waiting` in every state of a run, and nothing stored, if and only if every
signal of the run finds room.** -/
theorem bounded_iff_room {s : St} {π : List (Transition Tid Point Mem Act Event)}
    (hp : condition.Path start π s) :
    Throughout (fun s => s.mem.cond.Bounded ∧ NoneStored s) π s ↔ Allowed Room π := by
  induction hp with
  | nil =>
    have h : start.mem.cond.Bounded := by decide
    simpa [throughout_nil, allowed_nil] using ⟨h, noneStored_of_bounded h⟩
  | @snoc s₁ s₂ π t a e hp hs ih =>
    obtain ⟨l, m, hx, rfl⟩ := step_eq_some.mp hs
    have hm := moves_of_exec hx
    rw [throughout_cons, allowed_cons, ih]
    refine and_congr_left fun hπ => ⟨fun h => room_of_bounded h.1 hm, fun hr => ?_⟩
    have h₁ := (ih.mpr hπ).1.1
    have h₂ := h₁.step (counted hp) hr hm
    exact ⟨h₂, noneStored_of_bounded h₂⟩

/-- A waiter, then two signals before it takes one. -/
def signalTwice : List (Tid × Act) :=
  [(0, Act.lock), (0, Act.wait), (1, Act.lock), (1, Act.signal), (1, Act.signal)]

/-- One signal for one waiter finds room; the run is bounded. -/
theorem bounded_of_one_signal :
    ∃ s π, condition.Path start π s ∧ s.mem.cond = ⟨1, 1⟩ ∧
      Throughout (fun s => s.mem.cond.Bounded ∧ NoneStored s) π s := by
  obtain ⟨s, π, hp, hc, hr⟩ := exists_path_of_run (p := condition) (s := start)
    (signalTwice.take 4) (P := fun s π => s.mem.cond = ⟨1, 1⟩ ∧ Allowed Room π) (by decide)
  exact ⟨s, π, hp, hc, (bounded_iff_room hp).mpr hr⟩

/-- **The second signal is counted though nobody is left to take it.** -/
theorem not_bounded :
    ∃ s π, condition.Path start π s ∧ s.mem.cond = ⟨1, 2⟩ ∧ ¬ s.mem.cond.Bounded :=
  exists_path_of_run signalTwice (by decide)

end Libult.Condition
