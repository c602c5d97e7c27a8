import Libult.Condition.Accounting
import Libult.Condition.Bounds
import Libult.Interleaving.Solo

/-!
# Condition/Stretches — what is done with `m` held is one step

With threads, and while `progress()` makes no calls, a thread that has `m` is alone with the
counters until it gives `m` back, so the lines it executes there are one step of `condition`, taken
as the stretch begins.

    27 ─▸ 29 ─▸ 30 ─▸ 37 ─▸ 38 ─▸ 39 ─▸ 40 ─▸ 37 ─▸ 48 ─▸ 49 ─▸ return
    ╰───── wait, m held ─────╯ polling  ╰───── resume, m held ───────╯
-/

namespace Libult.Condition.Lines

open Interleaving Program

/-! ## Where a stretch is going -/

/-- The counters a stretch leaves and the point it reaches, from the line it is at. -/
def Frame.ahead (c : Counters) : Frame → Counters × Point
  | .wait .l27 => Condition.conditionWait c
  | .wait .l29 | .wait .l30 =>
      if c.c_signaled ≠ 0 then ({ c with c_waiting := c.c_waiting - 1 }, .early) else (c, .polling)
  | .wait .l31 => ({ c with c_waiting := c.c_waiting - 1 }, .early)
  | .wait .l32 | .wait .l33 | .wait .l34 => (c, .early)
  | .wait .l37 => conditionWaitPoll c
  | .wait .l48 => (⟨c.c_waiting - 1, c.c_signaled - 1⟩, .holding)
  | .wait .l49 => ({ c with c_waiting := c.c_waiting - 1 }, .holding)
  | .wait _ => (c, .polling)
  | .timedwait abstime _ .l59 => Condition.conditionTimedwait abstime c
  | .timedwait abstime _ .l60 | .timedwait abstime _ .l63 | .timedwait abstime _ .l64 =>
      if 0 = c.c_signaled then (c, .timedPolling abstime.absolute)
      else (conditionTimedwaitEnd c, .holding)
  | .timedwait abstime tv .l70 => conditionTimedwaitPoll abstime.absolute tv c
  | .timedwait _ _ .l88 => (conditionTimedwaitEnd c, .holding)
  | .timedwait _ _ .l89 => (⟨c.c_waiting - 1, c.c_signaled - 1⟩, .holding)
  | .timedwait _ _ .l91 => ({ c with c_waiting := c.c_waiting - 1 }, .holding)
  | .timedwait abstime _ _ => (c, .timedPolling abstime.absolute)
  | .signal .l96 => (Condition.conditionSignal c, .holding)
  | .signal .l97 => ({ c with c_signaled := c.c_signaled + 1 }, .holding)
  | .broadcast => (Condition.conditionBroadcast c, .holding)

/-- …whether or not its call has returned. -/
def outcome (c : Counters) : List Frame → Counters × Point
  | [] => (c, .holding)
  | f :: _ => f.ahead c

/-- The memory at the end of a stretch of `t`. -/
def settled (t : Tid) (r : Counters × Point) : Mem :=
  ⟨r.1, if r.2 = .holding then some t else none⟩

/-- Where `t` is, its stretch done. -/
def point (m : Mem) (t : Tid) : List Frame → Point
  | [] => if m.mutex = some t then .holding else .outside
  | f :: _ => (f.ahead m.cond).2

/-- **The state that whoever holds `m` is about to leave.** -/
def stretches (s : St) : Condition.St where
  loc t := point s.mem t (s.loc t)
  mem := match s.mem.mutex with
    | none => s.mem
    | some t => settled t (outcome s.mem.cond (s.loc t))

/-- The same for `t`, who holds `m` if anybody does. -/
def view (t : Tid) (k : List Frame) (m : Mem) : Point × Mem :=
  (point m t k, if m.mutex = some t then settled t (outcome m.cond k) else m)

section Line

variable {t : Tid} {now : Timeval} {f : Frame} {o : Option Frame} {m m' : Mem} {e : Event}

/-- **What a line does to its stretch.** -/
inductive Pace (t : Tid) : Frame → Mem → Option Frame → Mem → Prop
  /-- It goes on, or returns. -/
  | on {f : Frame} {o : Option Frame} {m m' : Mem} : f.critical = true →
      o.elim true Frame.critical = true → m'.mutex = m.mutex →
      outcome m'.cond o.toList = f.ahead m.cond → Pace t f m o m'
  /-- It ends. -/
  | ends {f g : Frame} {m : Mem} : f.critical = true → g.critical = false →
      (f.ahead m.cond).2 ≠ .holding → g.ahead m.cond = f.ahead m.cond →
      (f.ahead m.cond).1 = m.cond → Pace t f m (some g) m.unlock
  /-- The next has not begun. -/
  | idles {f g : Frame} {m : Mem} : f.critical = false → g.critical = false →
      (∀ c, g.ahead c = f.ahead c) → Pace t f m (some g) m
  /-- It begins. -/
  | begins (tv : Timeval) {f : Frame} {o : Option Frame} {m : Mem} :
      f.critical = false → o.elim true Frame.critical = true → m.mutex = none →
      Condition.exec t (.resume tv) (f.ahead m.cond).2 m =
        some (stretch t m.cond (outcome m.cond o.toList)) → Pace t f m o (m.lock t)

theorem conditionWait_pace {pc : WaitPc} {pc' : Option WaitPc}
    (h : conditionWait true t m pc = some (pc', m', e)) (hf : (Frame.wait pc).threaded = true) :
    Pace t (.wait pc) m (pc'.map .wait) m' := by
  cases pc <;> simp only [conditionWait, Option.ite_none_right_eq_some, Option.some.injEq,
    Prod.mk.injEq, if_true] at h
  case l43 | l44 => cases hf
  case l27 =>
    obtain ⟨rfl, rfl, -⟩ := h
    exact .on rfl rfl rfl (by simp [outcome, Frame.ahead, Condition.conditionWait, Mem.setWaiting])
  case l29 | l31 =>
    obtain ⟨rfl, rfl, -⟩ := h
    exact .on rfl rfl rfl rfl
  case l30 =>
    obtain ⟨rfl, rfl, -⟩ := h
    by_cases hz : m.cond.c_signaled = 0
    · rw [if_neg (not_not.mpr hz)]
      exact .on rfl rfl rfl (by simp [outcome, Frame.ahead, conditionWaitPoll, hz])
    · rw [if_pos hz]
      exact .on rfl rfl rfl (by simp [outcome, Frame.ahead, hz])
  case l32 | l38 =>
    obtain ⟨rfl, rfl, -⟩ := h
    exact .ends rfl rfl (by simp [Frame.ahead]) rfl rfl
  case l33 | l39 =>
    obtain ⟨rfl, rfl, -⟩ := h
    exact .idles rfl rfl fun _ => rfl
  case l34 =>
    obtain ⟨hnone, rfl, rfl, -⟩ := h
    exact .begins ⟨0, 0⟩ rfl rfl hnone (by
      simp [Condition.exec, Frame.ahead, outcome, hnone, stretch])
  case l40 =>
    obtain ⟨hnone, rfl, rfl, -⟩ := h
    exact .begins ⟨0, 0⟩ rfl rfl hnone (if_pos hnone)
  case l37 =>
    obtain ⟨rfl, rfl, -⟩ := h
    by_cases hz : 0 = m.cond.c_signaled
    · rw [if_pos hz]
      exact .on rfl rfl rfl (by simp [outcome, Frame.ahead, conditionWaitPoll, ← hz])
    · rw [if_neg hz]
      exact .on rfl rfl rfl (by simp [outcome, Frame.ahead, conditionWaitPoll, hz])
  case l48 | l49 =>
    obtain ⟨rfl, rfl, -⟩ := h
    exact .on rfl rfl rfl rfl

theorem conditionTimedwait_pace {abstime : Timespec} {tv : Timeval} {pc : TimedwaitPc}
    {q : Option (Timeval × TimedwaitPc)}
    (h : conditionTimedwait true t now m abstime tv pc = some (q, m', e))
    (hf : (Frame.timedwait abstime tv pc).threaded = true) :
    Pace t (.timedwait abstime tv pc) m (q.map fun q => .timedwait abstime q.1 q.2) m' := by
  cases pc <;> simp only [conditionTimedwait, Option.ite_none_right_eq_some, Option.some.injEq,
    Prod.mk.injEq, if_true] at h
  case l77 | l78 | l80 | l81 | l82 => cases hf
  case l59 =>
    obtain ⟨rfl, rfl, -⟩ := h
    exact .on rfl rfl rfl rfl
  case l60 | l63 | l89 | l91 =>
    obtain ⟨rfl, rfl, -⟩ := h
    exact .on rfl rfl rfl rfl
  case l64 =>
    obtain ⟨rfl, rfl, -⟩ := h
    by_cases hz : 0 = m.cond.c_signaled
    · rw [if_pos hz]
      exact .on rfl rfl rfl (by simp [outcome, Frame.ahead, ← hz])
    · rw [if_neg hz]
      exact .on rfl rfl rfl (by simp [outcome, Frame.ahead, hz])
  case l66 =>
    obtain ⟨rfl, rfl, -⟩ := h
    exact .ends rfl rfl (by simp [Frame.ahead]) rfl rfl
  case l67 | l68 =>
    obtain ⟨rfl, rfl, -⟩ := h
    exact .idles rfl rfl fun _ => rfl
  case l69 =>
    obtain ⟨hnone, rfl, rfl, -⟩ := h
    exact .begins tv rfl rfl hnone (if_pos hnone)
  case l70 =>
    obtain ⟨rfl, rfl, -⟩ := h
    by_cases hz : 0 = m.cond.c_signaled ∧ tv.before abstime.absolute
    · rw [if_pos hz]
      exact .on rfl rfl rfl (if_pos hz).symm
    · rw [if_neg hz]
      exact .on rfl rfl rfl (if_neg hz).symm
  case l88 =>
    obtain ⟨rfl, rfl, -⟩ := h
    by_cases hz : m.cond.c_signaled = 0
    · rw [if_neg (not_not.mpr hz.symm)]
      exact .on rfl rfl rfl (by simp [outcome, Frame.ahead, conditionTimedwaitEnd, hz])
    · rw [if_pos (Ne.symm hz)]
      exact .on rfl rfl rfl (by simp [outcome, Frame.ahead, conditionTimedwaitEnd, Ne.symm hz])

/-- …whatever the call. -/
theorem Frame.line_pace (h : f.line true t now m = some (o, m', e)) (hf : f.threaded = true) :
    Pace t f m o m' := by
  cases f with
  | wait pc =>
    obtain ⟨pc', hl, rfl⟩ := Frame.line_wait h
    exact conditionWait_pace hl hf
  | timedwait abstime tv pc =>
    obtain ⟨q, hl, rfl⟩ := Frame.line_timedwait h
    exact conditionTimedwait_pace hl hf
  | signal pc =>
    cases pc <;> obtain ⟨rfl, rfl, -⟩ := h
    · by_cases hz : m.cond.c_waiting = 0
      · rw [conditionSignal, if_neg (not_not.mpr hz)]
        exact .on rfl rfl rfl (by simp [outcome, Frame.ahead, Condition.conditionSignal, hz])
      · rw [conditionSignal, if_pos hz]
        exact .on rfl rfl rfl (by simp [outcome, Frame.ahead, Condition.conditionSignal, hz])
    · exact .on rfl rfl rfl rfl
  | broadcast =>
    obtain ⟨rfl, rfl, -⟩ := h
    exact .on rfl rfl rfl rfl

end Line

/-! ## A thread's turn -/

/-- Locking, unlocking and calling are done outside the calls: `progress()` does none of it. -/
def Unnested (s : St) (t : Tid) : Act → Prop
  | .run _ => True
  | _ => s.loc t = []

instance (s : St) (t : Tid) (a : Act) : Decidable (Unnested s t a) := by
  unfold Unnested; split <;> infer_instance

/-- The stretch an action begins. -/
inductive Begins : Act → Condition.Act → Prop
  | lock : Begins .lock .lock
  | unlock : Begins .unlock .unlock
  | wait {pc : WaitPc} : Begins (.call (.wait pc)) .wait
  | timedwait {abstime : Timespec} {tv : Timeval} {pc : TimedwaitPc} :
      Begins (.call (.timedwait abstime tv pc)) (.timedwait abstime)
  | signal {pc : SignalPc} : Begins (.call (.signal pc)) .signal
  | broadcast : Begins (.call .broadcast) .broadcast
  | resume {now tv : Timeval} : Begins (.run now) (.resume tv)

/-- The thread is in one call at most, and has `m` exactly at the lines that need it. -/
inductive Flat (m : Mem) (t : Tid) : List Frame → Prop
  | nil : Flat m t []
  | frame {f : Frame} : f.threaded = true → (f.critical = true ↔ m.mutex = some t) → Flat m t [f]

/-- **What an action does to the stretch of its thread.** -/
inductive Turn (t : Tid) (a : Act) (k l : List Frame) (m m' : Mem) : Prop
  /-- It has none. -/
  | idle : m' = m → m.mutex ≠ some t → point m t l = point m t k → Turn t a k l m m'
  /-- It goes on with it, or ends it. -/
  | on : m.mutex = some t → m'.mutex = none ∨ m'.mutex = some t → view t l m' = view t k m →
      Turn t a k l m m'
  /-- It begins one. -/
  | begins {b : Condition.Act} : m.mutex = none ∨ m.mutex = some t →
      m'.mutex = none ∨ m'.mutex = some t → (view t k m).2 = m → Begins a b →
      (∃ e, Condition.exec t b (view t k m).1 m = some ((view t l m').1, (view t l m').2, e)) →
      Turn t a k l m m'

section Turn

variable {s : St} {t : Tid} {a : Act} {k l : List Frame} {f : Frame} {m m' : Mem} {e : Event}

/-- `t` alone may have `m`. -/
theorem not_held (h : m.mutex = none ∨ m.mutex = some t) {t' : Tid} (ht' : t' ≠ t) :
    m.mutex ≠ some t' := by
  rintro hm
  rcases h with h | h
  · cases h.symm.trans hm
  · exact ht' (Option.some.inj (hm.symm.trans h))

theorem Flat.congr (h : Flat m t k) (hm : m'.mutex = some t ↔ m.mutex = some t) :
    Flat m' t k := by
  cases h with
  | nil => exact .nil
  | frame hf hc => exact .frame hf (hc.trans hm.symm)

/-- Without `m` a thread is where it is, whatever becomes of the counters. -/
theorem Frame.ahead_of_not_critical (hc : f.critical = false) (c c' : Counters) :
    (f.ahead c').2 = (f.ahead c).2 := by
  cases f with
  | wait pc => cases pc <;> first | rfl | cases hc
  | timedwait _ _ pc => cases pc <;> first | rfl | cases hc
  | signal | broadcast => cases hc

theorem Flat.point_congr (h : Flat m t k) (hm : m.mutex ≠ some t) (hm' : m'.mutex ≠ some t) :
    point m' t k = point m t k := by
  cases h with
  | nil => rw [point, point, if_neg hm, if_neg hm']
  | frame _ hc => exact Frame.ahead_of_not_critical (by simpa [hm] using hc) _ _

theorem view_of_held (hm : m.mutex = some t) :
    view t k m = ((outcome m.cond k).2, settled t (outcome m.cond k)) := by
  cases k <;> simp [view, point, outcome, hm]

theorem settled_holding (hm : m.mutex = some t) (c : Counters) :
    settled t (c, .holding) = { m with cond := c } := by
  rw [settled, if_pos rfl, hm]

theorem view_nil_of_held (hm : m.mutex = some t) : view t [] m = (.holding, m) := by
  rw [view_of_held hm, outcome, settled_holding hm]

theorem view_of_free (hm : m.mutex = none) : view t k m = (point m t k, m) := by
  simp [view, hm]

/-- A call begins a stretch. -/
theorem call_begins (hf : f.starts = true) (hm : m.mutex = some t) :
    ∃ b e, Begins (.call f) b ∧
      Condition.exec t b .holding m = some ((f.ahead m.cond).2, settled t (f.ahead m.cond), e) := by
  cases f with
  | wait pc => cases pc <;> first | exact ⟨.wait, _, .wait, rfl⟩ | cases hf
  | timedwait abstime tv pc =>
    cases pc <;> first | exact ⟨.timedwait abstime, _, .timedwait, rfl⟩ | cases hf
  | signal pc =>
    cases pc with
    | l96 => exact ⟨.signal, .tau, .signal, by simp [Condition.exec, settled, Frame.ahead, hm]⟩
    | l97 => cases hf
  | broadcast =>
    exact ⟨.broadcast, .tau, .broadcast, by simp [Condition.exec, settled, Frame.ahead, hm]⟩

/-- A line keeps its call flat. -/
theorem line_flat {now : Timeval} {o : Option Frame} (hf : f.threaded = true)
    (hc : f.critical = true ↔ m.mutex = some t) (h : f.line true t now m = some (o, m', e)) :
    Flat m' t o.toList := by
  obtain ⟨hkeep, -⟩ := Frame.line_keeps h hf hc.mp
  have hpace := Frame.line_pace h hf
  cases o with
  | none => exact .nil
  | some g =>
    obtain ⟨hg, hcrit⟩ := hkeep g rfl
    refine .frame hg ⟨hcrit, fun hm' => ?_⟩
    cases hpace with
    | on _ hg' => exact hg'
    | ends => cases hm'
    | idles hf' => exact absurd (hc.mpr hm') (by simp [hf'])
    | begins _ _ hg' => exact hg'

/-- **A line is idle, goes on with a stretch, or begins one.** -/
theorem line_turn {now : Timeval} {o : Option Frame} (hf : f.threaded = true)
    (hc : f.critical = true ↔ m.mutex = some t) (h : f.line true t now m = some (o, m', e)) :
    Turn t (.run now) [f] o.toList m m' := by
  have hpace := Frame.line_pace h hf
  cases hpace with
  | on hf' _ hm' hahead =>
    have hm := hc.mp hf'
    refine .on hm (.inr (hm'.trans hm)) ?_
    rw [view_of_held hm, view_of_held (hm'.trans hm), hahead]
    rfl
  | @ends _ g _ hf' _ hp hahead hcond =>
    refine .on (hc.mp hf') (.inl rfl) ?_
    rw [view_of_held (hc.mp hf'), view_of_free rfl]
    refine Prod.ext (congrArg Prod.snd hahead) ?_
    change m.unlock = ⟨(f.ahead m.cond).1, if (f.ahead m.cond).2 = .holding then some t else none⟩
    rw [if_neg hp, hcond]
    rfl
  | idles hf' _ hahead =>
    refine .idle rfl (fun hm => ?_) ?_
    · exact absurd (hc.mpr hm) (by simp [hf'])
    · exact congrArg Prod.snd (hahead m.cond)
  | begins tv hf' _ hfree hexec =>
    refine .begins (b := .resume tv) (.inl hfree) (.inr rfl) ?_ .resume ?_
    · exact congrArg Prod.snd (view_of_free hfree)
    · rw [view_of_free hfree, view_of_held rfl]
      exact ⟨_, hexec⟩

/-- **Whatever the thread does**, it stays flat, and its stretch is begun, gone on with, or none. -/
theorem exec_turn (hk : Flat s.mem t (s.loc t)) (hE : Unnested s t a)
    (h : exec true t a (s.loc t) s.mem = some (l, m, e)) :
    Flat m t l ∧ Turn t a (s.loc t) l s.mem m := by
  generalize hs : s.loc t = k at hk h
  cases a with
  | run now =>
    cases hk with
    | nil => cases h
    | @frame f hf hc =>
      obtain ⟨⟨o, m₁, e₁⟩, hl, hr⟩ := Option.map_eq_some_iff.mp h
      obtain ⟨rfl, rfl, rfl⟩ := hr
      rw [List.append_nil]
      exact ⟨line_flat hf hc hl, line_turn hf hc hl⟩
  | lock =>
    obtain rfl : k = [] := hs.symm.trans hE
    obtain ⟨⟨-, hfree⟩, hr⟩ := Option.ite_none_right_eq_some.mp h
    obtain ⟨rfl, rfl, rfl⟩ := hr
    refine ⟨.nil, .begins (.inl hfree) (.inr rfl) ?_ .lock ?_⟩
    · exact congrArg Prod.snd (view_of_free hfree)
    · rw [view_of_free hfree, view_of_held rfl]
      exact ⟨.tau, by simp [point, hfree, Condition.exec, outcome, settled, Mem.lock]⟩
  | unlock =>
    obtain rfl : k = [] := hs.symm.trans hE
    obtain ⟨⟨-, hheld⟩, hr⟩ := Option.ite_none_right_eq_some.mp h
    obtain ⟨rfl, rfl, rfl⟩ := hr
    refine ⟨.nil, .begins (.inr hheld) (.inl rfl) ?_ .unlock ?_⟩
    · rw [view_nil_of_held hheld]
    · rw [view_nil_of_held hheld, view_of_free rfl]
      exact ⟨_, rfl⟩
  | call f =>
    obtain rfl : k = [] := hs.symm.trans hE
    obtain ⟨⟨-, hf, hheld⟩, hr⟩ := Option.ite_none_right_eq_some.mp h
    obtain ⟨rfl, rfl, rfl⟩ := hr
    have hheld := hheld rfl
    obtain ⟨-, -, hthreaded, hcrit⟩ := Frame.of_starts hf
    obtain ⟨b, e, hb, hexec⟩ := call_begins hf hheld
    refine ⟨.frame hthreaded ⟨fun _ => hheld, fun _ => hcrit⟩,
      .begins (.inr hheld) (.inr hheld) ?_ hb ?_⟩
    · rw [view_nil_of_held hheld]
    · rw [view_nil_of_held hheld, view_of_held hheld]
      exact ⟨e, hexec⟩

/-- Nobody else's hold on `m` changes. -/
theorem Turn.others (h : Turn t a k l m m') {t' : Tid} (ht' : t' ≠ t) :
    m'.mutex = some t' ↔ m.mutex = some t' := by
  cases h with
  | idle hm => rw [hm]
  | on hm hm' => exact iff_of_false (not_held hm' ht') (not_held (.inr hm) ht')
  | begins hm hm' => exact iff_of_false (not_held hm' ht') (not_held hm ht')

end Turn

/-! ## The program of the stretches -/

section Stretches

variable {s : St} {t : Tid} {l : List Frame} {m : Mem}

/-- Whoever holds `m`, if anybody does, has the say. -/
theorem stretches_mem (h : s.mem.mutex = none ∨ s.mem.mutex = some t) :
    (stretches s).mem = (view t (s.loc t) s.mem).2 := by
  rcases h with h | h
  · rw [view_of_free h, stretches, h]
  · rw [view_of_held h, stretches, h]

theorem stretches_move (hF : ∀ t', Flat s.mem t' (s.loc t'))
    (h : s.mem.mutex = none ∨ s.mem.mutex = some t) (h' : m.mutex = none ∨ m.mutex = some t) :
    stretches (s.move t l m) = (stretches s).move t (view t l m).1 (view t l m).2 := by
  refine congrArg₂ State.mk (funext fun t' => ?_) ?_
  · by_cases ht' : t' = t
    · subst ht'
      rw [Function.update_self, State.move_loc_self]
      rfl
    · rw [Function.update_of_ne ht', State.move_loc_of_ne _ _ _ _ ht']
      exact (hF t').point_congr (not_held h ht') (not_held h' ht')
  · have := stretches_mem (s := s.move t l m) h'
    rwa [State.move_loc_self] at this

/-- A thread without `m` that stays where it is changes nothing. -/
theorem stretches_idle (ht : s.mem.mutex ≠ some t)
    (hl : point s.mem t l = point s.mem t (s.loc t)) :
    stretches (s.move t l s.mem) = stretches s := by
  refine congrArg₂ State.mk (funext fun t' => ?_) ?_
  · by_cases ht' : t' = t
    · subst ht'
      rw [State.move_loc_self]
      exact hl
    · rw [State.move_loc_of_ne _ _ _ _ ht']
      rfl
  · change (match s.mem.mutex with
      | none => s.mem
      | some t' => settled t' (outcome s.mem.cond ((s.move t l s.mem).loc t'))) = (stretches s).mem
    unfold stretches
    cases hm : s.mem.mutex with
    | none => rfl
    | some t' =>
      have ht' : t' ≠ t := fun h => ht (hm.trans (congrArg some h))
      simp only [State.move_loc_of_ne _ _ _ _ ht']

/-- **A step is a step of the stretches, or none.** -/
theorem stretches_step {a : Act} {e : Event} (hF : ∀ t', Flat s.mem t' (s.loc t'))
    (hE : Unnested s t a) (h : exec true t a (s.loc t) s.mem = some (l, m, e)) :
    (∀ t', Flat m t' ((s.move t l m).loc t')) ∧ (stretches (s.move t l m) = stretches s ∨
      ∃ b e', condition.step (stretches s) t b = some (stretches (s.move t l m), e') ∧
        (stretches s).mem = s.mem ∧ Begins a b) := by
  obtain ⟨hl, hturn⟩ := exec_turn (hF t) hE h
  refine ⟨(State.forall_move s t l m (A := fun t' k => Flat m t' k)).mpr
    ⟨hl, fun t' ht' => (hF t').congr (hturn.others ht')⟩, ?_⟩
  cases hturn with
  | idle hm ht hp =>
    subst hm
    exact .inl (stretches_idle ht hp)
  | on hm hm' hv =>
    refine .inl ?_
    rw [stretches_move hF (.inr hm) hm', hv, ← stretches_mem (.inr hm)]
    exact (stretches s).move_self t
  | @begins b hm hm' hv hb hexec =>
    obtain ⟨e', hexec⟩ := hexec
    have hmem : (stretches s).mem = s.mem := (stretches_mem hm).trans hv
    refine .inr ⟨b, e', ?_, hmem, hb⟩
    rw [stretches_move hF hm hm']
    refine step_eq_some.mpr ⟨_, _, ?_, rfl⟩
    rw [hmem]
    exact hexec

variable {π : List (Transition Tid (List Frame) Mem Act Event)}

/-- **A run of the lines is a run of the stretches**, each begun by one of its actions, on the
counters as they then are. -/
theorem stretches_of_path (hp : (lines true).Path start π s) (hE : Allowed Unnested π) :
    ∃ ρ, condition.Path Condition.start ρ (stretches s) ∧
      ∀ y ∈ ρ, ∃ x ∈ π, y.pre.mem = x.pre.mem ∧ y.tid = x.tid ∧ Begins x.act y.act := by
  obtain ⟨-, ρ, hρ, hC⟩ := hp.refines (q := condition) stretches
    (fun s => ∀ t, Flat s.mem t (s.loc t)) Unnested
    (fun s a b => (stretches s).mem = s.mem ∧ Begins a b)
    (fun _ _ _ _ _ _ hF hE h => stretches_step hF hE h) hE fun _ => .nil
  refine ⟨ρ, hρ, fun y hy => ?_⟩
  obtain ⟨x, hx, hpre, ht, hmem, hb⟩ := hC y hy
  exact ⟨x, hx, hpre ▸ hmem, ht, hb⟩

/-- **No stale signals, line by line**: whenever `m` is free, `0 ≤ c_signaled ≤ c_waiting`, if every
signal is called while a waiter is left for it, or none. -/
theorem bounded_of_free (hp : (lines true).Path start π s) (hE : Allowed Unnested π)
    (hroom : ∀ x ∈ π, ∀ pc, x.act = .call (.signal pc) → x.pre.mem.cond.c_waiting ≠ 0 →
      x.pre.mem.cond.c_signaled < x.pre.mem.cond.c_waiting)
    (hfree : s.mem.mutex = none) : s.mem.cond.Bounded := by
  obtain ⟨ρ, hρ, hC⟩ := stretches_of_path hp hE
  have hr : Allowed Room ρ := fun y hy ha => by
    obtain ⟨x, hx, hmem, -, hb⟩ := hC y hy
    rw [ha] at hb
    rw [hmem]
    generalize hact : x.act = a at hb
    cases hb
    exact hroom x hx _ hact
  have hbounded := (hρ.invariant (fun _ s => Counted s ∧ s.mem.cond.Bounded) Room
    (fun _ _ _ _ _ _ _ i hE hx => ⟨i.1.step (Condition.moves_of_exec hx),
      i.2.step i.1 hE (Condition.moves_of_exec hx)⟩) hr ⟨start_counted, by decide⟩).2
  rwa [stretches_mem (t := 0) (.inl hfree), view_of_free hfree] at hbounded

end Stretches

/-! ## A stretch ends -/

/-- How many more lines a call can execute with `m` held, at most. -/
def Frame.left : Frame → ℕ
  | .wait .l27 => 5
  | .wait .l29 => 4
  | .wait .l30 => 3
  | .wait .l31 | .wait .l37 | .wait .l43 => 2
  | .wait .l48 | .wait .l32 | .wait .l38 => 1
  | .timedwait _ _ .l59 => 6
  | .timedwait _ _ .l60 => 5
  | .timedwait _ _ .l63 | .timedwait _ _ .l77 | .timedwait _ _ .l81 => 4
  | .timedwait _ _ .l64 | .timedwait _ _ .l70 | .timedwait _ _ .l78 | .timedwait _ _ .l82 => 3
  | .timedwait _ _ .l88 => 2
  | .timedwait _ _ .l66 | .timedwait _ _ .l89 => 1
  | .signal .l96 => 1
  | _ => 0

/-- The stack of a thread between its stretches. -/
inductive Rests : Point → List Frame → Prop
  | outside : Rests .outside []
  | holding : Rests .holding []
  | early : Rests .early [.wait .l34]
  | polling : Rests .polling [.wait .l40]
  | timedPolling {abstime : Timespec} {tv : Timeval} :
      Rests (.timedPolling abstime.absolute) [.timedwait abstime tv .l68]

/-- `t` executes lines, the clock showing `now`. -/
abbrev Runs (t : Tid) (now : Timeval) : List Frame × Mem → List Frame × Mem → Prop :=
  (lines true).Lines t (.run now) fun _ => False

section Runs

variable {s : St} {t : Tid} {now : Timeval} {k l : List Frame} {f g : Frame} {o : Option Frame}
  {m m' : Mem} {e : Event} {x : List Frame × Mem}

theorem Runs.head (h : f.line true t now m = some (o, m', e)) (hr : Runs t now (o.toList, m') x) :
    Runs t now ([f], m) x := by
  refine Relation.ReflTransGen.head ⟨id, e, ?_⟩ hr
  change (f.line true t now m).map _ = _
  rw [h, Option.map_some, List.append_nil]

theorem Runs.path (h : Runs t now (s.loc t, s.mem) x) :
    ∃ π, (lines true).Path s π (s.move t x.1 x.2) ∧ Allowed Unnested π := by
  induction h with
  | refl => exact ⟨[], (s.move_self t).symm ▸ .nil s, allowed_nil _⟩
  | @tail y z _ hyz ih =>
    obtain ⟨π, hπ, hE⟩ := ih
    obtain ⟨-, e, hyz⟩ := hyz
    refine ⟨⟨_, t, .run now, e⟩ :: π, hπ.snoc (step_eq_some.mpr ⟨z.1, z.2, ?_, ?_⟩),
      allowed_cons.mpr ⟨trivial, hE⟩⟩
    · rw [State.move_loc_self]
      exact hyz
    · exact (s.move_move t y.1 y.2 z.1 z.2).symm

/-- **With `m` held a call is not blocked**, and comes nearer to giving `m` back. -/
theorem Frame.line_left (hc : f.critical = true) (t : Tid) (now : Timeval) (m : Mem) :
    ∃ o m' e, f.line true t now m = some (o, m', e) ∧
      ∀ g, o = some g → g.critical = true ∧ g.left < f.left ∨ g.inProgress = true := by
  cases f with
  | wait pc =>
    cases pc
    case l33 | l34 | l39 | l40 | l44 => cases hc
    case l49 => exact ⟨_, _, _, rfl, fun g hg => by cases hg⟩
    case l30 | l37 | l43 =>
      refine ⟨_, _, _, rfl, fun g hg => ?_⟩
      cases hg
      split <;> first | exact .inl ⟨rfl, by decide⟩ | exact .inr rfl
    all_goals
      refine ⟨_, _, _, rfl, fun g hg => ?_⟩
      cases hg
      first | exact .inl ⟨rfl, by decide⟩ | exact .inr rfl
  | timedwait abstime tv pc =>
    cases pc
    case l67 | l68 | l69 | l80 => cases hc
    case l91 => exact ⟨_, _, _, rfl, fun g hg => by cases hg⟩
    case l64 | l70 | l78 | l82 | l88 =>
      refine ⟨_, _, _, rfl, fun g hg => ?_⟩
      cases hg
      split <;> first | exact .inl ⟨rfl, by simp [left]⟩ | exact .inr rfl
    all_goals
      refine ⟨_, _, _, rfl, fun g hg => ?_⟩
      cases hg
      first | exact .inl ⟨rfl, by simp [left]⟩ | exact .inr rfl
  | signal pc =>
    cases pc with
    | l96 =>
      refine ⟨_, _, _, rfl, fun g hg => ?_⟩
      dsimp only [conditionSignal] at hg
      split at hg <;> cases hg
      exact .inl ⟨rfl, by decide⟩
    | l97 => exact ⟨_, _, _, rfl, fun g hg => by cases hg⟩
  | broadcast => exact ⟨_, _, _, rfl, fun g hg => by cases hg⟩

/-- Once `m` is given back, `progress()` is all there is between two stretches. -/
theorem inProgress_runs (now : Timeval) (hf : f.threaded = true) (hp : f.inProgress = true) :
    ∃ k, Runs t now ([f], m) (k, m) ∧ Rests (f.ahead m.cond).2 k := by
  cases f with
  | wait pc =>
    cases pc
    case l33 => exact ⟨_, Runs.head rfl .refl, .early⟩
    case l39 => exact ⟨_, Runs.head rfl .refl, .polling⟩
    case l44 => cases hf
    all_goals cases hp
  | timedwait abstime tv pc =>
    cases pc
    case l67 => exact ⟨_, Runs.head rfl .refl, .timedPolling⟩
    case l80 => cases hf
    all_goals cases hp
  | signal | broadcast => cases hp

/-- **Every stretch ends**, where it was going. -/
theorem stretch_runs (now : Timeval) (hf : f.threaded = true) (hc : f.critical = true)
    (hm : m.mutex = some t) :
    ∃ k, Runs t now ([f], m) (k, settled t (f.ahead m.cond)) ∧ Rests (f.ahead m.cond).2 k := by
  induction hn : f.left using Nat.strong_induction_on generalizing f m with
  | _ n ih =>
    obtain ⟨o, m', e, hl, hleft⟩ := f.line_left hc t now m
    obtain ⟨hkeep, -⟩ := Frame.line_keeps hl hf fun _ => hm
    have hpace := Frame.line_pace hl hf
    cases hpace with
    | on _ ho hm' hahead =>
      have hm' := hm'.trans hm
      rw [← hahead]
      cases o with
      | none =>
        refine ⟨[], Runs.head hl ?_, .holding⟩
        change Runs t now ([], m') ([], ⟨m'.cond, some t⟩)
        rw [← hm']
      | some g =>
        obtain ⟨-, hlt⟩ | hp := hleft g rfl
        · obtain ⟨k, hk, hr⟩ := ih g.left (hn ▸ hlt) (hkeep g rfl).1 ho hm' rfl
          exact ⟨k, Runs.head hl hk, hr⟩
        · exact absurd ho (by simp [Frame.not_critical_of_inProgress hp])
    | @ends _ g _ _ hg hp hahead hcond =>
      obtain ⟨hg', -⟩ | hprog := hleft g rfl
      · cases hg.symm.trans hg'
      obtain ⟨k, hk, hr⟩ := inProgress_runs (t := t) (m := m.unlock) now
        (hkeep g rfl).1 hprog
      refine ⟨k, ?_, by rwa [← hahead]⟩
      rw [settled, if_neg hp, hcond]
      exact Runs.head hl hk
    | idles hc' | begins _ hc' => cases hc.symm.trans hc'

/-- An action outside the calls, and the lines after it. -/
theorem Runs.path_of_exec (now : Timeval) {a : Act} (hE : Unnested s t a)
    (ha : exec true t a (s.loc t) s.mem = some (l, m, e)) (h : Runs t now (l, m) x) :
    ∃ π, (lines true).Path s π (s.move t x.1 x.2) ∧ Allowed Unnested π := by
  obtain ⟨π, hπ, hE'⟩ := Runs.path (s := s.move t l m) (x := x) (by rwa [State.move_loc_self])
  refine ⟨π ++ [⟨s, t, a, e⟩], ?_, fun y hy => ?_⟩
  · exact s.move_move t l m x.1 x.2 ▸ (Program.path_of_exec ha).append hπ
  · rcases List.mem_append.mp hy with hy | hy
    · exact hE' y hy
    · exact List.mem_singleton.mp hy ▸ hE

/-- A call, and its stretch. -/
theorem call_path (hk : s.loc t = []) (hm : s.mem.mutex = some t) (hf : f.starts = true) :
    ∃ k π, (lines true).Path s π (s.move t k (settled t (f.ahead s.mem.cond))) ∧
      Allowed Unnested π ∧ Rests (f.ahead s.mem.cond).2 k := by
  obtain ⟨-, -, hthreaded, hcrit⟩ := Frame.of_starts hf
  obtain ⟨k, hruns, hr⟩ := stretch_runs ⟨0, 0⟩ hthreaded hcrit hm
  have ha : exec true t (.call f) (s.loc t) s.mem = some ([f], s.mem, .tau) := by
    rw [hk]
    exact if_pos ⟨rfl, hf, fun _ => hm⟩
  obtain ⟨π, hπ, hE⟩ := Runs.path_of_exec _ (a := .call f) hk ha hruns
  exact ⟨k, π, hπ, hE, hr⟩

/-- `m` taken again, and the stretch that follows. -/
theorem resume_path (hk : s.loc t = [g]) (h : Runs t now ([g], s.mem) ([f], s.mem.lock t))
    (hf : f.threaded = true) (hc : f.critical = true) :
    ∃ k π, (lines true).Path s π (s.move t k (settled t (f.ahead s.mem.cond))) ∧
      Allowed Unnested π ∧ Rests (f.ahead s.mem.cond).2 k := by
  obtain ⟨k, hruns, hr⟩ := stretch_runs now (m := s.mem.lock t) hf hc rfl
  obtain ⟨π, hπ, hE⟩ := Runs.path (s := s) (hk ▸ h.trans hruns)
  exact ⟨k, π, hπ, hE, hr⟩

/-- **A step of the stretches is one action of the lines and those that follow it.** -/
theorem path_of_stretch {b : Condition.Act} {p p' : Point} {e : Condition.Event}
    (hk : Rests p (s.loc t)) (hp : p = .holding → s.mem.mutex = some t)
    (h : Condition.exec t b p s.mem = some (p', m, e)) :
    ∃ k π, (lines true).Path s π (s.move t k m) ∧ Allowed Unnested π ∧ Rests p' k := by
  generalize hs : s.loc t = k at hk
  cases hk with
  | outside =>
    cases b with
    | lock =>
      obtain ⟨hfree, hr⟩ := Option.ite_none_right_eq_some.mp h
      obtain ⟨rfl, rfl, -⟩ := hr
      obtain ⟨π, hπ, hE⟩ := Runs.path_of_exec ⟨0, 0⟩ (a := .lock) hs
        (by rw [hs]; exact if_pos ⟨rfl, hfree⟩) .refl
      exact ⟨_, π, hπ, hE, .holding⟩
    | _ => cases h
  | holding =>
    have hm := hp rfl
    cases b with
    | unlock =>
      obtain ⟨rfl, rfl, -⟩ := h
      obtain ⟨π, hπ, hE⟩ := Runs.path_of_exec ⟨0, 0⟩ (a := .unlock) hs
        (by rw [hs]; exact if_pos ⟨rfl, hm⟩) .refl
      exact ⟨_, π, hπ, hE, .outside⟩
    | wait =>
      obtain ⟨rfl, rfl, -⟩ := h
      exact call_path (f := .wait .l27) hs hm rfl
    | timedwait abstime =>
      obtain ⟨rfl, rfl, -⟩ := h
      exact call_path (f := .timedwait abstime ⟨0, 0⟩ .l59) hs hm rfl
    | signal =>
      obtain ⟨rfl, rfl, -⟩ := h
      rw [← settled_holding hm]
      exact call_path (f := .signal .l96) hs hm rfl
    | broadcast =>
      obtain ⟨rfl, rfl, -⟩ := h
      rw [← settled_holding hm]
      exact call_path (f := .broadcast) hs hm rfl
    | _ => cases h
  | early =>
    cases b with
    | resume tv =>
      obtain ⟨hfree, hr⟩ := Option.ite_none_right_eq_some.mp h
      obtain ⟨rfl, rfl, -⟩ := hr
      have hl : (Frame.wait .l34).line true t tv s.mem = some (none, s.mem.lock t, .tau) := by
        simp [Frame.line, conditionWait, hfree]
      obtain ⟨π, hπ, hE⟩ := Runs.path (hs ▸ Runs.head hl .refl)
      exact ⟨_, π, hπ, hE, .holding⟩
    | _ => cases h
  | polling =>
    cases b with
    | resume tv =>
      obtain ⟨hfree, hr⟩ := Option.ite_none_right_eq_some.mp h
      obtain ⟨rfl, rfl, -⟩ := hr
      have hl : (Frame.wait .l40).line true t tv s.mem =
          some (some (.wait .l37), s.mem.lock t, .tau) := by
        simp [Frame.line, conditionWait, hfree]
      exact resume_path hs (Runs.head hl .refl) rfl rfl
    | _ => cases h
  | @timedPolling abstime tv₀ =>
    cases b with
    | resume tv =>
      obtain ⟨hfree, hr⟩ := Option.ite_none_right_eq_some.mp h
      obtain ⟨rfl, rfl, -⟩ := hr
      have hl : (Frame.timedwait abstime tv .l69).line true t tv s.mem =
          some (some (.timedwait abstime tv .l70), s.mem.lock t, .tau) := by
        simp [Frame.line, conditionTimedwait, hfree]
      exact resume_path hs (Runs.head rfl (Runs.head hl .refl)) rfl rfl
    | _ => cases h

end Runs

/-! ## Every run of the stretches is one of the lines -/

/-- **A state of the lines between stretches**, and of `condition`. -/
structure Between (q : Condition.St) (s : St) : Prop where
  mem : s.mem = q.mem
  rests : ∀ t, Rests (q.loc t) (s.loc t)
  held : ∀ t, q.loc t = .holding → q.mem.mutex = some t

theorem start_between : Between Condition.start start where
  mem := rfl
  rests _ := .outside
  held _ h := by cases h

/-- A step of the stretches is by whoever may have `m`. -/
theorem exec_held {t : Tid} {b : Condition.Act} {p p' : Point} {m m' : Mem} {e : Condition.Event}
    (hp : p = .holding → m.mutex = some t) (h : Condition.exec t b p m = some (p', m', e)) :
    (m.mutex = none ∨ m.mutex = some t) ∧ (p' = .holding → m'.mutex = some t) := by
  unfold Condition.exec at h
  split at h <;> simp only [stretch, Option.ite_none_right_eq_some, Option.some.injEq,
    Prod.mk.injEq, reduceCtorEq] at h
  · obtain ⟨hfree, rfl, rfl, -⟩ := h
    exact ⟨.inl hfree, fun _ => rfl⟩
  · obtain ⟨rfl, rfl, -⟩ := h
    exact ⟨.inr (hp rfl), fun h => by cases h⟩
  · obtain ⟨rfl, rfl, -⟩ := h
    exact ⟨.inr (hp rfl), fun h => if_pos h⟩
  · obtain ⟨rfl, rfl, -⟩ := h
    exact ⟨.inr (hp rfl), fun h => if_pos h⟩
  · obtain ⟨hfree, rfl, rfl, -⟩ := h
    exact ⟨.inl hfree, fun _ => rfl⟩
  · obtain ⟨hfree, rfl, rfl, -⟩ := h
    exact ⟨.inl hfree, fun h => if_pos h⟩
  · obtain ⟨hfree, rfl, rfl, -⟩ := h
    exact ⟨.inl hfree, fun h => if_pos h⟩
  · obtain ⟨rfl, rfl, -⟩ := h
    exact ⟨.inr (hp rfl), fun _ => hp rfl⟩
  · obtain ⟨rfl, rfl, -⟩ := h
    exact ⟨.inr (hp rfl), fun _ => hp rfl⟩

/-- **One step.** -/
theorem Between.step {q q' : Condition.St} {s : St} {t : Tid} {b : Condition.Act}
    {e : Condition.Event} (i : Between q s) (h : condition.step q t b = some (q', e)) :
    ∃ s' π, (lines true).Path s π s' ∧ Allowed Unnested π ∧ Between q' s' := by
  obtain ⟨p, m, hexec, rfl⟩ := step_eq_some.mp h
  obtain ⟨hfree, hheld⟩ := exec_held (i.held t) hexec
  obtain ⟨k, π, hπ, hE, hr⟩ := path_of_stretch (s := s) (i.rests t)
    (fun hp => i.mem ▸ i.held t hp) (i.mem ▸ hexec)
  refine ⟨_, π, hπ, hE, rfl, fun t' => ?_, fun t' => ?_⟩
  · by_cases ht' : t' = t
    · subst ht'
      rwa [State.move_loc_self, State.move_loc_self]
    · rw [State.move_loc_of_ne _ _ _ _ ht', State.move_loc_of_ne _ _ _ _ ht']
      exact i.rests t'
  · by_cases ht' : t' = t
    · subst ht'
      rwa [State.move_loc_self]
    · rw [State.move_loc_of_ne _ _ _ _ ht']
      exact fun hp => absurd (i.held t' hp) (not_held hfree ht')

/-- **A run of the stretches is a run of the lines**, which ends between stretches. -/
theorem lines_of_path {q : Condition.St}
    {ρ : List (Transition Tid Point Mem Condition.Act Condition.Event)}
    (hq : condition.Path Condition.start ρ q) :
    ∃ s π, (lines true).Path start π s ∧ Allowed Unnested π ∧ Between q s := by
  induction hq with
  | nil => exact ⟨start, [], .nil start, allowed_nil _, start_between⟩
  | snoc _ hs ih =>
    obtain ⟨s, π, hπ, hE, i⟩ := ih
    obtain ⟨s', ρ, hρ, hE', i'⟩ := i.step hs
    refine ⟨s', ρ ++ π, hπ.append hρ, fun x hx => ?_, i'⟩
    rcases List.mem_append.mp hx with hx | hx
    · exact hE' x hx
    · exact hE x hx

/-! ## The two reach the same states -/

/-- Whoever is between `lock` and `unlock` holds `m`, and nobody else. -/
def Holds (q : Condition.St) : Prop := ∀ t, q.loc t = .holding ↔ q.mem.mutex = some t

/-- After a stretch `m` is held by its thread, which is at `holding`, or is free. -/
theorem exec_holds {t : Tid} {b : Condition.Act} {p p' : Point} {m m' : Mem} {e : Condition.Event}
    (hp : p = .holding → m.mutex = some t) (h : Condition.exec t b p m = some (p', m', e)) :
    m'.mutex = if p' = .holding then some t else none := by
  unfold Condition.exec at h
  split at h <;> simp only [stretch, Option.ite_none_right_eq_some, Option.some.injEq,
    Prod.mk.injEq, reduceCtorEq] at h
  case h_1 | h_5 => obtain ⟨-, rfl, rfl, -⟩ := h; rfl
  case h_6 | h_7 => obtain ⟨-, rfl, rfl, -⟩ := h; rfl
  case h_8 | h_9 => obtain ⟨rfl, rfl, -⟩ := h; exact hp rfl
  all_goals obtain ⟨rfl, rfl, -⟩ := h; rfl

theorem Holds.step {q : Condition.St} {t : Tid} {b : Condition.Act} {p : Point} {m : Mem}
    {e : Condition.Event} (i : Holds q) (h : Condition.exec t b (q.loc t) q.mem = some (p, m, e)) :
    Holds (q.move t p m) := by
  have hm := exec_holds (i t).mp h
  have hfree := (exec_held (i t).mp h).1
  refine (State.forall_move q t p m (A := fun t' p => p = .holding ↔ m.mutex = some t')).mpr
    ⟨?_, fun t' ht' => ?_⟩
  · rw [hm]
    split <;> simp [*]
  · have hne : m.mutex ≠ some t' := not_held (t := t) (by rw [hm]; split <;> simp) ht'
    exact iff_of_false (fun hp => not_held hfree ht' ((i t').mp hp)) hne

/-- Between stretches a state of the lines amounts to the state of `condition`. -/
theorem Between.stretches_eq {q : Condition.St} {s : St} (i : Between q s) (hq : Holds q) :
    stretches s = q := by
  have hpoint : ∀ t, point s.mem t (s.loc t) = q.loc t := fun t => by
    have hr := i.rests t
    have hh := i.mem ▸ hq t
    generalize q.loc t = p at hr hh
    generalize s.loc t = k at hr
    cases hr with
    | outside => exact if_neg fun hm => by cases hh.mpr hm
    | holding => exact if_pos (hh.mp rfl)
    | _ => rfl
  refine congrArg₂ State.mk (funext hpoint) (?_ : (stretches s).mem = q.mem)
  cases hm : s.mem.mutex with
  | none => rw [stretches_mem (t := 0) (.inl hm), view_of_free hm, i.mem]
  | some t =>
    -- the thread with `m` is in no call
    have hr := i.rests t
    rw [(hq t).mpr (i.mem ▸ hm)] at hr
    have hnil : s.loc t = [] := by
      generalize s.loc t = k at hr
      cases hr
      rfl
    rw [stretches_mem (.inr hm), hnil, view_nil_of_held hm, i.mem]

/-- **The stretches of `condition` are what the lines do with `m` held**: it reaches exactly the
states that the lines, `progress()` making no calls, amount to. -/
theorem reaches_iff (q : Condition.St) : (∃ ρ, condition.Path Condition.start ρ q) ↔
    ∃ s π, (lines true).Path start π s ∧ Allowed Unnested π ∧ stretches s = q := by
  constructor
  · rintro ⟨ρ, hρ⟩
    have hq : Holds q := hρ.invariant (fun _ => Holds) (fun _ _ _ => True)
      (fun _ _ _ _ _ _ _ i _ hx => i.step hx) (fun _ _ => trivial)
      fun _ => iff_of_false nofun nofun
    obtain ⟨s, π, hπ, hE, i⟩ := lines_of_path hρ
    exact ⟨s, π, hπ, hE, i.stretches_eq hq⟩
  · rintro ⟨s, π, hπ, hE, rfl⟩
    obtain ⟨ρ, hρ, -⟩ := stretches_of_path hπ hE
    exact ⟨ρ, hρ⟩

end Libult.Condition.Lines
