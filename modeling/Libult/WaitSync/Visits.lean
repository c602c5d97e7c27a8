import Libult.Links.Laid
import Libult.WaitSync.Ints

/-!
# WaitSync/Visits — the global wakeup walks the list once

From line 18 on the thread holds `wait_sync_lock`, so nobody else writes the head or a link and the
list it walks is the list it found.  Each of its lines says how far it is: which syncs it has
visited, what an error has done to them, and how many lines it can still execute.

    18 ─▸ 24 S ─▸ 25 ─▸ 18n ─▸ 24 S' ─▸ ⋯ ─▸ 25 ─▸ 29        next == head, or next == NULL
-/

namespace Libult.WaitSync

open Interleaving Program Links

/-! ## The lines of one thread -/

/-- The lines thread `t` executes in a run, as events, latest first. -/
def lines (t : Tid) (π : List (Transition Tid Thread Mem Act Event)) : List Event :=
  events (π.filter (·.tid = t))

section Lines

variable {t : Tid} {x : Transition Tid Thread Mem Act Event}
  {π : List (Transition Tid Thread Mem Act Event)}

@[simp] theorem lines_nil : lines t [] = [] := rfl

theorem lines_cons : lines t (x :: π) = if x.tid = t then x.ev :: lines t π else lines t π := by
  by_cases h : x.tid = t <;> simp [lines, h]

theorem lines_append (ρ : List (Transition Tid Thread Mem Act Event)) :
    lines t (π ++ ρ) = lines t π ++ lines t ρ := by
  simp [lines]

theorem lines_eq_nil (h : ∀ x ∈ π, x.tid ≠ t) : lines t π = [] := by
  rw [lines, List.filter_eq_nil_iff.mpr (by simpa using h), events_nil]

theorem mem_events_of_lines {e : Event} (h : e ∈ lines t π) : e ∈ events π := by
  obtain ⟨x, hx, rfl⟩ := List.mem_map.mp h
  exact List.mem_map_of_mem (List.mem_of_mem_filter hx)

end Lines

/-- **The syncs a global wakeup visits**, in order. -/
def visits : List Event → List Sid
  | [] => []
  | .visited S :: es => visits es ++ [S]
  | _ :: es => visits es

theorem visits_append (es es' : List Event) : visits (es ++ es') = visits es' ++ visits es := by
  induction es with
  | nil => exact (List.append_nil _).symm
  | cons e es ih => cases e <;> simp [visits, ih]

/-! ## How far it is -/

/-- The lines an update can still execute. -/
def UpdatePc.left : UpdatePc → ℕ
  | .l110 => 7
  | .l116 => 6
  | .l111 | .l118 => 5
  | .l52 => 4
  | .l53 => 3
  | .l54 => 2
  | .l55 => 1

/-- The lines a global wakeup can still execute before the next visit; `none` is its return. -/
def WakeupPc.left : Option WakeupPc → ℕ
  | some (.l24 _ pc) => pc.left + 3
  | some (.l25 _) => 3
  | some (.l17) | some (.l18) | some (.l18n _) => 2
  | some .l29 => 1
  | none => 0

/-- **Which syncs it has visited**, `vs`, of those of the list, `l`. -/
def WakeupPc.swept (l vs : List Sid) (m : Mem) : Option WakeupPc → Prop
  | some .l17 => False
  | some .l18 => vs = []
  | some (.l24 S _) | some (.l25 S) => ∃ l₁ l₂, l = l₁ ++ S :: l₂ ∧ vs = l₁ ++ [S]
  | some (.l18n S) =>
      (∃ l₁ l₂, l = l₁ ++ S :: l₂ ∧ vs = l₁ ++ [S]) ∧ m.next S ≠ m.waitSyncList
  | some .l29 | none => vs = l

/-- Where it is with its update of `S`; `none` is that it is not updating it. -/
def WakeupPc.at (S : Sid) : Option WakeupPc → Option UpdatePc
  | some (.l24 S' pc) => if S' = S then some pc else none
  | _ => none

/-- **What an error update has done** before a line of it; `none` is its return. -/
structure Reported (S : Sid) (st : ℤ) (es : List Event) (pc : Option UpdatePc) : Prop where
  error : pc ≠ some .l111
  stored : pc ≠ some .l110 → pc ≠ some .l116 → .stored S st ∈ es
  swapped : pc.elim true UpdatePc.zeroed = true → .swapped S ∈ es
  signalled : pc.elim true UpdatePc.signalled = true → .sigSignal S ∈ es

theorem WakeupPc.left_pos (pc : WakeupPc) : 0 < WakeupPc.left (some pc) := by
  cases pc <;> simp [left]

/-- **How far a global wakeup is** after the lines `es` of it. -/
structure Walked (l : List Sid) (st : ℤ) (es : List Event) (m : Mem) (pc : Option WakeupPc) :
    Prop where
  swept : WakeupPc.swept l (visits es) m pc
  left : es.length + WakeupPc.left pc ≤ 9 * (visits es).length + 2
  status : ∀ S st', .stored S st' ∈ es → st' = st
  reported : st ≠ SUCCESS → ∀ S ∈ visits es, Reported S st es (WakeupPc.at S pc)

section Line

variable {t : Tid} {st : ℤ} {S : Sid} {u : ℤ} {es : List Event} {l : List Sid} {m m' : Mem}
  {e : Event}

theorem Reported.start : Reported S st es (some .l110) :=
  ⟨by simp, by simp, by simp [UpdatePc.zeroed], by simp [UpdatePc.signalled]⟩

theorem Reported.cons {pc : Option UpdatePc} (r : Reported S st es pc) (e : Event) :
    Reported S st (e :: es) pc :=
  ⟨r.error, fun h h' => List.mem_cons_of_mem _ (r.stored h h'),
    fun h => List.mem_cons_of_mem _ (r.swapped h),
    fun h => List.mem_cons_of_mem _ (r.signalled h)⟩

/-- **One line of an update** brings it nearer to its return… -/
theorem waitSyncUpdate_left {pc : UpdatePc} {pc' : Option UpdatePc}
    (h : waitSyncUpdate t S u st m pc = some (pc', m', e)) :
    pc'.elim 0 UpdatePc.left < pc.left := by
  cases pc <;> simp only [waitSyncUpdate, Option.ite_none_right_eq_some, Option.some.injEq,
    Prod.mk.injEq] at h
  case l52 => obtain ⟨-, rfl, -⟩ := h; decide
  case l110 | l111 => obtain ⟨rfl, -⟩ := h; split <;> decide
  all_goals obtain ⟨rfl, -⟩ := h; decide

/-- …and an error one nearer to having reported. -/
theorem waitSyncUpdate_reported {pc : UpdatePc} {pc' : Option UpdatePc} (hst : st ≠ SUCCESS)
    (r : Reported S st es (some pc)) (h : waitSyncUpdate t S u st m pc = some (pc', m', e)) :
    Reported S st (e :: es) pc' := by
  obtain ⟨error, stored, swapped, signalled⟩ := r
  cases pc <;> simp only [waitSyncUpdate, Option.ite_none_right_eq_some, Option.some.injEq,
    Prod.mk.injEq] at h
  case l110 =>
    obtain ⟨rfl, -, rfl⟩ := h
    rw [if_neg hst.symm]
    exact ⟨by simp, by simp, by simp [UpdatePc.zeroed], by simp [UpdatePc.signalled]⟩
  case l111 => exact absurd rfl error
  case l52 =>
    obtain ⟨-, rfl, -, rfl⟩ := h
    exact ⟨by simp, fun _ _ => by simpa using stored, fun _ => by simpa using swapped rfl,
      by simp [UpdatePc.signalled]⟩
  all_goals
    obtain ⟨rfl, -, rfl⟩ := h
    constructor <;> simp_all [UpdatePc.zeroed, UpdatePc.signalled]

/-- An update's line that neither visits nor stores another status. -/
theorem waitSyncUpdate_visits (es : List Event) {pc : UpdatePc} {pc' : Option UpdatePc}
    (h : waitSyncUpdate t S u st m pc = some (pc', m', e)) :
    visits (e :: es) = visits es ∧ ∀ S' st', e = .stored S' st' → st' = st := by
  cases pc <;> simp only [waitSyncUpdate, Option.ite_none_right_eq_some, Option.some.injEq,
    Prod.mk.injEq] at h
  case l52 => obtain ⟨-, -, -, rfl⟩ := h; exact ⟨rfl, fun _ _ h => by cases h⟩
  case l116 => obtain ⟨-, -, rfl⟩ := h; exact ⟨rfl, fun _ _ h => by cases h; rfl⟩
  all_goals obtain ⟨-, -, rfl⟩ := h; exact ⟨rfl, fun _ _ h => by cases h⟩

theorem Walked.listLocked {pc : WakeupPc} (w : Walked l st es m (some pc)) :
    pc.listLocked = true := by
  have := w.swept
  cases pc <;> first | rfl | exact this.elim

/-- Only the link of the node it is about to leave matters. -/
theorem Walked.congr {pc : Option WakeupPc} (w : Walked l st es m pc)
    (hlist : m'.waitSyncList = m.waitSyncList) (hnext : ∀ X ∈ l, m'.next X = m.next X) :
    Walked l st es m' pc where
  left := w.left
  status := w.status
  reported := w.reported
  swept := by
    have hs := w.swept
    rcases pc with _ | pc
    · exact hs
    · cases pc with
      | l18n S =>
        obtain ⟨⟨l₁, l₂, rfl, hv⟩, hne⟩ := hs
        refine ⟨⟨l₁, l₂, rfl, hv⟩, ?_⟩
        rwa [hnext S (by simp), hlist]
      | _ => exact hs

/-- It visits them in order, each once. -/
theorem WakeupPc.prefix_of_swept {vs : List Sid} {pc : Option WakeupPc}
    (h : WakeupPc.swept l vs m pc) : vs <+: l := by
  have visiting : ∀ S, (∃ l₁ l₂, l = l₁ ++ S :: l₂ ∧ vs = l₁ ++ [S]) → vs <+: l := by
    rintro S ⟨l₁, l₂, rfl, rfl⟩
    exact ⟨l₂, by simp⟩
  rcases pc with _ | pc
  · exact h ▸ List.prefix_rfl
  · cases pc with
    | l17 => exact h.elim
    | l18 => exact (show vs = [] from h) ▸ List.nil_prefix
    | l24 S _ | l25 S => exact visiting S h
    | l18n S => exact visiting S h.1
    | l29 => exact h ▸ List.prefix_rfl

/-- **The loop head** visits the node it is led to, or finds all visited. -/
theorem Walked.goto {l₁ l₂ : List Sid} {o : Option Sid} (hl : l = l₁ ++ l₂)
    (hv : visits es = l₁) (ho : o = l₂.head?) (hb : es.length ≤ 9 * l₁.length)
    (hs : ∀ S st', .stored S st' ∈ es → st' = st)
    (hr : st ≠ SUCCESS → ∀ S ∈ l₁, Reported S st es none) :
    Walked l st ((WakeupPc.next o).2 :: es) m (some (WakeupPc.next o).1) := by
  cases l₂ with
  | nil =>
    subst ho hl
    have hv' : visits ((WakeupPc.next ([] : List Sid).head?).2 :: es) = l₁ := hv
    refine ⟨by rw [hv']; exact (List.append_nil l₁).symm, ?_, fun S st' hm => ?_,
      fun hst S hS => ?_⟩
    · rw [hv']
      simp only [List.length_cons, List.head?_nil, WakeupPc.next, WakeupPc.left]
      omega
    · exact hs S st' (by simpa [WakeupPc.next] using hm)
    · exact (hr hst S (hv' ▸ hS)).cons _
  | cons X l₂ =>
    subst ho hl
    have hv' : visits ((WakeupPc.next (X :: l₂).head?).2 :: es) = l₁ ++ [X] := by
      rw [List.head?_cons, WakeupPc.next, visits, hv]
    refine ⟨by rw [hv']; exact ⟨l₁, l₂, rfl, rfl⟩, ?_, fun S st' hm => ?_, fun hst S hS => ?_⟩
    · rw [hv']
      simp only [List.length_cons, List.length_append, List.length_nil, List.head?_cons,
        WakeupPc.next, WakeupPc.left, UpdatePc.left]
      omega
    · exact hs S st' (by simpa [WakeupPc.next] using hm)
    · rw [hv'] at hS
      simp only [List.head?_cons, WakeupPc.next, WakeupPc.at]
      split
      · exact .start
      · have hSX : S ∈ l₁ := (List.mem_append.mp hS).resolve_right fun hc =>
          absurd (List.mem_singleton.mp hc).symm ‹_›
        exact (hr hst S hSX).cons _

/-- **One line of the global wakeup.** -/
theorem globalWakeupMt_walked {pc : WakeupPc} {pc' : Option WakeupPc}
    (hl : Laid m.next m.waitSyncList l) (w : Walked l st es m (some pc))
    (h : globalWakeupMt t st m pc = some (pc', m', e)) : Walked l st (e :: es) m' pc' := by
  obtain ⟨swept, left, status, reported⟩ := w
  cases pc with
  | l17 => exact swept.elim
  | l18 =>
    simp only [globalWakeupMt, Option.some.injEq, Prod.mk.injEq] at h
    obtain ⟨rfl, rfl, rfl⟩ := h
    have hv : visits es = [] := swept
    rw [hv] at left reported
    refine .goto (List.nil_append l).symm hv hl.head ?_ status fun _ S hS => absurd hS (by simp)
    simp only [WakeupPc.left, List.length_nil] at left ⊢
    omega
  | l24 S upc =>
    obtain ⟨⟨upc', m₁, e₁⟩, hu, hr⟩ := Option.map_eq_some_iff.mp h
    simp only [Prod.mk.injEq] at hr
    obtain ⟨rfl, rfl, rfl⟩ := hr
    obtain ⟨hv, hst⟩ := waitSyncUpdate_visits es hu
    have hleft := waitSyncUpdate_left hu
    refine ⟨?_, ?_, fun X st' hm => ?_, fun hne X hX => ?_⟩
    · rw [hv]
      cases upc' <;> exact swept
    · rw [hv, List.length_cons]
      cases upc' <;> simp only [WakeupPc.left, Option.elim] at left hleft ⊢ <;> omega
    · rcases List.mem_cons.mp hm with hm | hm
      exacts [hst X st' hm.symm, status X st' hm]
    · rw [hv] at hX
      have r := reported hne X hX
      by_cases hSX : S = X
      · subst hSX
        simp only [WakeupPc.at, if_true] at r
        have r' := waitSyncUpdate_reported hne r hu
        cases upc' <;> simpa [WakeupPc.at] using r'
      · simp only [WakeupPc.at, if_neg hSX] at r
        cases upc' <;> simpa [WakeupPc.at, hSX] using r.cons e₁
  | l25 S =>
    simp only [globalWakeupMt, Option.some.injEq, Prod.mk.injEq] at h
    obtain ⟨rfl, rfl, rfl⟩ := h
    obtain ⟨l₁, l₂, rfl, hv⟩ := swept
    change Walked _ st (.tau :: es) m (some (if m.next S = m.waitSyncList then .l29 else .l18n S))
    have status' : ∀ X st', .stored X st' ∈ .tau :: es → st' = st := fun X st' hm =>
      status X st' (by simpa using hm)
    split
    · have hn : l₂ = [] := hl.eq_nil_of_next ‹_›
      subst hn
      refine ⟨hv, ?_, status', fun hne X hX => (reported hne X hX).cons _⟩
      simp only [visits, hv, WakeupPc.left, List.length_cons] at left ⊢
      omega
    · refine ⟨⟨⟨l₁, l₂, rfl, hv⟩, ‹_›⟩, ?_, status', fun hne X hX => (reported hne X hX).cons _⟩
      simp only [visits, hv, WakeupPc.left, List.length_cons] at left ⊢
      omega
  | l18n S =>
    simp only [globalWakeupMt, Option.some.injEq, Prod.mk.injEq] at h
    obtain ⟨rfl, rfl, rfl⟩ := h
    obtain ⟨⟨l₁, l₂, rfl, hv⟩, hne⟩ := swept
    rw [hv] at left reported
    refine .goto (by simp) hv (hl.next_of_ne hne) ?_ status reported
    simp only [WakeupPc.left] at left
    omega
  | l29 =>
    simp only [globalWakeupMt, Option.some.injEq, Prod.mk.injEq] at h
    obtain ⟨rfl, rfl, rfl⟩ := h
    refine ⟨swept, ?_, fun X st' hm => status X st' (by simpa using hm),
      fun hne X hX => (reported hne X hX).cons _⟩
    simp only [visits, WakeupPc.left, List.length_cons] at left ⊢
    omega

end Line

/-! ## The list it walks is the list it found -/

/-- Inside the global wakeup with status `st`, `wait_sync_lock` held. -/
def Call.sweeping (st : ℤ) : Call → Bool
  | .wakeup st' pc => decide (st' = st) && pc.listLocked
  | _ => false

theorem Call.sweeping_iff {st : ℤ} {c : Call} :
    c.sweeping st = true ↔ ∃ pc, c = .wakeup st pc ∧ pc.listLocked = true := by
  cases c with
  | wakeup st' pc =>
    simp only [sweeping, Bool.and_eq_true, decide_eq_true_eq]
    constructor
    · rintro ⟨rfl, hp⟩
      exact ⟨pc, rfl, hp⟩
    · rintro ⟨_, hc, hp⟩
      cases hc
      exact ⟨rfl, hp⟩
  | _ => simp [sweeping]

/-- **The list is as it was**: its head, and the links of its syncs. -/
structure SameList (l : List Sid) (m m' : Mem) : Prop where
  list : m'.waitSyncList = m.waitSyncList
  next : ∀ S ∈ l, m'.next S = m.next S
  prev : ∀ S ∈ l, m'.prev S = m.prev S
  owner : ∀ S ∈ l, (m'.sync S).owner = (m.sync S).owner

theorem SameList.refl (l : List Sid) (m : Mem) : SameList l m m :=
  ⟨rfl, fun _ _ => rfl, fun _ _ => rfl, fun _ _ => rfl⟩

theorem SameList.trans {l : List Sid} {m m' m'' : Mem} (h : SameList l m m')
    (h' : SameList l m' m'') : SameList l m m'' where
  list := h'.list.trans h.list
  next S hS := (h'.next S hS).trans (h.next S hS)
  prev S hS := (h'.prev S hS).trans (h.prev S hS)
  owner S hS := (h'.owner S hS).trans (h.owner S hS)

theorem SameList.ints {l : List Sid} {m m' : Mem} (h : SameList l m m') : SameList l m m'.ints :=
  ⟨h.list, h.next, h.prev, h.owner⟩

section Run

variable {max : ℤ} {s s' : St} {t t' : Tid} {a : Act} {th th' : Thread} {m m' : Mem} {e : Event}
  {st : ℤ} {l : List Sid} {ρ : List (Transition Tid Thread Mem Act Event)}

/-- A thread inside the call executes a line of it. -/
theorem moves_wakeup {pc : WakeupPc} (hc : th.call = .wakeup st pc)
    (h : Moves max t a th m th' m' e) : a = .run ∧ ∃ pc',
      globalWakeupMt t st m pc = some (pc', m', e) ∧ th'.call = pc'.elim .idle (.wakeup st) := by
  cases h with
  | wakeup h =>
    cases hc
    exact ⟨rfl, _, h, rfl⟩
  | _ => cases hc

/-- It holds `wait_sync_lock`. -/
theorem Locked.lock_of_sweeping (hs : Locked s) (hc : (s.loc t).call.sweeping st = true) :
    s.mem.waitSyncLock = some t := by
  obtain ⟨pc, hpc, hl⟩ := Call.sweeping_iff.mp hc
  exact (hs.held t).list.mpr (by simp [Thread.listLocked, hpc, Call.listLocked, hl])

/-- **Nobody writes the list** meanwhile. -/
theorem Locked.sameList (hs : Locked s) (ho : ∀ S ∈ l, (s.mem.sync S).owner ≠ none)
    (hc : (s.loc t).call.sweeping st = true) (hm : Moves max t' a (s.loc t') s.mem th' m' e) :
    SameList l s.mem m' := by
  by_cases ht : t' = t
  · subst ht
    obtain ⟨pc, hpc, -⟩ := Call.sweeping_iff.mp hc
    obtain ⟨-, pc', h, -⟩ := moves_wakeup hpc hm
    obtain ⟨hlist, hlinks⟩ := globalWakeupMt_frame h
    exact ⟨hlist, fun S _ => (hlinks S).2.1, fun S _ => (hlinks S).2.2, fun S _ => (hlinks S).1⟩
  · have hlock : s.mem.waitSyncLock ≠ some t' := by
      rw [hs.lock_of_sweeping hc]
      simpa using Ne.symm ht
    have hg := moves_guarantee hs.owner_of_lock (hs.held t') hm
    exact ⟨hg.list hlock, fun S hS => (hg.links hlock S (ho S hS)).1,
      fun S hS => (hg.links hlock S (ho S hS)).2, fun S hS => hg.owner S (ho S hS)⟩

/-- **How far the global wakeup is**, after any run from line 18 on that it has not left. -/
theorem walked_of_path (hs : Locked s) (hl : Laid s.mem.next s.mem.waitSyncList l)
    (ho : ∀ S ∈ l, (s.mem.sync S).owner ≠ none) (ht : (s.loc t).call = .wakeup st .l18)
    (hp : (intWaitSync max).Path s ρ s')
    (hin : ∀ x ∈ ρ, (x.pre.loc t).call.sweeping st = true) :
    Locked s' ∧ SameList l s.mem s'.mem ∧ ∃ pc', (s'.loc t).call = pc'.elim .idle (.wakeup st) ∧
      Walked l st (lines t ρ) s'.mem pc' := by
  induction hp with
  | nil =>
    refine ⟨hs, .refl l _, some .l18, ht, rfl, le_rfl, ?_, ?_⟩
    · exact fun _ _ hm => absurd hm (by simp)
    · exact fun _ _ hm => absurd hm (by simp [visits])
  | @snoc s₁ _ ρ t' a e _ hstep ih =>
    obtain ⟨hc, hin⟩ := List.forall_mem_cons.mp hin
    obtain ⟨th', m', hexec, rfl⟩ := step_eq_some.mp hstep
    obtain ⟨m₁, hexec₁, rfl⟩ := stored_exec.mp hexec
    have hm := moves_of_exec hexec₁
    obtain ⟨hs₁, same, pc, hpc, w⟩ := ih hin
    have ho₁ : ∀ S ∈ l, (s₁.mem.sync S).owner ≠ none := fun S hS => same.owner S hS ▸ ho S hS
    have step := (hs₁.sameList ho₁ hc hm).ints
    refine ⟨(hs₁.step hm).ints, same.trans step, ?_⟩
    by_cases htt : t' = t
    · subst htt
      obtain ⟨pc₁, hpc₁, -⟩ := Call.sweeping_iff.mp hc
      obtain ⟨-, pc', h, hcall⟩ := moves_wakeup hpc₁ hm
      obtain rfl : pc = some pc₁ := by
        rw [hpc₁] at hpc
        cases pc with
        | none => cases hpc
        | some pc => cases hpc; rfl
      refine ⟨pc', by rw [State.move_loc_self]; exact hcall, ?_⟩
      rw [lines_cons, if_pos rfl]
      have hw := globalWakeupMt_walked (hl.congr same.list same.next) w h
      exact hw.congr rfl fun _ _ => rfl
    · refine ⟨pc, by rw [State.move_loc_of_ne _ _ _ _ (Ne.symm htt)]; exact hpc, ?_⟩
      rw [lines_cons, if_neg htt]
      exact w.congr step.list step.next

end Run

end Libult.WaitSync
