import Libult.Qthreads.Views

/-!
# Qthreads/Refine — every history is one of the wait queue

The views of all threads and the shape of the chain at whoever holds `m_lock` make one invariant
(`Refines`), which every step keeps by a step of the queue.  What is reachable from the condition is
read off the shapes.
-/

namespace Libult.Qthreads

open Interleaving Program Links

/-! ## The refinement -/

/-- **The state and its history agree on the queue.** -/
structure Refines (f : Fifo Addr) (h : List (Event Addr)) (s : St) : Prop where
  run : Fifo.run h = some f
  view : ∀ t, View f h t (s.loc t) s.mem
  free : s.mem.m_lock = none → Rest f s.mem
  held : ∀ t, s.mem.m_lock = some t → Shape t f s.mem (s.loc t)

theorem start_refines (waiter : Addr → Waiter) : Refines .empty [] (start waiter) := by
  refine ⟨rfl, fun t => .of_not_wait (by simp [start, Mem.condInit, Loc.locked]) (by simp [start])
    (fun _ hw => absurd hw (by simp [Fifo.empty, Fifo.all, Fifo.unmarked])),
    fun _ => ⟨rfl, rfl, ⟨.nil, rfl⟩, rfl⟩, fun _ h => (by cases h)⟩

/-- **One step of a thread is one step of the queue.** -/
theorem Refines.step {f : Fifo Addr} {h : List (Event Addr)} {s : St} {t : Tid} {l : Loc} {m : Mem}
    {e : Event Addr} (r : Refines f h s) (hm : Moves t (s.loc t) s.mem l m e) :
    ∃ f', Refines f' (e :: h) (s.move t l m) := by
  have hd := Fifo.nodup r.run
  have v := r.view t
  have g := v.guarantee hm
  have hS : s.mem.m_lock = some t ∨ s.mem.m_lock = none → Shape t f s.mem (s.loc t) := by
    rintro (hlock | hlock)
    · exact r.held t hlock
    · exact .of_rest (r.free hlock) (Bool.not_eq_true _ ▸ fun hl => by
        simp [v.lock.mpr hl] at hlock)
  have views : ∀ f', f.step e = some f' →
      ∀ t', View f' (e :: h) t' ((s.move t l m).loc t') m := fun f' hs => by
    refine (State.forall_move (A := fun t' l => View f' (e :: h) t' l m) s t l m).mpr
      ⟨v.own hm hs fun hl => hS (.inl (v.lock.mpr hl)), fun t' ht' => ?_⟩
    exact (r.view t').others ht' g hs hd
  rcases v.section_or_quiet hd hm hS with ⟨f', hs, hlock, h'⟩ | ⟨hl, hs, ha, hlock⟩
  · -- nobody else is in a section
    have hne : ∀ t', t' ≠ t → m.m_lock ≠ some t' := fun t' ht' hm' => by
      have := (g.lock t' ht').mp hm'
      rcases hlock with hlock | hlock
      · exact ht' (Option.some.inj (this.symm.trans hlock))
      · simp [hlock] at this
    refine ⟨f', Fifo.run_cons.mpr ⟨f, r.run, hs⟩, views f' hs, fun hfree => ?_, fun t' ht' => ?_⟩
    · have := (views f' hs t).lock
      rw [State.move_loc_self] at this
      refine h'.rest (Bool.not_eq_true _ ▸ fun hl => ?_)
      simp [this.mpr hl] at hfree
    · obtain rfl : t' = t := by_contra fun hn => hne t' hn ht'
      rw [State.move_loc_self]
      exact h'
  · refine ⟨f, Fifo.run_cons.mpr ⟨f, r.run, hs⟩, views f hs, fun hfree => ?_, fun t' ht' => ?_⟩
    · exact (r.free (hlock.symm.trans hfree)).congr ha
    · have ht₀ := hlock.symm.trans ht'
      have hne : t' ≠ t := by
        rintro rfl
        simp [v.lock.mp ht₀] at hl
      rw [State.move_loc_of_ne _ _ _ _ hne]
      exact (r.held t' ht₀).congr ha

/-! ## Only waits in progress are reachable -/

/-- Everything reachable from either end of the condition is among `L`. -/
def Covered (L : List Addr) (m : Mem) : Prop :=
  ∀ w, Reachable m.prev m.m_waiter_tail w ∨ Reachable m.prev m.m_waiter_head w → w ∈ L

section Covered

variable {t : Tid} {f : Fifo Addr} {m : Mem} {l : Loc} {L L₁ L₂ : List Addr}

theorem Covered.mono (h : Covered L₁ m) (hL : ∀ w ∈ L₁, w ∈ L) : Covered L m :=
  fun w hw => hL w (h w hw)

/-- From the head of a chain nothing else is reached. -/
theorem Linked.reachable_head (h : Linked L m) {w : Addr}
    (hw : Reachable m.prev m.m_waiter_head w) : w ∈ L := by
  rcases L.eq_nil_or_concat with rfl | ⟨q, z, rfl⟩
  · rw [h.head] at hw
    exact absurd (Chain.nil.reachable_iff.mp hw) List.not_mem_nil
  · rw [List.concat_eq_append] at h ⊢
    have hz := h.chain.next_last (z := z) (by simp)
    rw [h.head, List.getLast?_concat] at hw
    exact List.mem_append_right _ ((Chain.singleton hz).reachable_iff.mp hw)

/-- The tail may stand anywhere on it. -/
theorem Linked.covered (h : Linked (L₁ ++ L₂) m) (ht : m.m_waiter_tail = L₂.head?) :
    Covered (L₁ ++ L₂) m := by
  rintro w (hw | hw)
  · rw [ht] at hw
    exact List.mem_append_right _ (h.chain.of_append.reachable_iff.mp hw)
  · exact h.reachable_head hw

theorem covered_queue (h : Linked f.queue m) (ht : m.m_waiter_tail = f.queue.head?) :
    Covered f.all m :=
  (Linked.covered (List.nil_append f.queue ▸ h) ht).mono fun _ hw =>
    List.mem_append_right _ (List.mem_append_right _ hw)

theorem Waking.covered {tail : Option Addr} (h : Waking tail f m)
    (ht : tail = f.unmarked.head? ∨ tail = f.queue.head? ∨ ∃ a o, f.owed = a :: o ∧
      tail = (o ++ f.queue).head?) : Covered f.all m := by
  obtain ⟨q, o, k⟩ := f
  rcases ht with ht | ht | ⟨a, o, rfl, ht⟩
  · exact Linked.covered h.linked (h.tail.trans ht)
  · have hall : Fifo.all ⟨q, o, k⟩ = (k ++ o) ++ q := (List.append_assoc ..).symm
    rw [hall]
    exact Linked.covered (hall ▸ h.linked) (h.tail.trans ht)
  · have hall : Fifo.all ⟨q, a :: o, k⟩ = (k ++ [a]) ++ (o ++ q) := by
      simp [Fifo.all, Fifo.unmarked]
    rw [hall]
    exact Linked.covered (hall ▸ h.linked) (h.tail.trans ht)

theorem Entering.covered {w : Addr} {q : List Addr} (h : Entering w q f m) : Covered f.all m := by
  obtain ⟨rfl, hq, ht⟩ := h
  exact (Linked.covered (List.nil_append q ▸ hq) ht).mono fun x hx => List.mem_append_left [w] hx

theorem WaitPc.shape_covered {w : Addr} {pc : WaitPc} (h : pc.shape w f m) : Covered f.all m := by
  cases pc with
  | l109 => exact h.elim fun _ h => h.covered
  | l110 => exact h.elim fun _ h => h.1.covered
  | l111 => exact h.1.covered
  | l113 => exact h.elim fun _ h => h.elim fun _ h => h.1.covered
  | l115 =>
    obtain ⟨q, rfl, hc, hh⟩ := h
    rintro x (hx | hx)
    · exact hc.reachable_iff.mp hx
    · rw [hh] at hx
      rcases q.eq_nil_or_concat with rfl | ⟨q, z, rfl⟩
      · exact absurd (Chain.nil.reachable_iff.mp hx) List.not_mem_nil
      · -- the old head, already linked to the new record
        rw [List.concat_eq_append] at hc hx ⊢
        rw [List.append_assoc] at hc
        rw [List.getLast?_concat] at hx
        show x ∈ q ++ [z] ++ [w]
        rw [List.append_assoc]
        exact List.mem_append_right _ (hc.of_append.reachable_iff.mp hx)
  | _ => exact covered_queue h.linked h.tail

theorem BroadcastPc.shape_covered {pc : BroadcastPc} (h : pc.shape f m) : Covered f.all m := by
  cases pc with
  | l134 => exact covered_queue h.linked h.tail
  | l135 | l136 => exact h.2.covered (.inl (by rw [Fifo.unmarked, h.1, List.append_nil]))
  | l137 cur =>
    obtain ⟨-, h, o, ho⟩ := h
    exact h.covered (.inl (by rw [Fifo.unmarked, ho]; rfl))
  | l139 cur =>
    obtain ⟨hq, o, ho, h⟩ := h
    exact h.covered (.inr (.inr ⟨cur, o, ho, by rw [hq, List.append_nil]⟩))
  | l142 => exact h.2.2.covered (.inr (.inl (by rw [h.1]; rfl)))
  | l143 => exact covered_queue h.linked h.tail

theorem SignalPc.shape_covered {pc : SignalPc} (h : pc.shape f m) : Covered f.all m := by
  cases pc with
  | l147 => exact covered_queue h.linked h.tail
  | l148 =>
    obtain ⟨h, ⟨ho, hq⟩ | ⟨a, ho⟩, -⟩ := h
    · exact h.covered (.inl (by rw [Fifo.unmarked, ho, hq]; rfl))
    · exact h.covered (.inl (by rw [Fifo.unmarked, ho]; rfl))
  | l149 =>
    obtain ⟨a, ho, h, -⟩ := h
    exact h.covered (.inl (by rw [Fifo.unmarked, ho]; rfl))
  | l150 cur => exact h.2.1.covered (.inl (by rw [Fifo.unmarked, h.1]; rfl))
  | l152 cur => exact h.2.1.covered (.inr (.inl rfl))
  | l153 => exact h.elim fun _ h => h.2.1.covered (.inr (.inl rfl))
  | l154 => exact h.2.2.covered (.inr (.inl (by rw [h.2.1]; rfl)))
  | l157 => exact covered_queue h.linked h.tail

/-- **At every line only the queue, the owed and the woken are reachable.** -/
theorem Shape.covered (h : Shape t f m l) : Covered f.all m := by
  cases l with
  | idle => exact covered_queue h.linked h.tail
  | wait => exact WaitPc.shape_covered h
  | broadcast => exact BroadcastPc.shape_covered h
  | signal => exact SignalPc.shape_covered h

end Covered

/-! ## The wait queue it is -/

/-- The record is that of a wait that has begun and has not returned. -/
def InProgress (s : St) (w : Addr) : Prop := ∃ mu pc, s.loc w.1 = .wait w.2 mu pc ∧ pc ≠ .l108

/-- **The chain is the queue `q`**, of exactly the unmarked waits. -/
structure IsQueue (q : List Addr) (s : St) : Prop where
  chain : Chain s.mem.prev s.mem.m_waiter_tail q
  head : s.mem.m_waiter_head = q.getLast?
  tail_none : s.mem.m_waiter_tail = none ↔ q = []
  head_none : s.mem.m_waiter_head = none ↔ q = []
  mem : ∀ w, w ∈ q ↔ InProgress s w ∧ (s.mem.waiter w).m_signaled = 0

theorem Refines.isQueue {f : Fifo Addr} {h : List (Event Addr)} {s : St} (r : Refines f h s)
    (hfree : s.mem.m_lock = none) : IsQueue f.queue s := by
  obtain ⟨ho, hk, hl, ht⟩ := r.free hfree
  have hall : f.all = f.queue := by rw [Fifo.all, Fifo.unmarked, ho, hk]; rfl
  have hun : f.unmarked = f.queue := by rw [Fifo.unmarked, ho]; rfl
  refine ⟨ht ▸ hl.chain, hl.head, by rw [ht, List.head?_eq_none_iff],
    by rw [hl.head, List.getLast?_eq_none_iff], fun w => ?_⟩
  have signaled : InProgress s w →
      (s.mem.waiter w).m_signaled = if w ∈ f.queue then 0 else 1 := by
    rintro ⟨mu, pc, hloc, hpc⟩
    refine hun ▸ (r.view w.1).signaled w.2 mu pc hloc hpc ?_
    rintro rfl
    have := (r.view w.1).lock.mpr (by rw [hloc]; rfl)
    simp [hfree] at this
  constructor
  · intro hw
    have hin : InProgress s w := (r.view w.1).inside w (hall ▸ hw) rfl
    exact ⟨hin, by rw [signaled hin, if_pos hw]⟩
  · rintro ⟨hin, h0⟩
    by_contra hw
    rw [signaled hin, if_neg hw] at h0
    cases h0

/-- **A wait that returns has been marked once**, and has its mutex. -/
theorem Refines.returns {f : Fifo Addr} {h : List (Event Addr)} {s : St} (r : Refines f h s)
    {t : Tid} {k : ℕ} {mu : Mid} {pc : WaitPc} {m : Mem} {e : Event Addr}
    (hloc : s.loc t = .wait k mu pc) (hm : Moves t (s.loc t) s.mem .idle m e) :
    marks (t, k) h = some 1 ∧ m.mutex mu = some t := by
  have v := r.view t
  rw [hloc] at hm v
  generalize hidle : Loc.idle = l at hm
  cases hm with
  | @wait _ _ _ _ _ pc' _ hl =>
    cases pc' with
    | some pc' => cases hidle
    | none =>
      cases pc <;> simp only [condWait, Option.ite_none_right_eq_some, Option.some.injEq,
        Prod.mk.injEq, Option.map_eq_some_iff, reduceCtorEq, false_and, and_false,
        exists_false] at hl
      rename_i n
      split at hl
      · rename_i hn
        obtain ⟨-, rfl, -⟩ := Prod.mk.injEq .. ▸ hl
        have hgone := v.gone k mu _ rfl (.inr (hn ▸ rfl))
        have hmarks := Fifo.marks_of_run r.run (t, k)
        rw [if_neg fun hw => hgone (List.mem_append_right _ hw)] at hmarks
        obtain ⟨n, hn⟩ := exists_marks (v.arrived k mu _ rfl (by simp))
        exact ⟨hmarks n hn ▸ hn, v.mutex k mu _ rfl (by simp)⟩
      · cases hl

theorem Refines.covered {f : Fifo Addr} {h : List (Event Addr)} {s : St} (r : Refines f h s)
    {w : Addr} (hw : Reachable s.mem.prev s.mem.m_waiter_tail w ∨
      Reachable s.mem.prev s.mem.m_waiter_head w) :
    InProgress s w := by
  have hall : w ∈ f.all := by
    cases hlock : s.mem.m_lock with
    | none =>
      have hrest := r.free hlock
      exact covered_queue hrest.linked hrest.tail w hw
    | some t => exact (r.held t hlock).covered w hw
  exact (r.view w.1).inside w hall rfl

/-- **The condition variable is a FIFO wait queue**: every history of it is one of the queue; where
`m_lock` is free its chain is that queue; a signal marks the oldest in it, a broadcast all; a wait
returns marked exactly once, with its mutex; and nothing but waits in progress is ever reachable. -/
theorem refines_fifo {waiter : Addr → Waiter} {s : St}
    {π : List (Transition Tid Loc Mem Act (Event Addr))} (hp : cond.Path (start waiter) π s) :
    ∃ f, Fifo.run (events π) = some f ∧
      (s.mem.m_lock = none → f.owed = [] ∧ IsQueue f.queue s) ∧
      (∀ ρ h, events π = .done :: (ρ ++ .signal :: h) → (∀ e ∈ ρ, e.inner = true) →
        ∃ f₀, Fifo.run h = some f₀ ∧ marked ρ = f₀.queue.take 1) ∧
      (∀ ρ h, events π = .done :: (ρ ++ .broadcast :: h) → (∀ e ∈ ρ, e.inner = true) →
        ∃ f₀, Fifo.run h = some f₀ ∧ marked ρ = f₀.queue) ∧
      (∀ t a k mu pc s' e, s.loc t = .wait k mu pc → cond.step s t a = some (s', e) →
        s'.loc t = .idle → marks (t, k) (events π) = some 1 ∧ s'.mem.mutex mu = some t) ∧
      (∀ w, Reachable s.mem.prev s.mem.m_waiter_tail w ∨
        Reachable s.mem.prev s.mem.m_waiter_head w → InProgress s w) := by
  obtain ⟨f, r⟩ := hp.invariant (fun h s => ∃ f, Refines f h s) (fun _ _ _ => True)
    (fun h s t a l m e hr _ hx => hr.elim fun _ r => r.step (moves_of_exec hx))
    (fun _ _ => trivial) ⟨_, start_refines waiter⟩
  refine ⟨f, r.run, fun hfree => ⟨(r.free hfree).owed, r.isQueue hfree⟩,
    fun ρ h hπ hρ => Fifo.marked_of_signal (hπ ▸ r.run) hρ,
    fun ρ h hπ hρ => Fifo.marked_of_broadcast (hπ ▸ r.run) hρ,
    fun t a k mu pc s' e hloc hs hidle => ?_, fun w hw => r.covered hw⟩
  obtain ⟨l, m, hx, rfl⟩ := step_eq_some.mp hs
  rw [State.move_loc_self] at hidle
  subst hidle
  exact r.returns hloc (moves_of_exec hx)

/-- Two waits, a signal for the first; it returns. -/
def signalFirst : List (Tid × Act) :=
  [(0, Act.lock 0), (0, Act.wait 5 0)] ++ List.replicate 7 (0, Act.run) ++
  [(1, Act.lock 0), (1, Act.wait 3 0)] ++ List.replicate 7 (1, Act.run) ++
  (2, Act.signal) :: List.replicate 7 (2, Act.run) ++ List.replicate 5 (0, Act.run)

/-- The first waiter is back, with the mutex, and the queue is the second. -/
theorem refines_fifo_signal :
    ∃ s π, cond.Path (start fun _ => ⟨1, some (1, 3)⟩) π s ∧ s.loc 0 = .idle ∧
      s.mem.mutex 0 = some 0 ∧ marks (0, 5) (events π) = some 1 ∧ IsQueue [(1, 3)] s := by
  obtain ⟨s, π, hp, hl, hmu, hmarks, hfree, hq⟩ := exists_path_of_run (p := cond)
    (s := start fun _ => ⟨1, some (1, 3)⟩) signalFirst (P := fun s π => s.loc 0 = .idle ∧
      s.mem.mutex 0 = some 0 ∧ marks (0, 5) (events π) = some 1 ∧ s.mem.m_lock = none ∧
      (Fifo.run (events π)).map Fifo.queue = some [(1, 3)]) (by decide)
  obtain ⟨f, hf, hfree', -⟩ := refines_fifo hp
  have hqueue : f.queue = [(1, 3)] := by
    simpa only [hf, Option.map_some, Option.some.injEq] using hq
  exact ⟨s, π, hp, hl, hmu, hmarks, hqueue ▸ (hfree' hfree).2⟩

end Libult.Qthreads
