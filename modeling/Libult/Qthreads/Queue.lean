import Libult.Qthreads.Cond
import Libult.Links.Chain

/-!
# Qthreads/Queue — the chained records are the wait queue

Whoever holds `m_lock` is in the middle of one of three sections, and at each line of them the chain
stands in a fixed relation to the abstract queue (`Shape`).  All through a signal or a broadcast the
records marked in it, those still to be marked and those left in the queue hang on one chain; only
the tail moves along it.

    tail                       head
     a ─m_prev─▸ b ─m_prev─▸ … z ─▸ NULL        woken ++ owed ++ queue
-/

namespace Libult.Qthreads

open Interleaving Links

/-! ## Where a thread is, and what it holds there -/

/-- The lines of the wait that hold `m_lock`. -/
def WaitPc.locked : WaitPc → Bool
  | .l108 | .l118 | .l120 | .l122 | .l125 _ => false
  | _ => true

def BroadcastPc.locked : BroadcastPc → Bool
  | .l134 => false
  | _ => true

def SignalPc.locked : SignalPc → Bool
  | .l147 => false
  | _ => true

/-- The thread is inside an `m_lock` section. -/
def Loc.locked : Loc → Bool
  | .idle => false
  | .wait _ _ pc => pc.locked
  | .broadcast pc => pc.locked
  | .signal pc => pc.locked

/-! ## What the chain looks like at each line -/

/-- The records `L`, oldest first, on one chain that ends at the head. -/
structure Linked (L : List Addr) (m : Mem) : Prop where
  chain : Chain m.prev L.head? L
  head : m.m_waiter_head = L.getLast?

/-- Outside the sections: the chain is the queue. -/
structure Rest (f : Fifo Addr) (m : Mem) : Prop where
  owed : f.owed = []
  woken : f.woken = []
  linked : Linked f.queue m
  tail : m.m_waiter_tail = f.queue.head?

/-- Before the wait with record `w` is linked. -/
structure Entering (w : Addr) (q : List Addr) (f : Fifo Addr) (m : Mem) : Prop where
  eq : f = ⟨q ++ [w], [], []⟩
  linked : Linked q m
  tail : m.m_waiter_tail = q.head?

def WaitPc.shape (w : Addr) (f : Fifo Addr) (m : Mem) : WaitPc → Prop
  | .l109 => ∃ q, Entering w q f m
  | .l110 => ∃ q, Entering w q f m ∧ m.prev w = none
  | .l111 => Entering w [] f m ∧ m.prev w = none
  | .l113 => ∃ q z, Entering w (q ++ [z]) f m ∧ m.prev w = none
  | .l115 => ∃ q, f = ⟨q ++ [w], [], []⟩ ∧ Chain m.prev m.m_waiter_tail (q ++ [w]) ∧
      m.m_waiter_head = q.getLast?
  | _ => Rest f m

/-- During a signal or a broadcast, the tail being at `tail`. -/
structure Waking (tail : Option Addr) (f : Fifo Addr) (m : Mem) : Prop where
  linked : Linked f.all m
  tail : m.m_waiter_tail = tail

/-- …and after it. -/
structure Woken (f : Fifo Addr) (m : Mem) : Prop where
  owed : f.owed = []
  linked : Linked f.queue m
  tail : m.m_waiter_tail = f.queue.head?

def BroadcastPc.shape (f : Fifo Addr) (m : Mem) : BroadcastPc → Prop
  | .l134 => Rest f m
  | .l135 | .l136 => f.queue = [] ∧ Waking f.owed.head? f m
  | .l137 cur => f.queue = [] ∧ Waking (some cur) f m ∧ ∃ o, f.owed = cur :: o
  | .l139 cur => f.queue = [] ∧ ∃ o, f.owed = cur :: o ∧ Waking o.head? f m
  | .l142 => f.queue = [] ∧ f.owed = [] ∧ Waking none f m
  | .l143 => Woken f m

def SignalPc.shape (f : Fifo Addr) (m : Mem) : SignalPc → Prop
  | .l147 => Rest f m
  | .l148 => Waking f.owed.head? f m ∧
      (f.owed = [] ∧ f.queue = [] ∨ ∃ a, f.owed = [a]) ∧ f.woken = []
  | .l149 => ∃ a, f.owed = [a] ∧ Waking (some a) f m ∧ f.woken = []
  | .l150 cur => f.owed = [cur] ∧ Waking (some cur) f m ∧ f.woken = []
  | .l152 cur => f.owed = [cur] ∧ Waking f.queue.head? f m ∧ f.woken = []
  | .l153 => ∃ a, f.owed = [] ∧ Waking f.queue.head? f m ∧ f.woken = [a]
  | .l154 => f.owed = [] ∧ f.queue = [] ∧ Waking none f m
  | .l157 => Woken f m

/-- **What the chain looks like** to the thread that holds `m_lock`, or finds it free. -/
def Shape (t : Tid) (f : Fifo Addr) (m : Mem) : Loc → Prop
  | .idle => Rest f m
  | .wait k _ pc => pc.shape (t, k) f m
  | .broadcast pc => pc.shape f m
  | .signal pc => pc.shape f m

section Shape

variable {t : Tid} {f f' : Fifo Addr} {m m' : Mem} {l : Loc} {L : List Addr}

theorem Shape.of_rest (h : Rest f m) (hl : l.locked = false) : Shape t f m l := by
  cases l with
  | idle => exact h
  | wait k mu pc => cases pc <;> first | exact h | exact absurd hl.symm Bool.false_ne_true
  | broadcast pc => cases pc <;> first | exact h | exact absurd hl.symm Bool.false_ne_true
  | signal pc => cases pc <;> first | exact h | exact absurd hl.symm Bool.false_ne_true

theorem Shape.rest (h : Shape t f m l) (hl : l.locked = false) : Rest f m := by
  cases l with
  | idle => exact h
  | wait k mu pc => cases pc <;> first | exact h | exact absurd hl.symm Bool.false_ne_true
  | broadcast pc => cases pc <;> first | exact h | exact absurd hl.symm Bool.false_ne_true
  | signal pc => cases pc <;> first | exact h | exact absurd hl.symm Bool.false_ne_true

/-- The two memories have the same chain, as far as the records `L` go. -/
structure Agree (L : List Addr) (m m' : Mem) : Prop where
  head : m'.m_waiter_head = m.m_waiter_head
  tail : m'.m_waiter_tail = m.m_waiter_tail
  prev : ∀ w ∈ L, m'.prev w = m.prev w

theorem Agree.mono {L' : List Addr} (h : Agree L m m') (hL : ∀ w ∈ L', w ∈ L) : Agree L' m m' :=
  ⟨h.head, h.tail, fun w hw => h.prev w (hL w hw)⟩

theorem Linked.congr (h : Linked L m) (ha : Agree L m m') : Linked L m' :=
  ⟨h.chain.congr ha.prev, ha.head.trans h.head⟩

theorem Rest.congr (h : Rest f m) (ha : Agree f.all m m') : Rest f m' := by
  have hq : ∀ w ∈ f.queue, w ∈ f.all := fun w hw =>
    List.mem_append_right _ (List.mem_append_right _ hw)
  exact ⟨h.owed, h.woken, h.linked.congr (ha.mono hq), ha.tail.trans h.tail⟩

theorem Entering.congr {w : Addr} {q : List Addr} (h : Entering w q f m) (ha : Agree f.all m m') :
    Entering w q f m' ∧ m'.prev w = m.prev w := by
  obtain ⟨rfl, hl, ht⟩ := h
  have hall : Fifo.all ⟨q ++ [w], [], []⟩ = q ++ [w] := rfl
  rw [hall] at ha
  exact ⟨⟨rfl, hl.congr (ha.mono fun _ => List.mem_append_left _), ha.tail.trans ht⟩,
    ha.prev w (by simp)⟩

theorem Waking.congr {tail : Option Addr} (h : Waking tail f m) (ha : Agree f.all m m') :
    Waking tail f m' :=
  ⟨h.linked.congr ha, ha.tail.trans h.tail⟩

theorem Woken.congr (h : Woken f m) (ha : Agree f.all m m') : Woken f m' := by
  have hq : ∀ w ∈ f.queue, w ∈ f.all := fun w hw =>
    List.mem_append_right _ (List.mem_append_right _ hw)
  exact ⟨h.owed, h.linked.congr (ha.mono hq), ha.tail.trans h.tail⟩

theorem WaitPc.shape_congr {w : Addr} {pc : WaitPc} (h : pc.shape w f m) (ha : Agree f.all m m') :
    pc.shape w f m' := by
  cases pc with
  | l109 =>
    obtain ⟨q, h⟩ := h
    exact ⟨q, (h.congr ha).1⟩
  | l110 =>
    obtain ⟨q, h, hw⟩ := h
    exact ⟨q, (h.congr ha).1, (h.congr ha).2.trans hw⟩
  | l111 => exact ⟨(h.1.congr ha).1, (h.1.congr ha).2.trans h.2⟩
  | l113 =>
    obtain ⟨q, z, h, hw⟩ := h
    exact ⟨q, z, (h.congr ha).1, (h.congr ha).2.trans hw⟩
  | l115 =>
    obtain ⟨q, rfl, hc, hh⟩ := h
    exact ⟨q, rfl, ha.tail.symm ▸ hc.congr ha.prev, ha.head.trans hh⟩
  | _ => exact Rest.congr h ha

theorem BroadcastPc.shape_congr {pc : BroadcastPc} (h : pc.shape f m) (ha : Agree f.all m m') :
    pc.shape f m' := by
  cases pc with
  | l134 => exact Rest.congr h ha
  | l135 | l136 => exact ⟨h.1, h.2.congr ha⟩
  | l137 cur => exact ⟨h.1, h.2.1.congr ha, h.2.2⟩
  | l139 cur =>
    obtain ⟨hq, o, ho, h⟩ := h
    exact ⟨hq, o, ho, h.congr ha⟩
  | l142 => exact ⟨h.1, h.2.1, h.2.2.congr ha⟩
  | l143 => exact Woken.congr h ha

theorem SignalPc.shape_congr {pc : SignalPc} (h : pc.shape f m) (ha : Agree f.all m m') :
    pc.shape f m' := by
  cases pc with
  | l147 => exact Rest.congr h ha
  | l148 => exact ⟨h.1.congr ha, h.2⟩
  | l149 =>
    obtain ⟨a, ho, h, hk⟩ := h
    exact ⟨a, ho, h.congr ha, hk⟩
  | l150 cur | l152 cur => exact ⟨h.1, h.2.1.congr ha, h.2.2⟩
  | l153 =>
    obtain ⟨a, ho, h, hk⟩ := h
    exact ⟨a, ho, h.congr ha, hk⟩
  | l154 => exact ⟨h.1, h.2.1, h.2.2.congr ha⟩
  | l157 => exact Woken.congr h ha

/-- Only the ends and the links of the records that matter matter. -/
theorem Shape.congr (h : Shape t f m l) (ha : Agree f.all m m') : Shape t f m' l := by
  cases l with
  | idle => exact Rest.congr h ha
  | wait => exact WaitPc.shape_congr h ha
  | broadcast => exact BroadcastPc.shape_congr h ha
  | signal => exact SignalPc.shape_congr h ha

end Shape

/-! ## One line of a section -/

section Lines

variable {t : Tid} {f : Fifo Addr} {m m' : Mem} {e : Event Addr} {L : List Addr} {w z : Addr}

theorem Mem.prev_setWaiter (r : Waiter) :
    (m.setWaiter w r).prev = Function.update m.prev w r.m_prev := by
  funext x
  by_cases hx : x = w <;> simp [prev, setWaiter, hx]

theorem Mem.prev_setPrev (o : Option Addr) :
    (m.setPrev w o).prev = Function.update m.prev w o := prev_setWaiter _

theorem Mem.prev_setSignaled : (m.setSignaled w).prev = m.prev := by
  rw [setSignaled, prev_setWaiter]
  exact Function.update_eq_self w m.prev

/-- Neither lock is part of the chain. -/
theorem Agree.lock : Agree L m (m.lock t) := ⟨rfl, rfl, fun _ _ => rfl⟩

theorem Agree.unlock : Agree L m m.unlock := ⟨rfl, rfl, fun _ _ => rfl⟩

/-- The record being linked is not in the queue yet. -/
theorem Entering.notMem {q : List Addr} (h : Entering w q f m) (hd : f.all.Nodup) : w ∉ q := by
  obtain ⟨rfl, -, -⟩ := h
  have hd' : (q ++ [w]).Nodup := hd
  exact fun hw => (List.nodup_append.mp hd').2.2 w hw w (by simp) rfl

/-- **A line of the wait in its section**, or into it: the queue and the chain move together. -/
theorem condWait_shape {mu : Mid} {pc : WaitPc} {pc' : Option WaitPc} (hd : f.all.Nodup)
    (hnew : pc = .l108 → w ∉ f.all) (hs : pc.shape w f m)
    (hl : condWait t w mu m pc = some (pc', m', e))
    (hsec : pc.locked = true ∨ pc = .l108 ∨ pc = .l122) :
    ∃ f' pc₁, f.step e = some f' ∧ pc' = some pc₁ ∧ pc₁.shape w f' m' := by
  cases pc <;> simp only [condWait, Option.ite_none_right_eq_some, Option.some.injEq,
    Prod.mk.injEq, Option.map_eq_some_iff] at hl
  case l108 =>
    obtain ⟨-, rfl, rfl, rfl⟩ := hl
    obtain ⟨q, o, k⟩ := f
    obtain ⟨rfl, rfl, hq, ht⟩ := hs
    have hw : w ∉ q := hnew rfl
    exact ⟨⟨q ++ [w], [], []⟩, _, by simp [Fifo.step, hw], rfl, q, rfl, hq.congr .lock, ht⟩
  case l109 =>
    obtain ⟨rfl, rfl, rfl⟩ := hl
    obtain ⟨q, hE⟩ := hs
    have hwq := hE.notMem hd
    obtain ⟨rfl, hq, ht⟩ := hE
    refine ⟨_, _, rfl, rfl, q, ⟨rfl, hq.congr ⟨rfl, rfl, fun x hx => ?_⟩, ht⟩, ?_⟩
    · rw [Mem.prev_setWaiter, Function.update_of_ne (fun h : x = w => hwq (h ▸ hx))]
    · rw [Mem.prev_setWaiter, Function.update_self]
  case l110 =>
    obtain ⟨rfl, rfl, rfl⟩ := hl
    obtain ⟨q, hE, hw⟩ := hs
    refine ⟨f, _, rfl, rfl, ?_⟩
    rw [hE.linked.head]
    rcases q.eq_nil_or_concat with rfl | ⟨q, z, rfl⟩
    · exact ⟨hE, hw⟩
    · rw [List.concat_eq_append] at hE ⊢
      rw [List.getLast?_concat, if_neg (by simp)]
      exact ⟨q, z, hE, hw⟩
  case l111 =>
    obtain ⟨rfl, rfl, rfl⟩ := hl
    obtain ⟨⟨rfl, hq, -⟩, hw⟩ := hs
    exact ⟨_, _, rfl, rfl, [], rfl, .singleton hw, hq.head⟩
  case l113 =>
    obtain ⟨head, hh, rfl, rfl, rfl⟩ := hl
    obtain ⟨q, z, hE, hw⟩ := hs
    have hwq := hE.notMem hd
    obtain ⟨rfl, hq, ht⟩ := hE
    obtain rfl : z = head := by simpa using hq.head.symm.trans hh
    refine ⟨_, _, rfl, rfl, q ++ [z], rfl, ?_, hq.head⟩
    rw [Mem.prev_setPrev, List.append_assoc]
    exact ht ▸ hq.chain.snoc hwq hw
  case l115 =>
    obtain ⟨rfl, rfl, rfl⟩ := hl
    obtain ⟨q, rfl, hc, -⟩ := hs
    have ht := hc.head
    exact ⟨_, _, rfl, rfl, rfl, rfl, ⟨ht ▸ hc, by simp [Mem.setHead]⟩, ht⟩
  case l116 =>
    obtain ⟨rfl, rfl, rfl⟩ := hl
    exact ⟨f, _, rfl, rfl, Rest.congr hs .unlock⟩
  case l122 =>
    obtain ⟨-, rfl, rfl, rfl⟩ := hl
    exact ⟨f, _, rfl, rfl, Rest.congr hs .lock⟩
  case l123 =>
    obtain ⟨rfl, rfl, rfl⟩ := hl
    exact ⟨f, _, rfl, rfl, hs⟩
  case l124 =>
    obtain ⟨rfl, rfl, rfl⟩ := hl
    exact ⟨f, _, rfl, rfl, Rest.congr hs .unlock⟩
  all_goals exact absurd hsec (by simp [WaitPc.locked])

/-- **Marking the oldest that is owed it** leaves the chain as it is. -/
theorem Fifo.all_mark {q o k : List Addr} :
    Fifo.all ⟨q, o, k ++ [z]⟩ = Fifo.all ⟨q, z :: o, k⟩ := by
  simp [Fifo.all, Fifo.unmarked]

/-- The record after the oldest one not marked. -/
theorem Linked.prev_owed {q o k : List Addr} (h : Linked (Fifo.all ⟨q, z :: o, k⟩) m) :
    m.prev z = (o ++ q).head? :=
  h.chain.of_append.2.head

/-- The chain of the marked records may be dropped. -/
theorem Linked.drop {L' : List Addr} (h : Linked (L ++ L') m) (hL : L' ≠ []) : Linked L' m :=
  ⟨h.chain.of_append, h.head.trans (List.getLast?_append_of_ne_nil L hL)⟩

theorem condBroadcast_shape {pc : BroadcastPc} {pc' : Option BroadcastPc} (hs : pc.shape f m)
    (hl : condBroadcast t m pc = some (pc', m', e)) :
    ∃ f', f.step e = some f' ∧ Shape t f' m' (pc'.elim .idle .broadcast) := by
  cases pc <;> simp only [condBroadcast, Option.ite_none_right_eq_some, Option.some.injEq,
    Prod.mk.injEq, Option.map_eq_some_iff] at hl
  case l134 =>
    obtain ⟨-, rfl, rfl, rfl⟩ := hl
    obtain ⟨q, o, k⟩ := f
    obtain ⟨rfl, rfl, hq, ht⟩ := hs
    refine ⟨⟨[], q, []⟩, rfl, rfl, ?_, ht⟩
    simpa [Fifo.all, Fifo.unmarked] using hq.congr .lock
  case l135 =>
    obtain ⟨rfl, rfl, rfl⟩ := hl
    obtain ⟨hq, h⟩ := hs
    refine ⟨f, rfl, ?_⟩
    split
    · exact ⟨hq, h⟩
    · rename_i hn
      rw [not_not] at hn
      have ho := List.head?_eq_none_iff.mp (h.tail.symm.trans hn)
      exact ⟨hq, ho, h.linked, hn⟩
  case l136 =>
    obtain ⟨tail, ht, rfl, rfl, rfl⟩ := hl
    obtain ⟨hq, h⟩ := hs
    obtain ⟨o, ho⟩ := List.head?_eq_some_iff.mp (h.tail.symm.trans ht)
    exact ⟨f, rfl, hq, ⟨h.linked, ht⟩, o, ho⟩
  case l137 cur =>
    obtain ⟨rfl, rfl, rfl⟩ := hl
    obtain ⟨q, o, k⟩ := f
    obtain ⟨rfl, h, o, rfl⟩ := hs
    refine ⟨_, rfl, rfl, o, rfl, ⟨h.linked.chain, h.linked.head⟩, ?_⟩
    exact h.linked.prev_owed.trans (by rw [List.append_nil])
  case l139 cur =>
    obtain ⟨rfl, rfl, rfl⟩ := hl
    obtain ⟨q, o, k⟩ := f
    obtain ⟨rfl, o, rfl, h⟩ := hs
    refine ⟨⟨[], o, k ++ [cur]⟩, by simp [Fifo.step], rfl, ?_, h.tail⟩
    rw [Fifo.all_mark]
    exact h.linked.congr ⟨rfl, rfl, fun _ _ => by rw [Mem.prev_setSignaled]⟩
  case l142 =>
    obtain ⟨rfl, rfl, rfl⟩ := hl
    obtain ⟨q, o, k⟩ := f
    obtain ⟨rfl, rfl, h⟩ := hs
    exact ⟨_, rfl, rfl, ⟨.nil, rfl⟩, h.tail⟩
  case l143 =>
    obtain ⟨rfl, rfl, rfl⟩ := hl
    exact ⟨_, if_pos hs.owed, rfl, rfl, hs.linked.congr .unlock, hs.tail⟩

theorem condSignal_shape {pc : SignalPc} {pc' : Option SignalPc} (hs : pc.shape f m)
    (hl : condSignal t m pc = some (pc', m', e)) :
    ∃ f', f.step e = some f' ∧ Shape t f' m' (pc'.elim .idle .signal) := by
  cases pc <;> simp only [condSignal, Option.ite_none_right_eq_some, Option.some.injEq,
    Prod.mk.injEq, Option.map_eq_some_iff] at hl
  case l147 =>
    obtain ⟨-, rfl, rfl, rfl⟩ := hl
    obtain ⟨q, o, k⟩ := f
    obtain ⟨rfl, rfl, hq, ht⟩ := hs
    refine ⟨⟨q.drop 1, q.take 1, []⟩, rfl, ⟨?_, ?_⟩, ?_, rfl⟩
    · simpa only [Fifo.all, Fifo.unmarked, List.nil_append, List.take_append_drop]
        using hq.congr .lock
    · cases q <;> exact ht
    · cases q with
      | nil => exact .inl ⟨rfl, rfl⟩
      | cons a q => exact .inr ⟨a, rfl⟩
  case l148 =>
    obtain ⟨rfl, rfl, rfl⟩ := hl
    obtain ⟨h, hcase, hk⟩ := hs
    refine ⟨f, rfl, ?_⟩
    rw [h.tail]
    rcases hcase with ⟨ho, hq⟩ | ⟨a, ho⟩
    · rw [if_neg (by simp [ho])]
      obtain ⟨q, o, k⟩ := f
      obtain ⟨rfl, rfl, rfl⟩ : q = [] ∧ o = [] ∧ k = [] := ⟨hq, ho, hk⟩
      exact ⟨rfl, h.linked, h.tail⟩
    · rw [if_pos (by simp [ho])]
      exact ⟨a, ho, ⟨h.linked, h.tail.trans (by simp [ho])⟩, hk⟩
  case l149 =>
    obtain ⟨tail, ht, rfl, rfl, rfl⟩ := hl
    obtain ⟨a, ho, h, hk⟩ := hs
    obtain rfl : a = tail := Option.some.inj (h.tail.symm.trans ht)
    exact ⟨f, rfl, ho, h, hk⟩
  case l150 cur =>
    obtain ⟨rfl, rfl, rfl⟩ := hl
    obtain ⟨q, o, k⟩ := f
    obtain ⟨rfl, h, rfl⟩ := hs
    exact ⟨_, rfl, rfl, ⟨⟨h.linked.chain, h.linked.head⟩, h.linked.prev_owed⟩, rfl⟩
  case l152 cur =>
    obtain ⟨rfl, rfl, rfl⟩ := hl
    obtain ⟨q, o, k⟩ := f
    obtain ⟨rfl, h, rfl⟩ := hs
    refine ⟨⟨q, [], [cur]⟩, by simp [Fifo.step], cur, rfl, ⟨?_, h.tail⟩, rfl⟩
    exact h.linked.congr ⟨rfl, rfl, fun _ _ => by rw [Mem.prev_setSignaled]⟩
  case l153 =>
    obtain ⟨rfl, rfl, rfl⟩ := hl
    obtain ⟨q, o, k⟩ := f
    obtain ⟨a, rfl, h, rfl⟩ := hs
    refine ⟨_, rfl, ?_⟩
    rw [h.tail]
    cases q with
    | nil => exact ⟨rfl, rfl, h.linked, h.tail⟩
    | cons b q => exact ⟨rfl, h.linked.drop (L := [a]) (List.cons_ne_nil b q), h.tail⟩
  case l154 =>
    obtain ⟨rfl, rfl, rfl⟩ := hl
    obtain ⟨q, o, k⟩ := f
    obtain ⟨rfl, rfl, h⟩ := hs
    exact ⟨_, rfl, rfl, ⟨.nil, rfl⟩, h.tail⟩
  case l157 =>
    obtain ⟨rfl, rfl, rfl⟩ := hl
    exact ⟨_, if_pos hs.owed, rfl, rfl, hs.linked.congr .unlock, hs.tail⟩

end Lines

end Libult.Qthreads
