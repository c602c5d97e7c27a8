import Libult.Links.Ring
import Libult.WaitSync.History

/-!
# WaitSync/Pending — the pending list is a ring in registration order

`pending h` is what the history `h` says is registered, oldest first.  Outside the critical sections
of `wait_sync_lock` the memory agrees: the head is the first of `pending`, and `next` and `prev`
make a ring of it.  Inside, each line sees the ring with the splice half done (`WaitPc.shape`);
nobody else can write a link there, so only the splicing thread's own lines have to be checked.

    insertion   64 ─▸ 68 ─▸ 69 ─▸ 70 ─▸ 71 ─▸ 73        removal   110 ─▸ 111 ─▸ 113 ─▸ 114 ─▸ 115
                      ring ──▸ strand ──▸ ring                       ring ─▸ strand ─▸ ring
-/

namespace Libult.WaitSync

open Interleaving Program Links

/-! ## What is registered -/

/-- What an event does to the registered syncs. -/
def Event.pend (l : List Sid) : Event → List Sid
  | .registered S => l ++ [S]
  | .removed S => l.erase S
  | _ => l

/-- **The registered syncs**, in registration order. -/
def pending : List Event → List Sid
  | [] => []
  | e :: h => e.pend (pending h)

/-- The lines of the wait between registration and removal. -/
def WaitPc.registered : WaitPc → Bool
  | .l73 | .l82 | .l82n | .l83 | .l83w | .l91 | .l92 | .l98 | .l100 | .l101 | .l103 | .l105
  | .l109 | .l110 | .l111 => true
  | _ => false

/-- The sync a frame has registered. -/
def Frame.registered : Frame → Option Sid
  | .wait S pc => if pc.registered then some S else none
  | _ => none

theorem Frame.registered_eq_some {f : Frame} {S : Sid} :
    f.registered = some S ↔ ∃ pc, f = .wait S pc ∧ pc.registered = true := by
  cases f <;> simp [registered, and_comm]

theorem Frame.sync_of_registered {f : Frame} {S : Sid} (h : f.registered = some S) :
    f.sync = some S := by
  obtain ⟨pc, rfl, -⟩ := registered_eq_some.mp h
  rfl

theorem Event.pend_of_own {e : Event} (h : e.own = false) (l : List Sid) : e.pend l = l := by
  cases e <;> first | rfl | cases h

/-- **Registration goes with its events**: a step registers the thread's own sync, removes it, or
changes nothing registered. -/
theorem moves_registered {max : ℤ} {t : Tid} {a : Act} {th th' : Thread} {m m' : Mem} {e : Event}
    (h : Moves max t a th m th' m' e) :
    (th'.frame.registered = th.frame.registered ∧ ∀ l, e.pend l = l) ∨
    th.listLocked = true ∧ ((∃ S, e = .registered S ∧ th.frame.sync = some S ∧
        th.frame.registered = none ∧ th'.frame.registered = some S) ∨
      ∃ S, e = .removed S ∧ th.frame.registered = some S ∧ th'.frame.registered = none) := by
  cases h with
  | init | callWait | callRelease | callUpdate | callWakeup | spurious =>
    exact .inl ⟨rfl, fun _ => rfl⟩
  | update h => exact .inl ⟨rfl, Event.pend_of_own (waitSyncUpdate_event h).1⟩
  | wakeup h => exact .inl ⟨rfl, Event.pend_of_own (globalWakeupMt_event h)⟩
  | @release _ _ _ S pc _ h =>
    cases pc <;> simp only [waitSyncRelease, Prod.mk.injEq] at h <;> obtain ⟨rfl, -, rfl⟩ := h <;>
      exact .inl ⟨rfl, fun _ => rfl⟩
  | @wait _ _ f S pc _ h =>
    cases pc <;> simp only [ompiSyncWaitMt, Option.ite_none_right_eq_some, Option.some.injEq,
      Option.map_eq_some_iff, Option.bind_eq_some_iff, Prod.mk.injEq] at h
    case l66 => obtain ⟨rfl, -, rfl⟩ := h; exact .inr ⟨rfl, .inl ⟨S, rfl, rfl, rfl, rfl⟩⟩
    case l71 => obtain ⟨_, -, rfl, -, rfl⟩ := h; exact .inr ⟨rfl, .inl ⟨S, rfl, rfl, rfl, rfl⟩⟩
    case l111 => obtain ⟨_, -, rfl, -, rfl⟩ := h; exact .inr ⟨rfl, .inr ⟨S, rfl, rfl, rfl⟩⟩
    case l52 | l63 | l83w | l109 =>
      obtain ⟨-, rfl, -, rfl⟩ := h
      exact .inl ⟨rfl, fun _ => rfl⟩
    case l68 | l69 | l110 | l37 | l38 =>
      obtain ⟨_, -, rfl, -, rfl⟩ := h
      exact .inl ⟨rfl, fun _ => rfl⟩
    case l36 => obtain ⟨_, -, -, rfl, -, rfl⟩ := h; exact .inl ⟨rfl, fun _ => rfl⟩
    case l47 | l57 | l64 | l82 | l82n | l91 | l101 | l113 | l115 =>
      obtain ⟨rfl, -, rfl⟩ := h
      refine .inl ⟨?_, fun _ => rfl⟩
      split <;> rfl
    all_goals obtain ⟨rfl, -, rfl⟩ := h; exact .inl ⟨rfl, fun _ => rfl⟩

/-! ## What the list looks like, line by line -/

/-- `next` and `prev` as the maps they are. -/
def Mem.next (m : Mem) (S : Sid) : Option Sid := (m.sync S).next

def Mem.prev (m : Mem) (S : Sid) : Option Sid := (m.sync S).prev

section Links

variable (m : Mem) (S : Sid) (v : Option Sid)

@[simp] theorem Mem.next_setNext : (m.setNext S v).next = Function.update m.next S v := by
  funext X
  by_cases hX : X = S <;> simp [next, setNext, hX]

@[simp] theorem Mem.prev_setNext : (m.setNext S v).prev = m.prev := by
  funext X
  by_cases hX : X = S <;> simp [prev, setNext, hX]

@[simp] theorem Mem.next_setPrev : (m.setPrev S v).next = m.next := by
  funext X
  by_cases hX : X = S <;> simp [next, setPrev, hX]

@[simp] theorem Mem.prev_setPrev : (m.setPrev S v).prev = Function.update m.prev S v := by
  funext X
  by_cases hX : X = S <;> simp [prev, setPrev, hX]

end Links

/-- **The list is whole**: the head is the oldest registered sync, and the links make a ring of
all of them. -/
structure Whole (l : List Sid) (m : Mem) : Prop where
  head : m.waitSyncList = l.head?
  ring : Ring m.next m.prev l

/-- **What the list looks like** to a thread that waits on `S`, line by line of its two critical
sections; `l` is what is registered. -/
def WaitPc.shape (S : Sid) (l : List Sid) (m : Mem) : WaitPc → Prop
  | .l65 => Whole l m ∧ l = []
  | .l65n => Whole l m ∧ l = [] ∧ m.prev S = some S
  | .l66 => Whole l m ∧ l = [] ∧ m.prev S = some S ∧ m.next S = some S
  | .l68 => Whole l m ∧ l ≠ []
  | .l69 => Whole l m ∧ l ≠ [] ∧ m.prev S = l.getLast?
  | .l70 => m.waitSyncList = l.head? ∧ l ≠ [] ∧ Strand m.next m.prev (l ++ [S])
  | .l71 => m.waitSyncList = l.head? ∧ l ≠ [] ∧ Strand m.next m.prev (l ++ [S]) ∧
      m.next S = l.head?
  | .l111 => m.waitSyncList = l.head? ∧ ∃ l₁ l₂, l = l₁ ++ S :: l₂ ∧
      Opened m.next m.prev S (l₂ ++ l₁)
  | .l113 => Ring m.next m.prev l ∧ S ∉ l ∧
      (m.waitSyncList = some S ∧ m.next S = (l ++ [S]).head? ∨
        m.waitSyncList ≠ some S ∧ m.waitSyncList = l.head?)
  | .l114 => Ring m.next m.prev l ∧ S ∉ l ∧ m.next S = (l ++ [S]).head?
  | .l36 | .l37 | .l38 => Whole l m ∧ l ≠ []
  | _ => Whole l m

section Shape

variable {l : List Sid} {S : Sid} {m m' : Mem}

theorem Whole.congr (h : Whole l m) (hl : m'.waitSyncList = m.waitSyncList)
    (hn : ∀ X ∈ l, m'.next X = m.next X) (hp : ∀ X ∈ l, m'.prev X = m.prev X) : Whole l m' :=
  ⟨hl.trans h.head, h.ring.congr hn hp⟩

/-- A write that leaves the links alone. -/
theorem Whole.modify (h : Whole l m) {f : Sync → Sync} (next : ∀ s, (f s).next = s.next)
    (prev : ∀ s, (f s).prev = s.prev) : Whole l (m.modify S f) := by
  refine h.congr rfl (fun X _ => ?_) fun X _ => ?_ <;>
    by_cases hX : X = S <;> simp [Mem.next, Mem.prev, hX, next, prev]

/-- **Only the links of the registered syncs and of the thread's own matter.** -/
theorem WaitPc.shape_congr {pc : WaitPc} (h : pc.shape S l m)
    (hl : m'.waitSyncList = m.waitSyncList)
    (hx : ∀ X, X = S ∨ X ∈ l → m'.next X = m.next X ∧ m'.prev X = m.prev X) :
    pc.shape S l m' := by
  have whole : Whole l m → Whole l m' := fun h =>
    h.congr hl (fun X hX => (hx X (.inr hX)).1) fun X hX => (hx X (.inr hX)).2
  have ring : Ring m.next m.prev l → Ring m'.next m'.prev l := fun h =>
    h.congr (fun X hX => (hx X (.inr hX)).1) fun X hX => (hx X (.inr hX)).2
  have strand : Strand m.next m.prev (l ++ [S]) → Strand m'.next m'.prev (l ++ [S]) := fun h => by
    have mem : ∀ X ∈ l ++ [S], X = S ∨ X ∈ l := fun X hX => by simpa [or_comm] using hX
    exact h.congr (fun X hX => (hx X (mem X (List.mem_of_mem_dropLast hX))).1)
      fun X hX => (hx X (mem X (List.mem_of_mem_tail hX))).2
  obtain ⟨hn, hp⟩ := hx S (.inl rfl)
  cases pc
  case l65 | l68 | l36 | l37 | l38 => exact h.imp_left whole
  case l65n => exact ⟨whole h.1, h.2.1, hp.trans h.2.2⟩
  case l66 => exact ⟨whole h.1, h.2.1, hp.trans h.2.2.1, hn.trans h.2.2.2⟩
  case l69 => exact ⟨whole h.1, h.2.1, hp.trans h.2.2⟩
  case l70 => exact ⟨hl.trans h.1, h.2.1, strand h.2.2⟩
  case l71 => exact ⟨hl.trans h.1, h.2.1, strand h.2.2.1, hn.trans h.2.2.2⟩
  case l111 =>
    obtain ⟨hd, l₁, l₂, rfl, ho⟩ := h
    refine ⟨hl.trans hd, l₁, l₂, rfl,
      ho.congr (fun X hX => (hx X ?_).1) fun X hX => (hx X ?_).2⟩ <;>
      · simp only [List.mem_append, List.mem_cons] at hX ⊢
        tauto
  case l113 =>
    obtain ⟨hr, hS, hd⟩ := h
    exact ⟨ring hr, hS, by rwa [hl, hn]⟩
  case l114 => exact ⟨ring h.1, h.2.1, hn.trans h.2.2⟩
  all_goals exact whole h

/-- Line 68: the new sync knows the last one of the list. -/
theorem Whole.shape_l69 (h : Whole l m) (hS : S ∉ l) (hne : l ≠ []) {a : Sid}
    (ha : m.waitSyncList = some a) :
    WaitPc.l69.shape S l (m.setPrev S (m.prev a)) := by
  refine ⟨h.congr rfl (by simp) fun X hX => ?_, hne, ?_⟩
  · rw [Mem.prev_setPrev, Function.update_of_ne]
    rintro rfl
    exact hS hX
  · rw [Mem.prev_setPrev, Function.update_self]
    exact h.ring.prev_head (h.head.symm.trans ha)

/-- Line 71 closes the ring behind the new sync. -/
theorem WaitPc.shape_l73 (h : WaitPc.l71.shape S l m) {a : Sid} (ha : m.waitSyncList = some a) :
    WaitPc.l73.shape S (l ++ [S]) (m.setPrev a (some S)) := by
  obtain ⟨hd, hne, hst, hn⟩ := h
  have hl : (l ++ [S]).head? = l.head? := by
    rw [List.head?_append, Option.or_of_isSome]
    simpa using hne
  refine ⟨hd.trans hl.symm, ?_⟩
  rw [Mem.next_setPrev, Mem.prev_setPrev]
  exact hst.close (by simp) (hl.trans (hd.symm.trans ha)) (hn.trans (hd.symm.trans ha))

/-- Line 111 closes the ring without the sync, which still knows the one after it. -/
theorem WaitPc.shape_l113 (h : WaitPc.l111.shape S l m) {n : Sid} (hn : m.next S = some n) :
    WaitPc.l113.shape S (l.erase S) (m.setPrev n (m.prev S)) := by
  obtain ⟨hd, l₁, l₂, rfl, ho⟩ := h
  have out : S ∉ l₁ ∧ S ∉ l₂ := by simpa [or_comm] using ho.out
  have he : (l₁ ++ S :: l₂).erase S = l₁ ++ l₂ := by
    rw [List.erase_append_right _ out.1, List.erase_cons_head]
  rw [he]
  refine ⟨?_, by simp [out], ?_⟩
  · rw [Mem.next_setPrev, Mem.prev_setPrev]
    exact (ho.close hn).rotate
  · rw [Mem.next_setPrev]
    cases l₁ with
    | nil => exact .inl ⟨hd, by simpa using ho.next⟩
    | cons a k =>
      refine .inr ⟨fun hc => out.1 ?_, hd⟩
      have : some a = some S := hd.symm.trans hc
      simp [Option.some.inj this]

/-- **Every line of a critical section leaves the list as the next one expects it.** -/
theorem ompiSyncWaitMt_shape {max : ℤ} {t : Tid} {pc : WaitPc} {f : Frame} {e : Event}
    (hs : pc.shape S l m) (hl : pc.listLocked = true) (hS : S ∈ l ↔ pc.registered = true)
    (h : ompiSyncWaitMt max t S m pc = some (f, m', e)) :
    ∃ pc', f = .wait S pc' ∧ pc'.shape S (e.pend l) m' := by
  cases pc <;> first | exact absurd hl Bool.false_ne_true | skip
  all_goals simp only [ompiSyncWaitMt, Option.ite_none_right_eq_some, Option.some.injEq,
      Option.map_eq_some_iff, Option.bind_eq_some_iff, Prod.mk.injEq] at h
  case l64 =>
    obtain ⟨rfl, rfl, rfl⟩ := h
    refine ⟨_, rfl, ?_⟩
    have hd : l = [] ↔ m.waitSyncList = none := by rw [hs.head, List.head?_eq_none_iff]
    split
    · exact ⟨hs, hd.mpr ‹_›⟩
    · exact ⟨hs, mt hd.mp ‹_›⟩
  case l65 =>
    obtain ⟨rfl, rfl, rfl⟩ := h
    obtain ⟨hw, rfl⟩ := hs
    exact ⟨_, rfl, hw.congr rfl (by simp) (by simp), rfl, by simp⟩
  case l65n =>
    obtain ⟨rfl, rfl, rfl⟩ := h
    obtain ⟨hw, rfl, hp⟩ := hs
    refine ⟨_, rfl, hw.congr rfl (by simp) (by simp), rfl, by simpa using hp, ?_⟩
    rw [Mem.next_setNext, Function.update_self]
    exact hp
  case l66 =>
    obtain ⟨rfl, rfl, rfl⟩ := h
    obtain ⟨hw, rfl, hp, hn⟩ := hs
    refine ⟨_, rfl, rfl, ⟨⟨List.nodup_singleton S, .singleton S⟩, ?_⟩⟩
    rintro z hz a ha
    obtain rfl : S = z := by simpa [Event.pend] using hz
    obtain rfl : S = a := by simpa [Event.pend] using ha
    exact ⟨hn, hp⟩
  case l68 =>
    obtain ⟨a, ha, rfl, rfl, rfl⟩ := h
    obtain ⟨hw, hne⟩ := hs
    exact ⟨_, rfl, hw.shape_l69 (by simp [hS, WaitPc.registered]) hne ha⟩
  case l69 =>
    obtain ⟨z, hz, rfl, rfl, rfl⟩ := h
    obtain ⟨hw, hne, hp⟩ := hs
    refine ⟨_, rfl, hw.head, hne, ?_⟩
    rw [Mem.next_setNext, Mem.prev_setNext]
    exact hw.ring.toStrand.snoc (by simp [hS, WaitPc.registered]) (hp.symm.trans hz) hz
  case l70 =>
    obtain ⟨rfl, rfl, rfl⟩ := h
    obtain ⟨hd, hne, hst⟩ := hs
    refine ⟨_, rfl, hd, hne, ?_, ?_⟩
    · rw [Mem.next_setNext, Mem.prev_setNext]
      exact hst.set_next_last _
    · rw [Mem.next_setNext, Function.update_self]
      exact hd
  case l71 =>
    obtain ⟨a, ha, rfl, rfl, rfl⟩ := h
    exact ⟨_, rfl, WaitPc.shape_l73 hs ha⟩
  case l73 =>
    obtain ⟨rfl, rfl, rfl⟩ := h
    exact ⟨_, rfl, hs.head, hs.ring⟩
  case l110 =>
    obtain ⟨p, hp, rfl, rfl, rfl⟩ := h
    obtain ⟨l₁, l₂, rfl⟩ := List.append_of_mem (hS.mpr rfl)
    refine ⟨_, rfl, hs.head, l₁, l₂, rfl, ?_⟩
    rw [Mem.next_setNext, Mem.prev_setNext]
    exact hs.ring.rotate_cons.opened hp
  case l111 =>
    obtain ⟨n, hn, rfl, rfl, rfl⟩ := h
    exact ⟨_, rfl, WaitPc.shape_l113 hs hn⟩
  case l113 =>
    obtain ⟨rfl, rfl, rfl⟩ := h
    obtain ⟨hr, hout, hd⟩ := hs
    refine ⟨_, rfl, ?_⟩
    split
    · exact ⟨hr, hout, (hd.resolve_right fun hc => hc.1 (Eq.symm ‹_›)).2⟩
    · exact ⟨(hd.resolve_left fun hc => ‹¬ _› hc.1.symm).2, hr⟩
  case l114 =>
    obtain ⟨rfl, rfl, rfl⟩ := h
    obtain ⟨hr, hout, hn⟩ := hs
    refine ⟨_, rfl, ?_, hr⟩
    change (if some S = m.next S then none else m.next S) = l.head?
    cases l with
    | nil => rw [hn, List.nil_append, List.head?_cons, if_pos rfl, List.head?_nil]
    | cons a k =>
      rw [hn, List.cons_append, List.head?_cons, if_neg, List.head?_cons]
      exact fun hc => hout (by simp [Option.some.inj hc])
  case l115 =>
    obtain ⟨rfl, rfl, rfl⟩ := h
    refine ⟨_, rfl, ?_⟩
    split
    · refine ⟨hs, ?_⟩
      rintro rfl
      exact ‹_ ≠ none› hs.head
    · exact hs
  case l36 =>
    obtain ⟨X, -, -, rfl, rfl, rfl⟩ := h
    exact ⟨_, rfl, hs.1.modify (fun _ => rfl) fun _ => rfl, hs.2⟩
  case l37 =>
    obtain ⟨X, -, rfl, rfl, rfl⟩ := h
    exact ⟨_, rfl, hs.1.modify (fun _ => rfl) fun _ => rfl, hs.2⟩
  case l38 =>
    obtain ⟨X, -, rfl, rfl, rfl⟩ := h
    exact ⟨_, rfl, hs.1.modify (fun _ => rfl) fun _ => rfl⟩
  case l119 =>
    obtain ⟨rfl, rfl, rfl⟩ := h
    exact ⟨_, rfl, hs.head, hs.ring⟩

/-- Outside the critical sections the list is whole. -/
theorem WaitPc.whole_of_shape {pc : WaitPc} (h : pc.shape S l m) (hl : pc.listLocked = false) :
    Whole l m := by
  cases pc <;> first | exact h | exact absurd hl.symm Bool.false_ne_true

/-- **The global wakeup stays on the ring.** -/
theorem globalWakeupMt_target {t : Tid} {st : ℤ} {pc : WakeupPc} {pc' : Option WakeupPc}
    {e : Event} (hw : Whole l m) (hS : ∀ X, (Call.wakeup st pc).target = some X → X ∈ l)
    (h : globalWakeupMt t st m pc = some (pc', m', e)) :
    ∀ X, (pc'.elim .idle (Call.wakeup st)).target = some X → X ∈ l := by
  intro X hX
  cases pc with
  | l24 S upc =>
    obtain ⟨⟨upc', m₁, e₁⟩, hu, hr⟩ := Option.map_eq_some_iff.mp h
    obtain ⟨rfl, rfl, rfl⟩ : _ = pc' ∧ _ = m' ∧ _ = e := by simpa using hr
    refine hS X ?_
    cases upc' <;> exact hX
  | l17 =>
    simp only [globalWakeupMt, Option.ite_none_right_eq_some, Option.some.injEq,
      Prod.mk.injEq] at h
    obtain ⟨-, rfl, -⟩ := h
    cases hX
  | l29 =>
    simp only [globalWakeupMt, Option.some.injEq, Prod.mk.injEq] at h
    obtain ⟨rfl, -⟩ := h
    cases hX
  | l18 =>
    simp only [globalWakeupMt, Option.some.injEq, Prod.mk.injEq] at h
    obtain ⟨rfl, -⟩ := h
    exact List.mem_of_head? (hw.head.symm.trans (WakeupPc.target_next hX))
  | l18n S =>
    simp only [globalWakeupMt, Option.some.injEq, Prod.mk.injEq] at h
    obtain ⟨rfl, -⟩ := h
    obtain ⟨Y, hY, hl⟩ := hw.ring.exists_next (hS S rfl)
    obtain rfl : Y = X := Option.some.inj (hl.next.symm.trans (WakeupPc.target_next hX))
    exact hY
  | l25 S =>
    simp only [globalWakeupMt, Option.some.injEq, Prod.mk.injEq] at h
    obtain ⟨rfl, -⟩ := h
    refine hS X ?_
    simp only [Option.elim] at hX
    split at hX
    · cases hX
    · exact hX

end Shape

/-! ## The invariant -/

/-- **A thread's view of the list** while it is inside a critical section. -/
structure View (l : List Sid) (m : Mem) (th : Thread) : Prop where
  frame : ∀ S pc, th.frame = .wait S pc → pc.listLocked = true → pc.shape S l m
  call : th.call.listLocked = true → Whole l m ∧ ∀ S, th.call.target = some S → S ∈ l

/-- **The list invariant.** -/
structure Ordered (h : List Event) (s : St) : Prop where
  nodup : (pending h).Nodup
  mem : ∀ S, S ∈ pending h ↔ ∃ t, (s.loc t).frame.registered = some S
  free : s.mem.waitSyncLock = none → Whole (pending h) s.mem
  view : ∀ t, View (pending h) s.mem (s.loc t)

section Step

variable {max : ℤ} {t : Tid} {a : Act} {th th' : Thread} {m m' : Mem} {e : Event} {l : List Sid}

/-- A thread outside the critical sections has nothing to see. -/
theorem View.of_not_listLocked (h : th.listLocked = false) : View l m th := by
  obtain ⟨hf, hc⟩ := Bool.or_eq_false_iff.mp h
  refine ⟨fun S pc hS hp => ?_, fun hl => absurd hl (by simp [hc])⟩
  rw [hS] at hf
  exact absurd hp (by simpa [Frame.listLocked] using hf)

/-- The way into a critical section. -/
theorem moves_enter (hh : Held t th m) (h : Moves max t a th m th' m' e)
    (hl : th.listLocked = false) (hw : Whole l m') : View l m' th' := by
  cases h with
  | init | callWait | callRelease | spurious => exact .of_not_listLocked rfl
  | callUpdate hf | callWakeup hf =>
    exact .of_not_listLocked (by
      simp [Thread.listLocked, Frame.listLocked_of_mayCall hf, Call.listLocked,
        WakeupPc.listLocked])
  | @release _ _ _ S pc _ h =>
    cases pc <;> simp only [waitSyncRelease, Prod.mk.injEq] at h <;> obtain ⟨rfl, -⟩ := h <;>
      exact .of_not_listLocked rfl
  | @update _ _ f S u st pc pc' _ h =>
    refine .of_not_listLocked ?_
    cases pc' <;> simp [Thread.listLocked, Frame.listLocked_of_mayCall (hh.nested (by simp)),
      Call.listLocked]
  | @wakeup _ _ f st pc pc' _ h =>
    have hf : f.listLocked = false := Frame.listLocked_of_mayCall (hh.nested (by simp))
    have hl : pc.listLocked = false := (Bool.or_eq_false_iff.mp hl).2
    cases pc <;> first | exact absurd hl.symm Bool.false_ne_true | skip
    simp only [globalWakeupMt, Option.ite_none_right_eq_some, Option.some.injEq,
      Prod.mk.injEq] at h
    obtain ⟨-, rfl, -⟩ := h
    refine ⟨fun S pc hS hp => ?_, fun _ => ⟨hw, fun _ h => by cases h⟩⟩
    subst hS
    exact absurd hp (by simpa [Frame.listLocked] using hf)
  | @wait _ _ f S pc _ h =>
    have hl : pc.listLocked = false := (Bool.or_eq_false_iff.mp hl).1
    refine ⟨fun S' pc' hf hp => ?_, fun h => by cases h⟩
    rw [show f = .wait S' pc' from hf] at h
    cases pc <;> first | exact absurd hl.symm Bool.false_ne_true | skip
    all_goals simp only [ompiSyncWaitMt, Option.ite_none_right_eq_some, Option.some.injEq,
      Prod.mk.injEq, Frame.wait.injEq, reduceCtorEq, false_and] at h
    case l63 | l109 => obtain ⟨-, ⟨rfl, rfl⟩, -⟩ := h; exact hw
    case l52 | l83w => obtain ⟨-, ⟨rfl, rfl⟩, -⟩ := h; cases hp
    case l58 | l83 | l92 | l98 | l100 | l103 | l105 => obtain ⟨⟨rfl, rfl⟩, -⟩ := h; cases hp
    all_goals
      obtain ⟨⟨rfl, rfl⟩, -⟩ := h
      split at hp <;> cases hp

/-- **A line of a critical section**, in the view of the thread that runs it. -/
theorem moves_view (hh : Held t th m) (hS : ∀ S, th.frame.sync = some S →
      (S ∈ l ↔ th.frame.registered = some S)) (hl : th.listLocked = true) (hv : View l m th)
    (h : Moves max t a th m th' m' e) :
    View (e.pend l) m' th' ∧ (th'.listLocked = false → Whole (e.pend l) m') := by
  cases h with
  | init | callWait | callRelease | spurious | release => cases hl
  | callUpdate hf | callWakeup hf =>
    exact absurd hl (by simp [Thread.listLocked, Frame.listLocked_of_mayCall hf, Call.listLocked])
  | @update _ _ f =>
    have hf : f.listLocked = false := Frame.listLocked_of_mayCall (hh.nested (by simp))
    exact absurd hl (by simp [Thread.listLocked, hf, Call.listLocked])
  | @wakeup _ _ f st pc pc' _ h =>
    have hf : f.listLocked = false := Frame.listLocked_of_mayCall (hh.nested (by simp))
    obtain ⟨hw, hX⟩ := hv.call (by simpa [Thread.listLocked, hf] using hl)
    obtain ⟨hlist, hlinks⟩ := globalWakeupMt_frame h
    have hw' : Whole l m' := hw.congr hlist (fun X _ => (hlinks X).2.1) fun X _ => (hlinks X).2.2
    rw [Event.pend_of_own (globalWakeupMt_event h)]
    refine ⟨⟨fun S upc hS hp => ?_, fun _ => ⟨hw', globalWakeupMt_target hw hX h⟩⟩, fun _ => hw'⟩
    subst hS
    exact absurd hp (by simpa [Frame.listLocked] using hf)
  | @wait _ _ f S pc _ h =>
    have hpc : pc.listLocked = true := by
      simpa [Thread.listLocked, Frame.listLocked, Call.listLocked] using hl
    obtain ⟨pc', rfl, hs⟩ := ompiSyncWaitMt_shape (hv.frame S pc rfl hpc) hpc
      ((hS S rfl).trans (by simp [Frame.registered])) h
    refine ⟨⟨fun S' upc hS' _ => ?_, fun h => by cases h⟩, fun hl' => WaitPc.whole_of_shape hs ?_⟩
    · cases hS'
      exact hs
    · exact (Bool.or_eq_false_iff.mp hl').1

/-- A view outlasts whatever leaves the head and the links of initialised syncs alone. -/
theorem View.congr (hh : Held t th m) (hv : View l m th) (ho : ∀ X ∈ l, (m.sync X).owner ≠ none)
    (hl : m'.waitSyncList = m.waitSyncList) (hx : ∀ X, (m.sync X).owner ≠ none →
      m'.next X = m.next X ∧ m'.prev X = m.prev X) : View l m' th where
  frame S pc hf hp := by
    refine WaitPc.shape_congr (hv.frame S pc hf hp) hl fun X hX => hx X ?_
    rcases hX with rfl | hX
    · simp [hh.own X (by rw [hf]; rfl)]
    · exact ho X hX
  call hp := by
    obtain ⟨hw, hX⟩ := hv.call hp
    exact ⟨hw.congr hl (fun X hX => (hx X (ho X hX)).1) fun X hX => (hx X (ho X hX)).2, hX⟩

end Step

theorem start_ordered : Ordered [] start where
  nodup := .nil
  mem S := by simp [pending, start, Frame.registered]
  free _ := ⟨rfl, .nil⟩
  view _ := .of_not_listLocked rfl

section Run

variable {max : ℤ} {h : List Event} {s : St} {t : Tid} {a : Act} {l : Thread} {m : Mem} {e : Event}

/-- Only its owner registers a sync. -/
theorem Locked.owner_of_registered (hs : Locked s) {S : Sid}
    (hr : (s.loc t).frame.registered = some S) : (s.mem.sync S).owner = some t :=
  (hs.held t).own S (Frame.sync_of_registered hr)

theorem Ordered.owner (hs : Locked s) (o : Ordered h s) {S : Sid} (hS : S ∈ pending h) :
    (s.mem.sync S).owner ≠ none := by
  obtain ⟨t, hr⟩ := (o.mem S).mp hS
  simp [hs.owner_of_registered hr]

/-- A thread's own sync is pending if the thread has registered it. -/
theorem Ordered.mem_own (hs : Locked s) (o : Ordered h s) {S : Sid}
    (hS : (s.loc t).frame.sync = some S) :
    S ∈ pending h ↔ (s.loc t).frame.registered = some S := by
  refine (o.mem S).trans ⟨fun hmem => ?_, fun hr => ⟨t, hr⟩⟩
  obtain ⟨t', hr⟩ := hmem
  have := (hs.owner_of_registered hr).symm.trans ((hs.held t).own S hS)
  rwa [Option.some.inj this] at hr

/-- The pending list follows the registrations. -/
theorem Ordered.step_mem (hs : Locked s) (o : Ordered h s)
    (hm : Moves max t a (s.loc t) s.mem l m e) : (pending (e :: h)).Nodup ∧
      ∀ S, S ∈ pending (e :: h) ↔ ∃ t', ((s.move t l m).loc t').frame.registered = some S := by
  have others : ∀ S t', t' ≠ t → (((s.move t l m).loc t').frame.registered = some S ↔
      (s.loc t').frame.registered = some S) := fun S t' hne => by
    rw [State.move_loc_of_ne _ _ _ _ hne]
  have split : ∀ S, (∃ t', ((s.move t l m).loc t').frame.registered = some S) ↔
      l.frame.registered = some S ∨ ∃ t', t' ≠ t ∧ (s.loc t').frame.registered = some S := by
    intro S
    constructor
    · rintro ⟨t', hr⟩
      by_cases hne : t' = t
      · subst hne; exact .inl (by rwa [State.move_loc_self] at hr)
      · exact .inr ⟨t', hne, (others S t' hne).mp hr⟩
    · rintro (hr | ⟨t', hne, hr⟩)
      · exact ⟨t, by rwa [State.move_loc_self]⟩
      · exact ⟨t', (others S t' hne).mpr hr⟩
  have old : ∀ S, S ∈ pending h ↔ (s.loc t).frame.registered = some S ∨
      ∃ t', t' ≠ t ∧ (s.loc t').frame.registered = some S := by
    intro S
    refine (o.mem S).trans ⟨?_, ?_⟩
    · rintro ⟨t', hr⟩
      by_cases hne : t' = t
      · subst hne; exact .inl hr
      · exact .inr ⟨t', hne, hr⟩
    · rintro (hr | ⟨t', -, hr⟩) <;> exact ⟨_, hr⟩
  rcases moves_registered hm with ⟨hr, he⟩ | ⟨-, ⟨X, rfl, hX, hr, hr'⟩ | ⟨X, rfl, hr, hr'⟩⟩
  · rw [pending, he]
    exact ⟨o.nodup, fun S => by rw [split, hr, old]⟩
  · have hout : X ∉ pending h := by rw [o.mem_own hs hX, hr]; simp
    refine ⟨List.nodup_append.mpr ⟨o.nodup, List.nodup_singleton X, ?_⟩, fun S => ?_⟩
    · rintro Y hY _ hX' rfl
      exact hout (List.mem_singleton.mp hX' ▸ hY)
    · simp only [pending, Event.pend, List.mem_append, List.mem_singleton, split, old, hr, hr',
        Option.some.injEq, reduceCtorEq, false_or]
      rw [or_comm, eq_comm]
  · refine ⟨o.nodup.erase X, fun S => ?_⟩
    simp only [pending, Event.pend, o.nodup.mem_erase_iff, split, old, hr, hr', reduceCtorEq,
      false_or, Option.some.injEq]
    constructor
    · rintro ⟨hne, rfl | hS⟩
      exacts [absurd rfl hne, hS]
    · rintro ⟨t', hne, hS⟩
      refine ⟨?_, .inr ⟨t', hne, hS⟩⟩
      rintro rfl
      have := (hs.owner_of_registered hS).symm.trans (hs.owner_of_registered hr)
      exact hne (Option.some.inj this)

/-- **One step keeps the list invariant.** -/
theorem Ordered.step (hs : Locked s) (o : Ordered h s)
    (hm : Moves max t a (s.loc t) s.mem l m e) : Ordered (e :: h) (s.move t l m) := by
  obtain ⟨hd, hmem⟩ := o.step_mem hs hm
  have hg := moves_guarantee hs.owner_of_lock (hs.held t) hm
  have hs' := hs.step hm
  have hlist' : m.waitSyncLock = some t ↔ l.listLocked = true := by
    simpa using (hs'.held t).list
  by_cases hl : (s.loc t).listLocked = true
  · -- the others are outside the critical sections, before and after
    have hlock := (hs.held t).list.mpr hl
    obtain ⟨hv, hw⟩ := moves_view (hs.held t) (fun S => o.mem_own hs) hl (o.view t) hm
    refine ⟨hd, hmem, fun hf => hw ?_, ?_⟩
    · refine Bool.not_eq_true _ ▸ fun hc => ?_
      simp [hlist'.mpr hc] at hf
    · refine (State.forall_move s t l m (A := fun _ th => View (pending (e :: h)) m th)).mpr
        ⟨hv, fun t' hne => .of_not_listLocked (Bool.not_eq_true _ ▸ fun hc => ?_)⟩
      exact hne (Option.some.inj (((hs.held t').list.mpr hc).symm.trans hlock))
  · -- the list, the links and what is registered stay as they are
    have hlock : s.mem.waitSyncLock ≠ some t := fun hc => hl ((hs.held t).list.mp hc)
    have he : pending (e :: h) = pending h := by
      rcases moves_registered hm with ⟨-, he⟩ | ⟨hc, -⟩
      · exact he _
      · exact absurd hc hl
    have hx := hg.links hlock
    have whole : Whole (pending h) s.mem → Whole (pending h) m := fun hw =>
      hw.congr (hg.list hlock) (fun X hX => (hx X (o.owner hs hX)).1)
        fun X hX => (hx X (o.owner hs hX)).2
    refine ⟨hd, hmem, fun hf => ?_, ?_⟩
    · rw [he]
      rcases hg.listLock with hsame | ⟨-, hc⟩ | ⟨hc, -⟩
      · exact whole (o.free (hsame.symm.trans hf))
      · exact absurd (hf.symm.trans hc) (by simp)
      · exact absurd hc hlock
    · rw [he]
      refine (State.forall_move s t l m (A := fun _ th => View (pending h) m th)).mpr
        ⟨?_, fun t' _ => (o.view t').congr (hs.held t') (fun X => o.owner hs) (hg.list hlock) hx⟩
      by_cases hl' : l.listLocked = true
      · refine moves_enter (hs.held t) hm (Bool.not_eq_true _ ▸ hl) (whole (o.free ?_))
        rcases hg.listLock with hsame | ⟨hfree, -⟩ | ⟨hc, -⟩
        · exact absurd (hsame.symm.trans (hlist'.mpr hl')) hlock
        · exact hfree
        · exact absurd hc hlock
      · exact .of_not_listLocked (Bool.not_eq_true _ ▸ hl')

/-- **A run keeps the list invariant.** -/
theorem ordered_of_path {π : List (Transition Tid Thread Mem Act Event)}
    (hp : (waitSync max).Path start π s) : Ordered (events π) s :=
  (hp.invariant (fun h s => Locked s ∧ Ordered h s) (fun _ _ _ => True)
    (fun _ _ _ _ _ _ _ hi _ hx => ⟨hi.1.step (moves_of_exec hx), hi.2.step hi.1 (moves_of_exec hx)⟩)
    (fun _ _ => trivial) ⟨start_locked, start_ordered⟩).2

/-! ## The pending list is a ring in registration order -/

/-- `S` belongs to a thread that is registered and has not returned. -/
def Waiting (s : St) (S : Sid) : Prop :=
  ∃ t pc, (s.loc t).frame = .wait S pc ∧ pc.registered = true

theorem Ordered.mem_iff_waiting (o : Ordered h s) {S : Sid} : S ∈ pending h ↔ Waiting s S :=
  (o.mem S).trans (exists_congr fun _ => Frame.registered_eq_some)

/-- A thread in a critical section of its wait has `wait_sync_lock`. -/
theorem Locked.listLock_of_frame (hs : Locked s) {S : Sid} {pc : WaitPc}
    (hf : (s.loc t).frame = .wait S pc) (hp : pc.listLocked = true) :
    s.mem.waitSyncLock = some t :=
  (hs.held t).list.mpr (by simp [Thread.listLocked, hf, Frame.listLocked, hp])

/-- The sync that `WAIT_SYNC_PASS_OWNERSHIP` signals is the oldest registered. -/
theorem Ordered.passing (o : Ordered h s) {X : Sid} {pc : WaitPc}
    (hf : (s.loc t).frame = .wait X pc) (hp : pc = .l36 ∨ pc = .l37 ∨ pc = .l38) :
    ∃ S, s.mem.waitSyncList = some S ∧ (pending h).head? = some S := by
  have hw : Whole (pending h) s.mem ∧ pending h ≠ [] := by
    rcases hp with rfl | rfl | rfl <;> exact (o.view t).frame X _ hf rfl
  obtain ⟨S, hS⟩ := Option.ne_none_iff_exists'.mp (mt List.head?_eq_none_iff.mp hw.2)
  exact ⟨S, hw.1.head.trans hS, hS⟩

/-- **The pending list is a ring in registration order.**  Outside the critical sections the head is
`NULL` iff nothing is registered, `next` visits what is registered once each, oldest first, and
comes back, `prev` is its inverse, and everything on the ring belongs to a thread still waiting.
Inside them, the hand-over goes to the oldest, and the pointers it and the global wakeup follow lead
to threads still waiting. -/
theorem pending_ring {π : List (Transition Tid Thread Mem Act Event)}
    (hp : (waitSync max).Path start π s) :
    ((∀ t, (s.loc t).listLocked = false) →
      (s.mem.waitSyncList = none ↔ ∀ S, ¬ Waiting s S) ∧
      (pending (events π)).Nodup ∧
      (∀ S, S ∈ pending (events π) ↔ Waiting s S) ∧
      (∀ S, s.mem.waitSyncList = some S → ∀ i,
        follow s.mem.next i S = (pending (events π))[i % (pending (events π)).length]?) ∧
      ∀ S X, Waiting s S → Waiting s X → (s.mem.prev X = some S ↔ s.mem.next S = some X)) ∧
    (∀ t X pc, (s.loc t).frame = .wait X pc → pc = .l36 ∨ pc = .l37 ∨ pc = .l38 →
      ∃ S, s.mem.waitSyncList = some S ∧ (pending (events π)).head? = some S ∧ Waiting s S) ∧
    ∀ t S, (s.loc t).call.listLocked = true → (s.loc t).call.target = some S → Waiting s S := by
  have hs := locked_of_path hp
  have o := ordered_of_path hp
  refine ⟨fun hout => ?_, fun t X pc hf hpc => ?_, fun t S hl hS => ?_⟩
  · have free : s.mem.waitSyncLock = none := by
      by_contra hc
      obtain ⟨t, ht⟩ := Option.ne_none_iff_exists'.mp hc
      exact absurd ((hs.held t).list.mp ht) (by simp [hout t])
    obtain ⟨head, ring⟩ := o.free free
    refine ⟨?_, o.nodup, fun S => o.mem_iff_waiting, fun S hS i => ?_, fun S X hS hX => ?_⟩
    · rw [head, List.head?_eq_none_iff, List.eq_nil_iff_forall_not_mem]
      exact forall_congr' fun S => not_congr o.mem_iff_waiting
    · exact ring.follow (head.symm.trans hS) i
    · exact ring.prev_eq_some (o.mem_iff_waiting.mpr hS) (o.mem_iff_waiting.mpr hX)
  · obtain ⟨S, hS, hd⟩ := o.passing hf hpc
    exact ⟨S, hS, hd, o.mem_iff_waiting.mp (List.mem_of_head? hd)⟩
  · exact o.mem_iff_waiting.mp (((o.view t).call hl).2 S hS)

end Run

/-- Thread 0 registers and makes progress, thread 1 registers behind it and sleeps. -/
def sleepBehind : List (Tid × Act) :=
  [(0, Act.init 0 1), (0, Act.wait)] ++ List.replicate 12 (0, Act.run) ++
  [(1, Act.init 1 1), (1, Act.wait)] ++ List.replicate 13 (1, Act.run)

theorem pending_ring_behind :
    ∃ s π, (waitSync 1).Path start π s ∧ pending (events π) = [0, 1] ∧
      s.mem.waitSyncList = some 0 ∧ Waiting s 1 ∧ ∀ i, follow s.mem.next i 0 = [0, 1][i % 2]? := by
  obtain ⟨s, π, hp, hl, ht, hout⟩ := exists_path_of_run (p := waitSync 1) (s := start) sleepBehind
    (P := fun s π => pending (events π) = [0, 1] ∧ s.mem.waitSyncList = some 0 ∧
      s.mem.waitSyncLock = none) (by decide)
  have hfree : ∀ t, (s.loc t).listLocked = false := fun t => Bool.not_eq_true _ ▸ fun hc => by
    have := ((locked_of_path hp).held t).list.mpr hc
    simp [hout] at this
  obtain ⟨-, -, hmem, hf, -⟩ := (pending_ring hp).1 hfree
  rw [hl] at hmem hf
  exact ⟨s, π, hp, hl, ht, (hmem 1).mp (by simp), hf 0 ht⟩

end Libult.WaitSync
