import Libult.Interleaving.WaitFor
import Libult.WaitSync.Stranded

/-!
# WaitSync/Deadlock — the two lock classes never close a circle

A waiter takes `wait_sync_lock` with its own lock held; the global wakeup and the hand-over take a
sync's lock with `wait_sync_lock` held.  No order of the locks explains that, but what the threads
are doing does: the first kind of waiter is not registered yet, the second kind wants registered
syncs only.  So along every wait the rank drops

    3  wants a sync's lock, without `wait_sync_lock`
    2  wants `wait_sync_lock`
    1  wants a sync's lock, with `wait_sync_lock`
    0  is not acquiring anything
-/

namespace Libult.WaitSync

open Interleaving Program Links

/-- The mutexes of the module. -/
inductive Mutex
  | waitSyncLock
  | lock (sync : Sid)
  deriving DecidableEq

def Mem.holder (m : Mem) : Mutex → Option Tid
  | .waitSyncLock => m.waitSyncLock
  | .lock S => (m.sync S).lock

/-! ## What a thread is acquiring -/

def UpdatePc.wants (S : Sid) : UpdatePc → Option Mutex
  | .l52 => some (.lock S)
  | _ => none

def WakeupPc.wants : WakeupPc → Option Mutex
  | .l17 => some .waitSyncLock
  | .l24 S pc => pc.wants S
  | _ => none

/-- What a line of the wait acquires; `asleep` tells whether line 83 is still waiting for a
signal. -/
def WaitPc.wants (S : Sid) (head : Option Sid) (asleep : Bool) : WaitPc → Option Mutex
  | .l52 => some (.lock S)
  | .l83w => if asleep then none else some (.lock S)
  | .l63 | .l109 => some .waitSyncLock
  | .l36 => head.map .lock
  | _ => none

/-- **The mutex a thread is acquiring.** -/
def Thread.wants (t : Tid) (m : Mem) (th : Thread) : Option Mutex :=
  match th.call, th.frame with
  | .update S _ _ pc, _ => pc.wants S
  | .wakeup _ pc, _ => pc.wants
  | .idle, .wait S pc => pc.wants S m.waitSyncList (decide (t ∈ (m.sync S).condition))
  | .idle, _ => none

/-- The thread is executing one of the functions. -/
def Thread.running (th : Thread) : Prop :=
  th.call ≠ .idle ∨ (∃ S pc, th.frame = .wait S pc) ∨ ∃ S pc, th.frame = .release S pc

/-! ## Nothing else stops a thread

No line finds a `NULL` pointer, so a thread inside a function is stopped by a held mutex or by its
sleep, and by nothing else. -/

section Stopped

variable {max : ℤ} {t : Tid} {m : Mem} {S : Sid} {l : List Sid}

theorem waitSyncUpdate_eq_none {u st : ℤ} {pc : UpdatePc} :
    waitSyncUpdate t S u st m pc = none ↔ ∃ k, pc.wants S = some k ∧ m.holder k ≠ none := by
  cases pc <;> simp [waitSyncUpdate, UpdatePc.wants, Mem.holder]

theorem globalWakeupMt_eq_none {st : ℤ} {pc : WakeupPc} :
    globalWakeupMt t st m pc = none ↔ ∃ k, pc.wants = some k ∧ m.holder k ≠ none := by
  cases pc with
  | l24 S pc => simp only [globalWakeupMt, Option.map_eq_none_iff, waitSyncUpdate_eq_none,
      WakeupPc.wants]
  | _ => simp [globalWakeupMt, WakeupPc.wants, Mem.holder]

/-- **No line of a critical section finds a `NULL` pointer.** -/
theorem WaitPc.pointer_of_shape {pc : WaitPc} (hv : pc.listLocked = true → pc.shape S l m)
    (hS : S ∈ l ↔ pc.registered = true) :
    (pc = .l68 ∨ pc = .l71 ∨ pc = .l36 ∨ pc = .l37 ∨ pc = .l38 → m.waitSyncList ≠ none) ∧
    (pc = .l69 ∨ pc = .l110 → m.prev S ≠ none) ∧ (pc = .l111 → m.next S ≠ none) := by
  have head : m.waitSyncList = l.head? → l ≠ [] → m.waitSyncList ≠ none := fun h hne =>
    h ▸ mt List.head?_eq_none_iff.mp hne
  refine ⟨?_, ?_, ?_⟩
  · rintro (rfl | rfl | rfl | rfl | rfl) <;> have hs := hv rfl
    exacts [head hs.1.head hs.2, head hs.1 hs.2.1, head hs.1.head hs.2, head hs.1.head hs.2,
      head hs.1.head hs.2]
  · rintro (rfl | rfl) <;> have hs := hv rfl
    · exact hs.2.2 ▸ mt List.getLast?_eq_none_iff.mp hs.2.1
    · obtain ⟨z, -, hz⟩ := hs.ring.exists_prev (hS.mpr rfl)
      simp [hz.prev]
  · rintro rfl
    obtain ⟨-, l₁, l₂, -, ho⟩ := hv rfl
    simp [ho.next]

theorem ompiSyncWaitMt_eq_none {pc : WaitPc}
    (hnull : (pc = .l68 ∨ pc = .l71 ∨ pc = .l36 ∨ pc = .l37 ∨ pc = .l38 → m.waitSyncList ≠ none) ∧
      (pc = .l69 ∨ pc = .l110 → m.prev S ≠ none) ∧ (pc = .l111 → m.next S ≠ none)) :
    ompiSyncWaitMt max t S m pc = none ↔ Asleep t S (.wait S pc) m ∨
      ∃ k, pc.wants S m.waitSyncList (decide (t ∈ (m.sync S).condition)) = some k ∧
        m.holder k ≠ none := by
  obtain ⟨hlist, hprev, hnext⟩ := hnull
  cases pc
  case l83w =>
    by_cases hc : t ∈ (m.sync S).condition <;>
      simp [ompiSyncWaitMt, WaitPc.wants, Asleep, Mem.holder, hc]
  case l36 =>
    obtain ⟨X, hX⟩ := Option.ne_none_iff_exists'.mp (hlist (by simp))
    simp [ompiSyncWaitMt, WaitPc.wants, Asleep, Mem.holder, hX]
  case l68 | l71 | l37 | l38 =>
    simpa [ompiSyncWaitMt, WaitPc.wants, Asleep] using hlist
  case l69 | l110 => simpa [ompiSyncWaitMt, WaitPc.wants, Asleep, Mem.prev] using hprev
  case l111 => simpa [ompiSyncWaitMt, WaitPc.wants, Asleep, Mem.next] using hnext
  all_goals simp [ompiSyncWaitMt, WaitPc.wants, Asleep, Mem.holder]

end Stopped

section Run

variable {max : ℤ} {s : St} {π : List (Transition Tid Thread Mem Act Event)}
  (hp : (waitSync max).Path start π s)

include hp

/-- **A thread inside a function is stopped by its sleep or by a held mutex**, and by nothing
else. -/
theorem runLine_eq_none {t : Tid} (hr : (s.loc t).running) :
    runLine max t s.mem (s.loc t) = none ↔
      (∃ S, (s.loc t).call = .idle ∧ Asleep t S (s.loc t).frame s.mem) ∨
      ∃ k, (s.loc t).wants t s.mem = some k ∧ s.mem.holder k ≠ none := by
  have hm := fun S => (ordered_of_path hp).mem_own (locked_of_path hp) (t := t) (S := S)
  have hv := (ordered_of_path hp).view t
  generalize s.loc t = th at hr hm hv
  obtain ⟨f, c⟩ := th
  cases c with
  | update S u st pc =>
    rw [runLine, Option.map_eq_none_iff, waitSyncUpdate_eq_none]
    simp [Thread.wants]
  | wakeup st pc =>
    rw [runLine, Option.map_eq_none_iff, globalWakeupMt_eq_none]
    simp [Thread.wants]
  | idle =>
    cases f with
    | wait S pc =>
      rw [runLine, Option.map_eq_none_iff, ompiSyncWaitMt_eq_none (WaitPc.pointer_of_shape
        (hv.frame S pc rfl) ((hm S rfl).trans (by simp [Frame.registered])))]
      refine or_congr ⟨fun ha => ⟨S, rfl, ha⟩, ?_⟩ Iff.rfl
      rintro ⟨X, -, ha⟩
      obtain rfl : S = X := (Frame.wait.inj ha.1).1
      exact ha
    | release S pc => simp [runLine, Thread.wants, Asleep]
    | out | ready S | back S rc => simp [Thread.running] at hr

end Run

/-! ## The rank drops along every wait -/

/-- What a thread is doing, as far as its waits go. -/
def Thread.rank (t : Tid) (m : Mem) (th : Thread) : ℕ :=
  match th.wants t m with
  | none => 0
  | some .waitSyncLock => 2
  | some (.lock _) => if th.listLocked then 1 else 3

section Rank

variable {t : Tid} {m : Mem} {th : Thread} {S : Sid} {h : List Event} {s : St}

/-- Under `wait_sync_lock` nobody wants it again. -/
theorem Thread.wants_of_listLocked (hh : Held t th m) (hl : th.listLocked = true) :
    th.wants t m ≠ some .waitSyncLock := by
  obtain ⟨f, c⟩ := th
  cases c with
  | update S u st pc => cases pc <;> simp [wants, UpdatePc.wants]
  | wakeup st pc =>
    have hf : f.listLocked = false := Frame.listLocked_of_mayCall (hh.nested (by simp))
    cases pc with
    | l17 => simp [listLocked, hf, Call.listLocked, WakeupPc.listLocked] at hl
    | l24 S pc => cases pc <;> simp [wants, WakeupPc.wants, UpdatePc.wants]
    | _ => simp [wants, WakeupPc.wants]
  | idle =>
    cases f with
    | wait S pc =>
      have hpc : pc.listLocked = true := by
        simpa [listLocked, Frame.listLocked, Call.listLocked] using hl
      cases pc <;> first | exact absurd hpc Bool.false_ne_true | simp [wants, WaitPc.wants]
    | _ => simp [wants]

/-- Whoever holds a sync's lock wants nothing — except an owner about to register. -/
theorem Thread.wants_of_holds (hh : Held t th m) (hl : (m.sync S).lock = some t) :
    th.wants t m = none ∨ th = ⟨.wait S .l63, .idle⟩ ∧ th.wants t m = some .waitSyncLock := by
  obtain ⟨f, c⟩ := th
  rcases (hh.lock S).mp hl with hf | hc
  · have hidle : c = .idle := by
      by_contra hc
      exact Frame.not_holds_of_mayCall (hh.nested hc) _ _ hf
    subst hidle
    cases f <;> simp only [Frame.holds] at hf
    rename_i S' pc
    rcases hf with ⟨hp, rfl⟩ | ⟨hp, -⟩
    · cases pc <;> first | exact absurd hp Bool.false_ne_true | simp [wants, WaitPc.wants]
    · cases pc <;> first | exact absurd hp Bool.false_ne_true | simp [wants, WaitPc.wants]
  · left
    cases c with
    | idle => exact hc.elim
    | update S' u st pc =>
      obtain ⟨hp, -⟩ := hc
      cases pc <;> first | exact absurd hp Bool.false_ne_true | rfl
    | wakeup st pc =>
      cases pc with
      | l24 S' pc =>
        obtain ⟨hp, -⟩ := hc
        cases pc <;> first | exact absurd hp Bool.false_ne_true | rfl
      | _ => exact hc.elim

/-- **Under `wait_sync_lock` a thread wants the lock of a registered sync only.** -/
theorem Ordered.registered_of_wants (hs : Locked s) (o : Ordered h s)
    (hl : (s.loc t).listLocked = true) (hw : (s.loc t).wants t s.mem = some (.lock S)) :
    S ∈ pending h := by
  have hh := hs.held t
  have hv := o.view t
  have hpass := @Ordered.passing _ _ t o
  generalize s.loc t = th at *
  obtain ⟨f, c⟩ := th
  cases c with
  | update S' u st pc =>
    have hf : f.listLocked = false := Frame.listLocked_of_mayCall (hh.nested (by simp))
    simp [Thread.listLocked, hf, Call.listLocked] at hl
  | wakeup st pc =>
    have hf : f.listLocked = false := Frame.listLocked_of_mayCall (hh.nested (by simp))
    have hc : (Call.wakeup st pc).listLocked = true := by
      simpa [Thread.listLocked, hf] using hl
    refine (hv.call hc).2 S ?_
    cases pc with
    | l24 S' pc =>
      cases pc <;> simp only [Thread.wants, WakeupPc.wants, UpdatePc.wants, Option.some.injEq,
        Mutex.lock.injEq, reduceCtorEq] at hw
      simp [Call.target, hw]
    | _ => simp [Thread.wants, WakeupPc.wants] at hw
  | idle =>
    cases f with
    | wait S' pc =>
      have hpc : pc.listLocked = true := by
        simpa [Thread.listLocked, Frame.listLocked, Call.listLocked] using hl
      cases pc <;> first | exact absurd hpc Bool.false_ne_true | skip
      case l36 =>
        obtain ⟨X, hX, hd⟩ := hpass rfl (.inl rfl)
        obtain rfl : X = S := by simpa [Thread.wants, WaitPc.wants, hX] using hw
        exact List.mem_of_head? hd
      all_goals simp [Thread.wants, WaitPc.wants] at hw
    | _ => simp [Thread.wants] at hw

/-- **The rank drops along every wait.** -/
theorem Ordered.rank_drops (hs : Locked s) (o : Ordered h s) (t t' : Tid)
    (hw : WaitsFor (fun t => (s.loc t).wants t s.mem) s.mem.holder t t') :
    (s.loc t').rank t' s.mem < (s.loc t).rank t s.mem := by
  obtain ⟨k, hk, hold⟩ := hw
  cases k with
  | waitSyncLock =>
    have hl := ((hs.held t').list).mp hold
    have hne := Thread.wants_of_listLocked (hs.held t') hl
    simp only [Thread.rank, hk, hl, if_true]
    split <;> simp_all
  | lock S =>
    rcases Thread.wants_of_holds (hs.held t') hold with hnone | ⟨hth, hlist⟩
    · simp only [Thread.rank, hk, hnone]
      split <;> simp
    · -- the holder is not registered, so the waiter is not under `wait_sync_lock`
      have hl : (s.loc t).listLocked = false := Bool.not_eq_true _ ▸ fun hl => by
        have := (o.mem_own hs (t := t') (by rw [hth]; rfl)).mp (o.registered_of_wants hs hl hk)
        rw [hth] at this
        cases this
      simp only [Thread.rank, hk, hlist, hl]
      simp

end Rank

/-- **No deadlock.**  No cycle of threads is ever blocked, each acquiring a mutex held by the
next. -/
theorem no_deadlock {max : ℤ} {s : St} {π : List (Transition Tid Thread Mem Act Event)}
    (hp : (waitSync max).Path start π s) (t : Tid) :
    ¬ Deadlocked (fun t => (s.loc t).wants t s.mem) s.mem.holder t :=
  not_deadlocked_of_rank ((ordered_of_path hp).rank_drops (locked_of_path hp)) t

/-- Thread 3 updates sync 1, whose owner 1 is about to register, while thread 2 walks the list and
wants the lock of sync 0. -/
def waitInLine : List (Tid × Act) :=
  [(0, Act.init 0 1), (0, Act.wait)] ++ List.replicate 9 (0, Act.run) ++
  [(1, Act.init 1 1), (1, Act.wait)] ++ List.replicate 3 (1, Act.run) ++
  [(2, Act.wakeup 1)] ++ List.replicate 5 (2, Act.run) ++ [(3, Act.update 1 1 0)] ++
  List.replicate 2 (3, Act.run)

theorem no_deadlock_in_line :
    ∃ s π, (waitSync 1).Path start π s ∧
      WaitsFor (fun t => (s.loc t).wants t s.mem) s.mem.holder 3 1 ∧
      WaitsFor (fun t => (s.loc t).wants t s.mem) s.mem.holder 1 2 ∧
      WaitsFor (fun t => (s.loc t).wants t s.mem) s.mem.holder 2 0 ∧
      ∀ t, ¬ Deadlocked (fun t => (s.loc t).wants t s.mem) s.mem.holder t := by
  obtain ⟨s, π, hp, ⟨h₃, h₁⟩, ⟨h₁', h₂⟩, h₂', h₀⟩ := exists_path_of_run
    (p := waitSync 1) (s := start) waitInLine (P := fun s _ =>
      ((s.loc 3).wants 3 s.mem = some (.lock 1) ∧ s.mem.holder (.lock 1) = some 1) ∧
      ((s.loc 1).wants 1 s.mem = some .waitSyncLock ∧ s.mem.holder .waitSyncLock = some 2) ∧
      (s.loc 2).wants 2 s.mem = some (.lock 0) ∧ s.mem.holder (.lock 0) = some 0) (by decide)
  exact ⟨s, π, hp, ⟨_, h₃, h₁⟩, ⟨_, h₁', h₂⟩, ⟨_, h₂', h₀⟩, no_deadlock hp⟩

/-- Whoever holds a mutex is executing one of the functions, and awake. -/
theorem Held.running {t : Tid} {th : Thread} {m : Mem} (hh : Held t th m) {k : Mutex}
    (hk : m.holder k = some t) : th.running ∧ ∀ S, th.call = .idle → ¬ Asleep t S th.frame m := by
  obtain ⟨f, c⟩ := th
  have key : c ≠ .idle ∨ ∃ S pc, f = .wait S pc ∧ pc ≠ .l83w := by
    by_contra hc
    obtain ⟨hc, hf⟩ := not_or.mp hc
    obtain rfl : c = .idle := not_not.mp hc
    cases k with
    | waitSyncLock =>
      have hl := hh.list.mp hk
      cases f <;> simp_all [Thread.listLocked, Frame.listLocked, Call.listLocked,
        WaitPc.listLocked]
    | lock S =>
      rcases (hh.lock S).mp hk with hl | hl
      · cases f <;> simp_all [Frame.holds, WaitPc.locked, WaitPc.passing]
      · exact hl
  refine ⟨?_, fun S hc ha => ?_⟩
  · rcases key with hc | ⟨S, pc, hf, -⟩
    exacts [.inl hc, .inr (.inl ⟨S, pc, hf⟩)]
  obtain ⟨S', pc, hf, hne⟩ := key.resolve_left (not_not.mpr hc)
  exact hne (Frame.wait.inj (hf.symm.trans ha.1)).2

/-- **Whoever is blocked waits, in the end, for a thread that can run.** -/
theorem blocked_progress {max : ℤ} {s : St} {π : List (Transition Tid Thread Mem Act Event)}
    (hp : (waitSync max).Path start π s) {t t' : Tid}
    (hw : WaitsFor (fun t => (s.loc t).wants t s.mem) s.mem.holder t t') :
    ∃ u, Relation.TransGen (WaitsFor (fun t => (s.loc t).wants t s.mem) s.mem.holder) t u ∧
      runLine max u s.mem (s.loc u) ≠ none := by
  obtain ⟨u, hu, hfree⟩ := exists_unblocked
    ((ordered_of_path hp).rank_drops (locked_of_path hp)) t'
  have htu := Relation.TransGen.head' hw hu
  obtain ⟨v, -, k, -, hk⟩ := Relation.TransGen.tail'_iff.mp htu
  obtain ⟨hr, hawake⟩ := ((locked_of_path hp).held u).running hk
  refine ⟨u, htu, fun hn => ?_⟩
  rcases (runLine_eq_none hp hr).mp hn with ⟨S, hc, ha⟩ | ⟨k', hk', hhold⟩
  · exact hawake S hc ha
  · obtain ⟨w, hw⟩ := Option.ne_none_iff_exists'.mp hhold
    exact hfree w ⟨k', hk', hw⟩

/-! ## Where the pointers lead -/

/-- The pointer that a line of the wait on `S` goes through to another sync. -/
def WaitPc.follows (S : Sid) (m : Mem) : WaitPc → Option (Option Sid)
  | .l68 | .l71 | .l36 | .l37 | .l38 => some m.waitSyncList
  | .l69 | .l110 => some (m.prev S)
  | .l111 => some (m.next S)
  | _ => none

/-- …and a thread's next line; a global wakeup has its own in `sync`. -/
def Thread.follows (m : Mem) (th : Thread) : Option (Option Sid) :=
  match th.call, th.frame with
  | .wakeup _ (.l24 X _), _ | .wakeup _ (.l25 X), _ | .wakeup _ (.l18n X), _ => some (some X)
  | .idle, .wait S pc => pc.follows S m
  | _, _ => none

/-- **A line of the wait goes to a pending sync.** -/
theorem WaitPc.mem_of_follows {S : Sid} {l : List Sid} {m : Mem} {pc : WaitPc} {p : Option Sid}
    (hv : pc.listLocked = true → pc.shape S l m) (hS : S ∈ l ↔ pc.registered = true)
    (hf : pc.follows S m = some p) : ∃ X ∈ l, p = some X := by
  have head : m.waitSyncList = l.head? → l ≠ [] → ∃ X ∈ l, m.waitSyncList = some X := fun h hne =>
    ⟨l.head hne, List.head_mem hne, h.trans (List.head?_eq_some_head hne)⟩
  unfold follows at hf
  split at hf <;> first | (obtain rfl := Option.some.inj hf) | cases hf
  all_goals have hs := hv rfl
  · exact head hs.1.head hs.2
  · exact head hs.1 hs.2.1
  · exact head hs.1.head hs.2
  · exact head hs.1.head hs.2
  · exact head hs.1.head hs.2
  · -- line 69: the last of the list
    exact ⟨l.getLast hs.2.1, List.getLast_mem hs.2.1,
      hs.2.2.trans (List.getLast?_eq_some_getLast hs.2.1)⟩
  · obtain ⟨z, hz, hl⟩ := hs.ring.exists_prev (hS.mpr rfl)
    exact ⟨z, hz, hl.prev⟩
  · -- line 111: the one after the sync, or the sync itself
    obtain ⟨-, l₁, l₂, rfl, ho⟩ := hs
    have hne : l₂ ++ l₁ ++ [S] ≠ [] := by simp
    refine ⟨_, ?_, ho.next.trans (List.head?_eq_some_head hne)⟩
    have := List.head_mem hne
    simp only [List.mem_append, List.mem_cons, List.not_mem_nil, or_false] at this ⊢
    tauto

/-- **No line follows a pointer to nowhere.**  Whatever the order of registrations, completions,
hand-overs and wakeups, the pointer through which a line reaches another sync is not `NULL`, and the
sync belongs to a thread that is registered and has not returned. -/
theorem follows_waiting {max : ℤ} {s : St} {π : List (Transition Tid Thread Mem Act Event)}
    (hp : (waitSync max).Path start π s) {t : Tid} {p : Option Sid}
    (hf : (s.loc t).follows s.mem = some p) : ∃ X, p = some X ∧ Waiting s X := by
  have o := ordered_of_path hp
  have hm := fun S => o.mem_own (locked_of_path hp) (t := t) (S := S)
  have hv := o.view t
  suffices key : ∃ X ∈ pending (events π), p = some X by
    obtain ⟨X, hX, rfl⟩ := key
    exact ⟨X, rfl, o.mem_iff_waiting.mp hX⟩
  generalize s.loc t = th at hf hm hv
  obtain ⟨f, c⟩ := th
  unfold Thread.follows at hf
  split at hf
  case h_1 X _ hc | h_2 X hc | h_3 X hc =>
    obtain rfl : c = _ := hc
    obtain rfl := Option.some.inj hf
    exact ⟨X, (hv.call rfl).2 X rfl, rfl⟩
  case h_4 S pc hc hw =>
    obtain rfl : f = _ := hw
    exact pc.mem_of_follows (hv.frame S pc rfl)
      ((hm S rfl).trans (by simp [Frame.registered])) hf
  case h_5 => cases hf

/-- Thread 2 waits for the lock of sync 0, which it has found at the head. -/
theorem follows_waiting_in_line :
    ∃ s π, (waitSync 1).Path start π s ∧ (s.loc 2).follows s.mem = some (some 0) ∧
      ∃ X, some 0 = some X ∧ Waiting s X := by
  obtain ⟨s, π, hp, hf⟩ := exists_path_of_run (p := waitSync 1) (s := start) waitInLine
    (P := fun s _ => (s.loc 2).follows s.mem = some (some 0)) (by decide)
  exact ⟨s, π, hp, hf, follows_waiting hp hf⟩

end Libult.WaitSync
