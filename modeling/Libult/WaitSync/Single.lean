import Libult.Interleaving.Solo
import Libult.WaitSync.CodeSt
import Libult.WaitSync.Updates
import Mathlib.Data.List.Induction

/-!
# WaitSync/Single — the wait without threads, and the wait of a thread alone

`SYNC_WAIT` is `sync_wait_st` or `ompi_sync_wait_mt`.  With one pending sync, whose updates come
from `progress()`, both register it, poll until the count is down and leave the list empty; they
differ in what they return: `sync->status`, or whether it is zero.  The count is an `int32_t`, and
the updates may wrap it.

    sync_wait_st      66 ─▸ 68 ─▸ 70 ◂─ 71 ─▸ 73 ─▸ return sync->status
    ompi_sync_wait_mt 47 ─▸ … ─▸ 101 ◂─ 103 ─▸ 105 ─▸ … ─▸ return
                                                       (0 == sync->status) ? SUCCESS : ERROR
-/

namespace Libult.WaitSync

open Interleaving Program

/-! ## The updates of a wait -/

/-- A call of `wait_sync_update` on the sync waited for. -/
structure Update where
  updates : Int32
  status : ℤ
  deriving DecidableEq, Repr

/-- The call. -/
def Update.act (S : Sid) (u : Update) : Act := .update S u.updates.toInt u.status

/-- What it does to the count and the status. -/
def Update.apply (q : Int32 × ℤ) (u : Update) : Int32 × ℤ :=
  if SUCCESS = u.status then (q.1 - u.updates, q.2) else (0, u.status)

/-- **The updates complete the sync**: the wait calls `progress()` once for each batch, and the
count is down after the last. -/
def Completes : Int32 × ℤ → List (List Update) → Prop
  | q, [] => q.1 ≤ 0
  | q, us :: bs => 0 < q.1 ∧ Completes (us.foldl Update.apply q) bs

instance (q : Int32 × ℤ) (bs : List (List Update)) : Decidable (Completes q bs) := by
  induction bs generalizing q with
  | nil => exact inferInstanceAs (Decidable (q.1 ≤ 0))
  | cons us bs ih => exact @instDecidableAnd _ _ _ (ih _)

/-- The status of the last error update, or `SUCCESS`. -/
def lastError (us : List Update) : ℤ :=
  ((us.filter (·.status ≠ SUCCESS)).getLast?.map (·.status)).getD SUCCESS

theorem lastError_snoc (us : List Update) (u : Update) :
    lastError (us ++ [u]) = if SUCCESS = u.status then lastError us else u.status := by
  unfold lastError
  rw [List.filter_append, List.filter_singleton]
  by_cases hu : SUCCESS = u.status
  · simp [hu]
  · simp [Ne.symm hu, hu]

/-- **The status is that of the last error update.** -/
theorem foldl_apply_status (c : Int32) (us : List Update) :
    (us.foldl Update.apply (c, SUCCESS)).2 = lastError us := by
  induction us using List.reverseRecOn with
  | nil => rfl
  | append_singleton us u ih =>
    rw [List.foldl_concat, lastError_snoc, Update.apply]
    split
    · exact ih
    · rfl

/-- What the count and the status come to over the batches. -/
def outcome (q : Int32 × ℤ) (bs : List (List Update)) : Int32 × ℤ := bs.flatten.foldl Update.apply q

theorem outcome_cons (q : Int32 × ℤ) (us : List Update) (bs : List (List Update)) :
    outcome q (us :: bs) = outcome (us.foldl Update.apply q) bs := by
  rw [outcome, List.flatten_cons, List.foldl_append]
  rfl

/-! ## `SYNC_WAIT` -/

/-- The value of a return code; `SUCCESS` is 0, and `ERROR` is defined elsewhere. -/
def Rc.value (ERROR : ℤ) : Rc → ℤ
  | .SUCCESS => WaitSync.SUCCESS
  | .ERROR => ERROR

/-- The waiter is in `progress()`. -/
def Thread.asks (th : Thread) : Prop := ∃ S, th = ⟨.wait S .l103, .idle⟩

def ThreadSt.asks (th : ThreadSt) : Prop := ∃ S, th = ⟨.wait S .l71, .idle⟩

/-- **`SYNC_WAIT(sync)`** after `WAIT_SYNC_INIT(sync, c)` by a thread alone, its calls of
`progress()` making the given updates: it returns `v` and leaves `m'`. -/
def SyncWait (max ERROR : ℤ) (usingThreads : Bool) (t : Tid) (S : Sid) (c : Int32)
    (bs : List (List Update)) (m : Mem) (v : ℤ) (m' : Mem) : Prop :=
  if usingThreads then ∃ rc, v = Rc.value ERROR rc ∧
    (intWaitSync max).Solo t .run Thread.asks
      (⟨.wait S .l47, .idle⟩, (m.waitSyncInit S t c.toInt).ints)
      (bs.map (List.map (Update.act S))) (⟨.back S rc, .idle⟩, m')
  else
    intWaitSyncSt.Solo t .run ThreadSt.asks
      (⟨.wait S .l66, .idle⟩, (m.waitSyncInit S t c.toInt).ints)
      (bs.map (List.map (Update.act S))) (⟨.back S v, .idle⟩, m')

/-- It returns `v` and nothing else, and leaves the list empty. -/
def Returns (max ERROR : ℤ) (usingThreads : Bool) (t : Tid) (S : Sid) (c : Int32)
    (bs : List (List Update)) (m : Mem) (v : ℤ) : Prop :=
  (∃ m', SyncWait max ERROR usingThreads t S c bs m v m') ∧
    ∀ v' m', SyncWait max ERROR usingThreads t S c bs m v' m' → v' = v ∧ m'.waitSyncList = none

/-! ### What an `int32_t` keeps -/

@[simp] theorem int32_toInt (c : Int32) : int32 c.toInt = c.toInt :=
  int32_of_mem c.le_toInt c.toInt_lt

/-- What an update leaves of a count. -/
theorem int32_sub (c u : Int32) : int32 (c.toInt + -u.toInt) = (c - u).toInt := by
  rw [Int32.toInt_sub, int32]
  rfl

/-! ### Without threads -/

section St

variable {t : Tid} {S : Sid} {q : Int32 × ℤ} {m : Mem}

/-- The sync is polled, with this count and status. -/
structure LoopingSt (S : Sid) (q : Int32 × ℤ) (m : Mem) : Prop where
  count : (m.sync S).count = q.1.toInt
  status : (m.sync S).status = q.2
  ints : m.Ints

theorem lineSt_wait {pc : WaitStPc} {f : FrameSt} {m' : Mem} (hpc : pc ≠ .l71)
    (h : syncWaitSt S m pc = some (f, m')) (hm : m'.Ints) :
    intWaitSyncSt.Line t .run ThreadSt.asks (⟨.wait S pc, .idle⟩, m) (⟨f, .idle⟩, m') := by
  refine ⟨?_, .tau, stored_exec.mpr ⟨m', ?_, hm.ints_eq.symm⟩⟩
  · rintro ⟨_, hf⟩
    cases hf
    exact hpc rfl
  · simp [waitSyncSt, execSt, runLineSt, h]

theorem lineSt_update {u : Update} {pc : UpdateStPc} {o : Option UpdateStPc} {m' m₁ : Mem}
    (h : waitSyncUpdateSt S u.updates.toInt u.status m pc = (o, m')) (hm : m₁ = m'.ints) :
    intWaitSyncSt.Line t .run ThreadSt.asks
      (⟨.wait S .l71, .update S u.updates.toInt u.status pc⟩, m)
      (⟨.wait S .l71, o.elim .idle (.update S u.updates.toInt u.status)⟩, m₁) := by
  refine ⟨?_, .tau, stored_exec.mpr ⟨m', ?_, hm⟩⟩
  · rintro ⟨_, hf⟩
    cases hf
  · simp [waitSyncSt, execSt, runLineSt, h]

/-- An update, from its call to its return. -/
theorem soloSt_update (u : Update) (hl : LoopingSt S q m) : ∃ m', LoopingSt S (u.apply q) m' ∧
    ∀ {us : List Act} {bs : List (List Act)} {y : ThreadSt × Mem},
      intWaitSyncSt.Solo t .run ThreadSt.asks (⟨.wait S .l71, .idle⟩, m') (us :: bs) y →
      intWaitSyncSt.Solo t .run ThreadSt.asks (⟨.wait S .l71, .idle⟩, m)
        ((u.act S :: us) :: bs) y := by
  suffices ∃ m', LoopingSt S (u.apply q) m' ∧ intWaitSyncSt.Lines t .run ThreadSt.asks
      (⟨.wait S .l71, .update S u.updates.toInt u.status .l110⟩, m)
      (⟨.wait S .l71, .idle⟩, m') by
    obtain ⟨m', hl', hlines⟩ := this
    refine ⟨m', hl', fun hs => ?_⟩
    exact .call (y := (⟨.wait S .l71, .update S u.updates.toInt u.status .l110⟩, m)) ⟨S, rfl⟩
      (stored_exec.mpr ⟨m, rfl, hl.ints.ints_eq.symm⟩) (hlines.solo hs)
  by_cases hu : SUCCESS = u.status
  · have htest : waitSyncUpdateSt S u.updates.toInt u.status m .l110 = (some .l111, m) := by
      simp [waitSyncUpdateSt, hu]
    refine ⟨(m.setCount S ((m.sync S).count + -u.updates.toInt)).ints, ⟨?_, ?_, Mem.ints_isInts _⟩,
      .head (lineSt_update htest hl.ints.ints_eq.symm) (.head (lineSt_update rfl rfl) .refl)⟩
    · simp [Update.apply, hu, Mem.setCount, hl.count, int32_sub]
    · simp [Update.apply, hu, Mem.setCount, hl.status]
  · have htest : waitSyncUpdateSt S u.updates.toInt u.status m .l110 = (some .l116, m) := by
      simp [waitSyncUpdateSt, hu]
    refine ⟨((m.setStatus S u.status).ints.setCount S 0).ints, ⟨?_, ?_, Mem.ints_isInts _⟩,
      .head (lineSt_update htest hl.ints.ints_eq.symm) (.head (lineSt_update rfl rfl)
        (.head (lineSt_update rfl rfl) .refl))⟩
    · simp [Update.apply, hu, Mem.setCount, Mem.setStatus]
    · simp [Update.apply, hu, Mem.setCount, Mem.setStatus]

/-- The batch of one call of `progress()`. -/
theorem soloSt_batch (us : List Update) (hl : LoopingSt S q m) :
    ∃ m', LoopingSt S (us.foldl Update.apply q) m' ∧
      ∀ {bs : List (List Act)} {y : ThreadSt × Mem},
        intWaitSyncSt.Solo t .run ThreadSt.asks (⟨.wait S .l70, .idle⟩, m') bs y →
        intWaitSyncSt.Solo t .run ThreadSt.asks (⟨.wait S .l71, .idle⟩, m)
          (us.map (Update.act S) :: bs) y := by
  induction us generalizing q m with
  | nil =>
    refine ⟨m, hl, fun hs => ?_⟩
    exact .done (y := (⟨.wait S .l70, .idle⟩, m)) ⟨S, rfl⟩
      (stored_exec.mpr ⟨m, rfl, hl.ints.ints_eq.symm⟩) hs
  | cons u us ih =>
    obtain ⟨m₁, hl₁, hu⟩ := soloSt_update (t := t) u hl
    obtain ⟨m', hl', hus⟩ := ih hl₁
    exact ⟨m', hl', fun hs => hu (hus hs)⟩

/-- **The loop ends with the last batch.** -/
theorem soloSt_loop (bs : List (List Update)) (hl : LoopingSt S q m) (h : Completes q bs) :
    ∃ m', m'.waitSyncList = none ∧
      intWaitSyncSt.Solo t .run ThreadSt.asks (⟨.wait S .l70, .idle⟩, m)
        (bs.map (List.map (Update.act S))) (⟨.back S (outcome q bs).2, .idle⟩, m') := by
  induction bs generalizing q m with
  | nil =>
    have hc : ¬ 0 < (m.sync S).count := by
      have hle : q.1.toInt ≤ 0 := Int32.le_iff_toInt_le.mp h
      rw [hl.count]
      omega
    have hv : ((m.setList none).sync S).status = (outcome q []).2 := hl.status
    have hi : (m.setList none).Ints := hl.ints
    refine ⟨m.setList none, rfl, ?_⟩
    have htest : syncWaitSt S m .l70 = some (.wait S .l73, m) := by simp [syncWaitSt, hc]
    refine .line (lineSt_wait (by simp) htest hl.ints) (.line (lineSt_wait (by simp) rfl hi) ?_)
    exact .line (lineSt_wait (by simp) (by rw [syncWaitSt, hv]) hi) (.nil _)
  | cons us bs ih =>
    obtain ⟨hpos, hbs⟩ : 0 < q.1 ∧ Completes (us.foldl Update.apply q) bs := h
    obtain ⟨m₁, hl₁, hus⟩ := soloSt_batch (t := t) us hl
    obtain ⟨m', hlist, hs⟩ := ih hl₁ hbs
    have hc : 0 < (m.sync S).count := hl.count ▸ Int32.lt_iff_toInt_lt.mp hpos
    have htest : syncWaitSt S m .l70 = some (.wait S .l71, m) := by simp [syncWaitSt, hc]
    rw [outcome_cons]
    exact ⟨m', hlist, .line (lineSt_wait (by simp) htest hl.ints) (hus hs)⟩

/-- **`sync_wait_st` returns the status of the last error update.** -/
theorem syncWait_st {c : Int32} {bs : List (List Update)} {max ERROR : ℤ}
    (hlist : m.waitSyncList = none) (h : Completes (c, SUCCESS) bs) :
    ∃ m', m'.waitSyncList = none ∧
      SyncWait max ERROR false t S c bs m (lastError bs.flatten) m' := by
  generalize hm₁ : (m.waitSyncInit S t c.toInt).ints = m₁
  have hi : m₁.Ints := hm₁ ▸ Mem.ints_isInts _
  have hl : LoopingSt S (c, SUCCESS) (m₁.setList (some S)) := by
    refine ⟨?_, ?_, hi⟩ <;> simp [← hm₁, Mem.setList, Mem.waitSyncInit, SUCCESS]
  obtain ⟨m', hnone, hs⟩ := soloSt_loop (t := t) bs hl h
  have h₁ : syncWaitSt S m₁ .l66 = some (.wait S .l67, m₁) := if_pos (hm₁ ▸ hlist)
  have h₂ : syncWaitSt S m₁ .l67 = some (.wait S .l68, m₁) := by
    simp [syncWaitSt, ← hm₁, Mem.waitSyncInit]
  refine ⟨m', hnone, ?_⟩
  rw [← foldl_apply_status c, SyncWait, if_neg (by simp), hm₁]
  exact .line (lineSt_wait (by simp) h₁ hi) (.line (lineSt_wait (by simp) h₂ hi)
    (.line (lineSt_wait (by simp) rfl hl.ints) hs))

end St

/-! ### With threads -/

section Mt

variable {max : ℤ} {t : Tid} {S : Sid} {q : Int32 × ℤ} {m : Mem}

/-- The sync is polled, with this count and status, and alone on the list. -/
@[mk_iff] structure Looping (S : Sid) (q : Int32 × ℤ) (m : Mem) : Prop where
  count : (m.sync S).count = q.1.toInt
  status : (m.sync S).status = q.2
  lock : (m.sync S).lock = none
  listLock : m.waitSyncLock = none
  list : m.waitSyncList = some S
  next : (m.sync S).next = some S
  prev : (m.sync S).prev = some S
  owner : (m.sync S).owner ≠ none
  ints : m.Ints

theorem line_wait {pc : WaitPc} {f : Frame} {m' : Mem} {e : Event} (hpc : pc ≠ .l103)
    (h : ompiSyncWaitMt max t S m pc = some (f, m', e)) :
    (waitSync max).Line t .run Thread.asks (⟨.wait S pc, .idle⟩, m) (⟨f, .idle⟩, m') := by
  refine ⟨?_, e, ?_⟩
  · rintro ⟨_, hf⟩
    cases hf
    exact hpc rfl
  · simp [waitSync, exec, runLine, h]

/-- **The lines of the wait lose nothing of a count.** -/
theorem lines_ints {x y : Thread × Mem} (h : (waitSync max).Lines t .run Thread.asks x y)
    (hx : x.1.call = .idle) (hm : x.2.Ints) :
    (intWaitSync max).Lines t .run Thread.asks x y ∧ y.1.call = .idle ∧ y.2.Ints := by
  refine h.of_kept (P := fun x => x.1.call = .idle ∧ x.2.Ints) ⟨hx, hm⟩ ?_
  rintro ⟨⟨f, c⟩, m⟩ ⟨th', m'⟩ ⟨rfl, hm⟩ ⟨-, e, hexec⟩
  suffices th'.call = .idle ∧ m'.Ints from ⟨this, this.2.ints_eq⟩
  cases f with
  | out | ready | back => cases hexec
  | release S pc =>
    obtain ⟨rfl, rfl, -⟩ := hexec
    refine ⟨rfl, hm.of_count fun X => ?_⟩
    cases pc <;> rfl
  | wait S pc =>
    obtain ⟨⟨f, m₁, e₁⟩, hline, hr⟩ := Option.map_eq_some_iff.mp hexec
    obtain ⟨rfl, rfl, rfl⟩ := hr
    exact ⟨rfl, hm.of_count (ompiSyncWaitMt_quiet hline).count⟩

theorem line_update {u : Update} {pc : UpdatePc} {o : Option UpdatePc} {m' m₁ : Mem} {e : Event}
    (h : waitSyncUpdate t S u.updates.toInt u.status m pc = some (o, m', e)) (hm : m₁ = m'.ints) :
    (intWaitSync max).Line t .run Thread.asks
      (⟨.wait S .l103, .update S u.updates.toInt u.status pc⟩, m)
      (⟨.wait S .l103, o.elim .idle (.update S u.updates.toInt u.status)⟩, m₁) := by
  refine ⟨?_, e, stored_exec.mpr ⟨m', ?_, hm⟩⟩
  · rintro ⟨_, hf⟩
    cases hf
  · simp [waitSync, exec, runLine, h]

/-- `WAIT_SYNC_SIGNAL`, to the return of the update. -/
theorem lines_signal (u : Update) (hl : Looping S q m) : ∃ m', Looping S q m' ∧
    (intWaitSync max).Lines t .run Thread.asks
      (⟨.wait S .l103, .update S u.updates.toInt u.status .l52⟩, m)
      (⟨.wait S .l103, .idle⟩, m') := by
  have hlock : waitSyncUpdate t S u.updates.toInt u.status m .l52 =
      some (some .l53, m.lock S t, .sigLock S) := if_pos hl.lock
  refine ⟨((((m.lock S t).ints.signal S).ints.unlock S).ints.clearSignaling S).ints, ?_, ?_⟩
  · simp [looping_iff, Mem.lock, Mem.signal, Mem.unlock, Mem.clearSignaling, hl.count, hl.status,
      hl.listLock, hl.list, hl.next, hl.prev, hl.owner, Mem.ints_isInts]
  · exact .head (line_update hlock rfl) (.head (line_update rfl rfl) (.head (line_update rfl rfl)
      (.head (line_update rfl rfl) .refl)))

/-- An update, from its call to its return. -/
theorem solo_update (u : Update) (hl : Looping S q m) : ∃ m', Looping S (u.apply q) m' ∧
    ∀ {us : List Act} {bs : List (List Act)} {y : Thread × Mem},
      (intWaitSync max).Solo t .run Thread.asks (⟨.wait S .l103, .idle⟩, m') (us :: bs) y →
      (intWaitSync max).Solo t .run Thread.asks (⟨.wait S .l103, .idle⟩, m)
        ((u.act S :: us) :: bs) y := by
  suffices ∃ m', Looping S (u.apply q) m' ∧ (intWaitSync max).Lines t .run Thread.asks
      (⟨.wait S .l103, .update S u.updates.toInt u.status .l110⟩, m)
      (⟨.wait S .l103, .idle⟩, m') by
    obtain ⟨m', hl', hlines⟩ := this
    refine ⟨m', hl', fun hs => ?_⟩
    have hcall : exec max t (u.act S) ⟨.wait S .l103, .idle⟩ m =
        some (⟨.wait S .l103, .update S u.updates.toInt u.status .l110⟩, m, .tau) := by
      simp [exec, Update.act, Frame.mayCall, hl.owner]
    exact .call (y := (Thread.mk (.wait S .l103) (.update S u.updates.toInt u.status .l110), m))
      ⟨S, rfl⟩ (stored_exec.mpr ⟨m, hcall, hl.ints.ints_eq.symm⟩) (hlines.solo hs)
  by_cases hu : SUCCESS = u.status
  · generalize hnow : (m.sync S).count + -u.updates.toInt = now
    have hl' : Looping S (u.apply q) (m.setCount S now).ints := by
      simp [looping_iff, Update.apply, hu, Mem.setCount, ← hnow, hl.count, hl.status, hl.lock,
        hl.listLock, hl.list, hl.next, hl.prev, hl.owner, int32_sub, Mem.ints_isInts]
    have htest : waitSyncUpdate t S u.updates.toInt u.status m .l110 =
        some (some .l111, m, .tau) := by
      simp [waitSyncUpdate, hu]
    have hadd : waitSyncUpdate t S u.updates.toInt u.status m .l111 =
        some (if now ≠ 0 then none else some .l52, m.setCount S now,
          .applied S u.updates.toInt now) := by
      simp only [waitSyncUpdate, hnow]
    by_cases hz : now ≠ 0
    · rw [if_pos hz] at hadd
      exact ⟨_, hl', .head (line_update htest hl.ints.ints_eq.symm)
        (.head (line_update hadd rfl) .refl)⟩
    · rw [if_neg hz] at hadd
      obtain ⟨m', hl'', hlines⟩ := lines_signal (t := t) u hl'
      exact ⟨m', hl'', .head (line_update htest hl.ints.ints_eq.symm)
        (.head (line_update hadd rfl) hlines)⟩
  · have hl' : Looping S (u.apply q) ((m.setStatus S u.status).ints.setCount S 0).ints := by
      simp [looping_iff, Update.apply, hu, Mem.setCount, Mem.setStatus, hl.lock, hl.listLock,
        hl.list, hl.next, hl.prev, hl.owner, Mem.ints_isInts]
    have htest : waitSyncUpdate t S u.updates.toInt u.status m .l110 =
        some (some .l116, m, .tau) := by
      simp [waitSyncUpdate, hu]
    obtain ⟨m', hl'', hlines⟩ := lines_signal (t := t) u hl'
    exact ⟨m', hl'', .head (line_update htest hl.ints.ints_eq.symm) (.head (line_update rfl rfl)
      (.head (line_update rfl rfl) hlines))⟩

/-- The batch of one call of `progress()`. -/
theorem solo_batch (us : List Update) (hl : Looping S q m) :
    ∃ m', Looping S (us.foldl Update.apply q) m' ∧
      ∀ {bs : List (List Act)} {y : Thread × Mem},
        (intWaitSync max).Solo t .run Thread.asks (⟨.wait S .l101, .idle⟩, m') bs y →
        (intWaitSync max).Solo t .run Thread.asks (⟨.wait S .l103, .idle⟩, m)
          (us.map (Update.act S) :: bs) y := by
  induction us generalizing q m with
  | nil =>
    refine ⟨m, hl, fun hs => ?_⟩
    exact .done (y := (⟨.wait S .l101, .idle⟩, m)) ⟨S, rfl⟩
      (stored_exec.mpr ⟨m, rfl, hl.ints.ints_eq.symm⟩) hs
  | cons u us ih =>
    obtain ⟨m₁, hl₁, hu⟩ := solo_update (t := t) u hl
    obtain ⟨m', hl', hus⟩ := ih hl₁
    exact ⟨m', hl', fun hs => hu (hus hs)⟩

/-- The way into the loop: the sync is registered, and the first of the list. -/
theorem lines_enter {c : Int32} (hlist : m.waitSyncList = none) (hlock : m.waitSyncLock = none)
    (hc : 0 < c) : ∃ m', Looping S (c, SUCCESS) m' ∧
    (intWaitSync max).Lines t .run Thread.asks
      (⟨.wait S .l47, .idle⟩, (m.waitSyncInit S t c.toInt).ints) (⟨.wait S .l101, .idle⟩, m') := by
  have hc : 0 < c.toInt := Int32.lt_iff_toInt_lt.mp hc
  generalize hm₀ : (m.waitSyncInit S t c.toInt).ints = m₀
  have h47 : ompiSyncWaitMt max t S m₀ .l47 = some (.wait S .l52, m₀, .tau) := by
    simp [ompiSyncWaitMt, ← hm₀, Mem.waitSyncInit, hc]
  have h52 : ompiSyncWaitMt max t S m₀ .l52 = some (.wait S .l57, m₀.lock S t, .tau) := by
    simp [ompiSyncWaitMt, ← hm₀, Mem.waitSyncInit]
  generalize hm₁ : m₀.lock S t = m₁ at h52
  have h57 : ompiSyncWaitMt max t S m₁ .l57 = some (.wait S .l63, m₁, .tau) := by
    simp [ompiSyncWaitMt, ← hm₁, ← hm₀, Mem.lock, Mem.waitSyncInit, hc]
  have h63 : ompiSyncWaitMt max t S m₁ .l63 = some (.wait S .l64, m₁.lockList t, .tau) := by
    simp [ompiSyncWaitMt, ← hm₁, ← hm₀, Mem.lock, Mem.waitSyncInit, hlock]
  have h64 : ompiSyncWaitMt max t S (m₁.lockList t) .l64 =
      some (.wait S .l65, m₁.lockList t, .tau) := by
    simp [ompiSyncWaitMt, ← hm₁, ← hm₀, Mem.lock, Mem.lockList, Mem.waitSyncInit, hlist]
  -- the sync is its own neighbour and the head
  generalize hm₂ : ((m₁.lockList t).setPrev S (some S)).setNext S
    (((m₁.lockList t).setPrev S (some S)).sync S).prev = m₂
  have h65n : ompiSyncWaitMt max t S ((m₁.lockList t).setPrev S (some S)) .l65n =
      some (.wait S .l66, m₂, .tau) := by simp only [ompiSyncWaitMt, hm₂]
  generalize hm₃ : (m₂.setList (some S)).unlockList = m₃
  have h73 : ompiSyncWaitMt max t S (m₂.setList (some S)) .l73 =
      some (.wait S .l82, m₃, .tau) := by simp only [ompiSyncWaitMt, hm₃]
  have h82 : ompiSyncWaitMt max t S m₃ .l82 = some (.wait S .l98, m₃, .tau) := by
    simp [ompiSyncWaitMt, ← hm₃, Mem.unlockList, Mem.setList]
  have hlines : (waitSync max).Lines t .run Thread.asks (⟨.wait S .l47, .idle⟩, m₀)
      (⟨.wait S .l101, .idle⟩, (m₃.unlock S).addInProgress 1) :=
    .head (line_wait (by simp) h47) <| .head (line_wait (by simp) h52) <|
      .head (line_wait (by simp) h57) <| .head (line_wait (by simp) h63) <|
      .head (line_wait (by simp) h64) <| .head (line_wait (by simp) rfl) <|
      .head (line_wait (by simp) h65n) <| .head (line_wait (by simp) rfl) <|
      .head (line_wait (by simp) h73) <| .head (line_wait (by simp) h82) <|
      .head (line_wait (by simp) rfl) <| .head (line_wait (by simp) rfl) .refl
  obtain ⟨hlines, -, hi⟩ := lines_ints hlines rfl (hm₀ ▸ Mem.ints_isInts _)
  refine ⟨_, ?_, hlines⟩
  simp only [looping_iff, hi, and_true]
  simp [← hm₃, ← hm₂, ← hm₁, ← hm₀, Mem.addInProgress, Mem.unlock, Mem.unlockList, Mem.setList,
    Mem.setNext, Mem.setPrev, Mem.lockList, Mem.lock, Mem.waitSyncInit, SUCCESS]

/-- The way out of the loop: the list is empty again. -/
theorem lines_leave (hl : Looping S q m) : ∃ m', m'.waitSyncList = none ∧
    (intWaitSync max).Lines t .run Thread.asks (⟨.wait S .l105, .idle⟩, m)
      (⟨.back S (if 0 = q.2 then .SUCCESS else .ERROR), .idle⟩, m') := by
  generalize hm₁ : (m.addInProgress (-1)).lockList t = m₁
  have h109 : ompiSyncWaitMt max t S (m.addInProgress (-1)) .l109 =
      some (.wait S .l110, m₁, .tau) := by
    simp [ompiSyncWaitMt, ← hm₁, Mem.addInProgress, hl.listLock]
  have h110 : ompiSyncWaitMt max t S m₁ .l110 =
      some (.wait S .l111, m₁.setNext S (some S), .tau) := by
    simp [ompiSyncWaitMt, ← hm₁, Mem.addInProgress, Mem.lockList, hl.prev, hl.next]
  have h111 : ompiSyncWaitMt max t S (m₁.setNext S (some S)) .l111 =
      some (.wait S .l113, (m₁.setNext S (some S)).setPrev S (some S), .removed S) := by
    simp [ompiSyncWaitMt, ← hm₁, Mem.setNext, Mem.addInProgress, Mem.lockList, hl.prev]
  generalize hm₂ : (m₁.setNext S (some S)).setPrev S (some S) = m₂ at h111
  have h113 : ompiSyncWaitMt max t S m₂ .l113 = some (.wait S .l114, m₂, .tau) := by
    simp [ompiSyncWaitMt, ← hm₂, ← hm₁, Mem.setPrev, Mem.setNext, Mem.addInProgress, Mem.lockList,
      hl.list]
  have h114 : ompiSyncWaitMt max t S m₂ .l114 =
      some (.wait S .l115, m₂.setList none, .tau) := by
    simp [ompiSyncWaitMt, ← hm₂, Mem.setPrev, Mem.setNext]
  have h115 : ompiSyncWaitMt max t S (m₂.setList none) .l115 =
      some (.wait S .l119, m₂.setList none, .tau) := by
    simp [ompiSyncWaitMt, Mem.setList]
  have h121 : ompiSyncWaitMt max t S (m₂.setList none).unlockList .l121 =
      some (.back S (if 0 = q.2 then .SUCCESS else .ERROR), (m₂.setList none).unlockList,
        .returned S (if 0 = q.2 then .SUCCESS else .ERROR)) := by
    simp [ompiSyncWaitMt, Mem.result, ← hm₂, ← hm₁, Mem.unlockList, Mem.setList, Mem.setPrev,
      Mem.setNext, Mem.addInProgress, Mem.lockList, hl.status]
  refine ⟨(m₂.setList none).unlockList, rfl, (lines_ints ?_ rfl hl.ints).1⟩
  exact .head (line_wait (by simp) rfl) <| .head (line_wait (by simp) h109) <|
    .head (line_wait (by simp) h110) <| .head (line_wait (by simp) h111) <|
    .head (line_wait (by simp) h113) <| .head (line_wait (by simp) h114) <|
    .head (line_wait (by simp) h115) <| .head (line_wait (by simp) rfl) <|
    .head (line_wait (by simp) h121) .refl

/-- **The loop ends with the last batch.** -/
theorem solo_loop (bs : List (List Update)) (hl : Looping S q m) (h : Completes q bs) :
    ∃ m', m'.waitSyncList = none ∧
      (intWaitSync max).Solo t .run Thread.asks (⟨.wait S .l101, .idle⟩, m)
        (bs.map (List.map (Update.act S)))
        (⟨.back S (if 0 = (outcome q bs).2 then .SUCCESS else .ERROR), .idle⟩, m') := by
  induction bs generalizing q m with
  | nil =>
    have hc : ¬ 0 < (m.sync S).count := by
      have hle : q.1.toInt ≤ 0 := Int32.le_iff_toInt_le.mp h
      rw [hl.count]
      omega
    have htest : ompiSyncWaitMt max t S m .l101 = some (.wait S .l105, m, .tau) := by
      simp only [ompiSyncWaitMt, if_neg hc]
    obtain ⟨m', hnone, hlines⟩ := lines_leave (t := t) hl
    have hleaves := lines_ints (.single (line_wait (by simp) htest)) rfl hl.ints
    exact ⟨m', hnone, hleaves.1.solo (hlines.solo (.nil _))⟩
  | cons us bs ih =>
    obtain ⟨hpos, hbs⟩ : 0 < q.1 ∧ Completes (us.foldl Update.apply q) bs := h
    obtain ⟨m₁, hl₁, hus⟩ := solo_batch (t := t) us hl
    obtain ⟨m', hnone, hs⟩ := ih hl₁ hbs
    have hc : 0 < (m.sync S).count := hl.count ▸ Int32.lt_iff_toInt_lt.mp hpos
    have htest : ompiSyncWaitMt max t S m .l101 = some (.wait S .l103, m, .tau) := by
      simp only [ompiSyncWaitMt, if_pos hc]
    have hpolls := lines_ints (.single (line_wait (by simp) htest)) rfl hl.ints
    rw [outcome_cons]
    exact ⟨m', hnone, hpolls.1.solo (hus hs)⟩

/-- **`ompi_sync_wait_mt` returns whether there was an error update.** -/
theorem syncWait_mt {c : Int32} {ERROR : ℤ} {bs : List (List Update)}
    (hlist : m.waitSyncList = none) (hlock : m.waitSyncLock = none)
    (h : Completes (c, SUCCESS) bs) :
    ∃ m', m'.waitSyncList = none ∧ SyncWait max ERROR true t S c bs m
      (if lastError bs.flatten = SUCCESS then SUCCESS else ERROR) m' := by
  suffices ∃ m', m'.waitSyncList = none ∧ (intWaitSync max).Solo t .run Thread.asks
      (⟨.wait S .l47, .idle⟩, (m.waitSyncInit S t c.toInt).ints)
      (bs.map (List.map (Update.act S)))
      (⟨.back S (if 0 = (outcome (c, SUCCESS) bs).2 then .SUCCESS else .ERROR), .idle⟩, m') by
    obtain ⟨m', hnone, hs⟩ := this
    refine ⟨m', hnone, _, ?_, hs⟩
    rw [outcome, foldl_apply_status]
    by_cases he : lastError bs.flatten = SUCCESS
    · rw [if_pos he, if_pos (show 0 = lastError bs.flatten from he.symm)]
      rfl
    · rw [if_neg he, if_neg (show ¬ 0 = lastError bs.flatten from Ne.symm he)]
      rfl
  cases bs with
  | nil =>
    have hc : c.toInt ≤ 0 := Int32.le_iff_toInt_le.mp h
    generalize hm₀ : (m.waitSyncInit S t c.toInt).ints = m₀
    have h47 : ompiSyncWaitMt max t S m₀ .l47 = some (.wait S .l48, m₀, .tau) := by
      simp [ompiSyncWaitMt, ← hm₀, Mem.waitSyncInit, hc]
    have h48 : ompiSyncWaitMt max t S m₀ .l48 =
        some (.back S .SUCCESS, m₀, .returned S .SUCCESS) := by
      simp [ompiSyncWaitMt, Mem.result, ← hm₀, Mem.waitSyncInit]
    have hlines := lines_ints (.head (line_wait (by simp) h47)
      (.single (line_wait (by simp) h48))) rfl (hm₀ ▸ Mem.ints_isInts _)
    exact ⟨m₀, hm₀ ▸ hlist, hlines.1.solo (.nil _)⟩
  | cons us bs =>
    obtain ⟨m₁, hl, hlines⟩ := lines_enter (t := t) (S := S) hlist hlock h.1
    obtain ⟨m', hnone, hs⟩ := solo_loop (t := t) (us :: bs) hl h
    exact ⟨m', hnone, hlines.solo hs⟩

end Mt

/-- **The wait of a thread alone is a run of the module**, from its `WAIT_SYNC_INIT` on. -/
theorem SyncWait.path {max ERROR : ℤ} {t : Tid} {S : Sid} {c : Int32} {v : ℤ}
    {bs : List (List Update)} {s : St} {m' : Mem}
    (h : SyncWait max ERROR true t S c bs s.mem v m') (hl : s.loc t = ⟨.out, .idle⟩)
    (ho : (s.mem.sync S).owner = none) :
    ∃ rc π, v = Rc.value ERROR rc ∧
      (intWaitSync max).Path s π (s.move t ⟨.back S rc, .idle⟩ m') ∧ ∀ x ∈ π, x.tid = t := by
  obtain ⟨rc, hv, hs⟩ := h
  generalize hm₁ : (s.mem.waitSyncInit S t c.toInt).ints = m₁ at hs
  have hinit : (intWaitSync max).exec t (.init S c.toInt) (s.loc t) s.mem =
      some (⟨.ready S, .idle⟩, m₁, .inited S c.toInt) :=
    stored_exec.mpr ⟨s.mem.waitSyncInit S t c.toInt, by simp [waitSync, exec, hl, ho], hm₁.symm⟩
  generalize hs₁ : s.move t ⟨.ready S, .idle⟩ m₁ = s₁
  have hwait : (intWaitSync max).exec t .wait (s₁.loc t) s₁.mem =
      some (⟨.wait S .l47, .idle⟩, s₁.mem, .tau) := by
    have hi : m₁.Ints := hm₁ ▸ Mem.ints_isInts _
    exact stored_exec.mpr ⟨s₁.mem, by simp [waitSync, exec, ← hs₁], by simp [← hs₁, hi.ints_eq]⟩
  obtain ⟨π, hπ, ht⟩ := hs.path (s := s₁.move t ⟨.wait S .l47, .idle⟩ s₁.mem) (by simp)
    (by simp [← hs₁])
  have hend : (s₁.move t ⟨.wait S .l47, .idle⟩ s₁.mem).move t ⟨.back S rc, .idle⟩ m' =
      s.move t ⟨.back S rc, .idle⟩ m' := by
    simp [State.move, ← hs₁]
  have h₀ := path_of_exec hinit
  rw [hs₁] at h₀
  rw [hend] at hπ
  refine ⟨rc, _, hv, (h₀.append (path_of_exec hwait)).append hπ, fun x hx => ?_⟩
  rcases List.mem_append.mp hx with hx | hx
  · exact ht x hx
  · rcases List.mem_append.mp hx with hx | hx <;> exact List.mem_singleton.mp hx ▸ rfl

/-! ### One result -/

section Agree

variable {max ERROR : ℤ} {t : Tid} {S : Sid} {c : Int32} {v : ℤ} {m m' : Mem}
  {bs : List (List Update)}

/-- **The wait returns one value**, and leaves one memory. -/
theorem SyncWait.unique {usingThreads : Bool} {v' : ℤ} {m'' : Mem}
    (h : SyncWait max ERROR usingThreads t S c bs m v m')
    (h' : SyncWait max ERROR usingThreads t S c bs m v' m'') : v = v' ∧ m' = m'' := by
  cases usingThreads with
  | false =>
    cases Solo.unique h h' rfl rfl
    exact ⟨rfl, rfl⟩
  | true =>
    obtain ⟨rc, rfl, h⟩ := h
    obtain ⟨rc', rfl, h'⟩ := h'
    cases Solo.unique h h' rfl rfl
    exact ⟨rfl, rfl⟩

theorem SyncWait.returns {usingThreads : Bool} (hlist : m'.waitSyncList = none)
    (h : SyncWait max ERROR usingThreads t S c bs m v m') :
    Returns max ERROR usingThreads t S c bs m v := by
  refine ⟨⟨m', h⟩, fun v' m'' h' => ?_⟩
  obtain ⟨rfl, rfl⟩ := h.unique h'
  exact ⟨rfl, hlist⟩

/-- **Both waits return the status of the last error update**, `SUCCESS` if there was none, exactly
if there was none or its status is the constant `ERROR`.  They end, and leave the list empty,
whatever the updates. -/
theorem sync_wait_agrees_iff (hlist : m.waitSyncList = none) (hlock : m.waitSyncLock = none)
    (h : Completes (c, SUCCESS) bs) :
    (∀ usingThreads, Returns max ERROR usingThreads t S c bs m (lastError bs.flatten)) ↔
      lastError bs.flatten = SUCCESS ∨ lastError bs.flatten = ERROR := by
  obtain ⟨m₁, hm₁, h₁⟩ : ∃ m', m'.waitSyncList = none ∧ SyncWait max ERROR false t S c bs m _ m' :=
    syncWait_st hlist h
  obtain ⟨m₂, hm₂, h₂⟩ : ∃ m', m'.waitSyncList = none ∧ SyncWait max ERROR true t S c bs m _ m' :=
    syncWait_mt hlist hlock h
  constructor
  · intro hall
    obtain ⟨⟨m', hm'⟩, -⟩ := hall true
    have hv := (hm'.unique h₂).1
    split at hv
    · exact .inl hv
    · exact .inr hv
  · intro hv usingThreads
    cases usingThreads with
    | false => exact h₁.returns hm₁
    | true =>
      have hval : (if lastError bs.flatten = SUCCESS then SUCCESS else ERROR) =
          lastError bs.flatten := by
        split
        · exact Eq.symm ‹_›
        · exact (hv.resolve_left ‹_›).symm
      exact (hval ▸ h₂).returns hm₂

end Agree

/-- Two updates that wrap the count of 1 to 3, and a third that completes it. -/
theorem sync_wait_agrees_wrapped :
    Returns 1 (-1) false 0 0 1 [[⟨2147483647, 0⟩, ⟨2147483647, 0⟩], [⟨3, 0⟩]] .init SUCCESS ∧
      Returns 1 (-1) true 0 0 1 [[⟨2147483647, 0⟩, ⟨2147483647, 0⟩], [⟨3, 0⟩]] .init SUCCESS := by
  have h : ∀ usingThreads,
      Returns 1 (-1) usingThreads 0 0 1 [[⟨2147483647, 0⟩, ⟨2147483647, 0⟩], [⟨3, 0⟩]] .init
        SUCCESS :=
    (sync_wait_agrees_iff rfl rfl (by decide)).mpr (.inl rfl)
  exact ⟨h false, h true⟩

/-- **Whatever `ERROR` is, an error update with another status is reported differently**: as that
status without threads, as `ERROR` with. -/
theorem not_sync_wait_agrees :
    ¬ ∃ ERROR : ℤ, ∀ (max : ℤ) (t : Tid) (S : Sid) (c : Int32) (bs : List (List Update))
      (m : Mem),
      m.waitSyncList = none → m.waitSyncLock = none → 0 ≤ c → Completes (c, SUCCESS) bs →
        ∀ usingThreads, Returns max ERROR usingThreads t S c bs m (lastError bs.flatten) := by
  rintro ⟨ERROR, hall⟩
  obtain ⟨st, hst, hne⟩ : ∃ st : ℤ, SUCCESS ≠ st ∧ st ≠ ERROR := by
    by_cases hE : ERROR = 7
    · exact ⟨8, by decide, by omega⟩
    · exact ⟨7, by decide, Ne.symm hE⟩
  have hlast : lastError [[(⟨0, st⟩ : Update)]].flatten = st := by
    simp [lastError, Ne.symm hst]
  have hcompletes : Completes (1, SUCCESS) [[⟨0, st⟩]] := by
    simp [Completes, Update.apply, hst]
  obtain ⟨⟨m', h'⟩, -⟩ := hall 0 0 0 1 _ .init rfl rfl (by decide) hcompletes true
  obtain ⟨m₂, -, h₂⟩ : ∃ m', m'.waitSyncList = none ∧
      SyncWait 0 ERROR true 0 0 1 [[⟨0, st⟩]] .init _ m' := syncWait_mt rfl rfl hcompletes
  have hv := (h'.unique h₂).1
  rw [hlast, if_neg (Ne.symm hst)] at hv
  exact hne hv

end Libult.WaitSync
