import Libult.Interleaving.Program
import Mathlib.Data.Int.Notation

/-!
# CreateJoin/Handle — what `t_handle` says about the threads behind a `thread_t`

`thread_start` has `pthread_create` write `t_handle`, whether it succeeds or not; `thread_join`
resets it, whether `pthread_join` succeeds or not.  Between the calls `t_handle` is all that a
`thread_t` knows of its thread.

    -1 ─start: rc = 0─▸ h ─join: rc = 0─▸ -1
    -1 ─start: rc ≠ 0─▸ anything               h ─join: rc ≠ 0─▸ -1, h still unjoined
-/

namespace Libult.CreateJoin

open Interleaving Program

/-- A thread that makes the calls. -/
abbrev Tid := ℕ

/-- A `thread_fn_t`. -/
abbrev Fn := ℕ

/-- A `void *`; `NULL` is `none`. -/
abbrev Ptr := Option ℕ

/-- A return code. -/
inductive Rc
  | SUCCESS
  | ERR_BAD_PARAM
  | ERR_IN_ERRNO
  deriving DecidableEq, Repr

/-- `thread_t`, over the type `H` of a `pthread_t`. -/
structure ThreadT (H : Type) where
  t_run : Option Fn
  t_handle : H
  deriving DecidableEq, Repr

/-- How a call of `pthread_create` ends: its return code, and what it leaves in `*thread`. -/
structure Created (H : Type) where
  rc : ℤ
  thread : H
  deriving DecidableEq, Repr

/-- How a call of `pthread_join` ends: its return code, and what it leaves in `*value_ptr`. -/
structure Joined where
  rc : ℤ
  value : Ptr
  deriving DecidableEq, Repr

/-! ## The functions -/

section Code

variable {H : Type} [IntCast H]

/-- `(pthread_t) -1`. -/
def noHandle : H := ((-1 : ℤ) : H)

def threadConstruct : ThreadT H := ⟨none, noHandle⟩

/-- The parameters `thread_start` refuses. -/
def ThreadT.bad (t : ThreadT H) : Prop := t.t_run = none ∨ t.t_handle ≠ noHandle

variable [DecidableEq H]

instance (t : ThreadT H) : Decidable t.bad :=
  inferInstanceAs (Decidable (t.t_run = none ∨ t.t_handle ≠ noHandle))

/-- `thread_start`; `pthread_create` gets `&t->t_handle`. -/
def threadStart (enableDebug : Bool) (t : ThreadT H) (created : Created H) : ThreadT H × Rc :=
  if enableDebug = true ∧ t.bad then (t, .ERR_BAD_PARAM)
  else
    ({ t with t_handle := created.thread }, if 0 = created.rc then .SUCCESS else .ERR_IN_ERRNO)

omit [DecidableEq H] in
/-- `thread_join`, with what it leaves in `*thr_return`. -/
def threadJoin (t : ThreadT H) (joined : Joined) : ThreadT H × Rc × Ptr :=
  ({ t with t_handle := noHandle }, if 0 = joined.rc then .SUCCESS else .ERR_IN_ERRNO,
    joined.value)

end Code

/-! ## The program -/

/-- The `thread_t`, and the threads behind it. -/
structure Mem (H : Type) where
  t : ThreadT H
  /-- The threads created through `t` that have not been joined. -/
  unjoined : List H
  deriving DecidableEq, Repr

/-- A call, and how the call of pthreads in it ends. -/
inductive Act (H : Type)
  | start (created : Created H)
  | join (joined : Joined)
  deriving DecidableEq, Repr

/-- What a call returns, and the handle it leaves. -/
inductive Event (H : Type)
  | returned (rc : Rc) (t_handle : H)
  deriving DecidableEq, Repr

section Program

variable {H : Type} [IntCast H] [DecidableEq H]

/-- One call.  A `pthread_create` that succeeds has made a thread; a `pthread_join` that succeeds
has joined the one it was given. -/
def exec (enableDebug : Bool) (_ : Tid) (a : Act H) (_ : Unit) (m : Mem H) :
    Option (Unit × Mem H × Event H) :=
  match a with
  | .start created =>
      let (t, rc) := threadStart enableDebug m.t created
      let unjoined := if (enableDebug = true ∧ m.t.bad) ∨ 0 ≠ created.rc then m.unjoined
        else created.thread :: m.unjoined
      some ((), ⟨t, unjoined⟩, .returned rc t.t_handle)
  | .join joined =>
      let (t, rc, _) := threadJoin m.t joined
      let unjoined := if 0 = joined.rc then m.unjoined.erase m.t.t_handle else m.unjoined
      some ((), ⟨t, unjoined⟩, .returned rc t.t_handle)

/-- **The calls on a `thread_t`**, one after the other, by whichever thread. -/
def calls (enableDebug : Bool) : Program Tid Unit (Mem H) (Act H) (Event H) := ⟨exec enableDebug⟩

/-- A state of it. -/
abbrev St (H : Type) := State Tid Unit (Mem H)

omit [DecidableEq H] in
/-- `thread_construct`, then `t_run` set. -/
def start (f : Fn) : St H :=
  ⟨fun _ => (), ⟨{ (threadConstruct : ThreadT H) with t_run := some f }, []⟩⟩

end Program

/-! ## What the handle is to say -/

section Handle

variable {H : Type} [IntCast H]

/-- A thread that has been created has a handle other than `(pthread_t) -1`. -/
def Named (_ : St H) (_ : Tid) : Act H → Prop
  | .start created => created.rc = 0 → created.thread ≠ noHandle
  | .join _ => True

/-- `thread_join` is called while a thread is outstanding. -/
def Outstanding (s : St H) (_ : Tid) : Act H → Prop
  | .start _ => True
  | .join _ => s.mem.unjoined ≠ []

/-- **The handle is the thread's**, and `(pthread_t) -1` if there is none. -/
structure Faithful (m : Mem H) : Prop where
  none_iff : m.t.t_handle = noHandle ↔ m.unjoined = []
  handle : m.unjoined ≠ [] → m.unjoined = [m.t.t_handle]

/-- **No thread is lost or invented** by the calls of a run. -/
structure NeverLost (π : List (Transition Tid Unit (Mem H) (Act H) (Event H))) (s : St H) :
    Prop where
  /-- After each call the handle is the outstanding thread's. -/
  faithful : Throughout (fun s => Faithful s.mem) π s
  /-- A call that fails leaves it as it was. -/
  unchanged : ∀ x ∈ π, ∀ rc h, x.ev = .returned rc h → rc ≠ .SUCCESS → h = x.pre.mem.t.t_handle
  /-- A start is refused only while a thread is outstanding, so a failed one can be retried. -/
  retried : ∀ x ∈ π, ∀ h, x.ev = .returned .ERR_BAD_PARAM h → x.pre.mem.unjoined ≠ []
  /-- Whatever is joined is the outstanding thread, so a failed join can be repeated. -/
  repeated : ∀ x ∈ π, ∀ joined, x.act = .join joined →
    x.pre.mem.unjoined = [x.pre.mem.t.t_handle]

/-- **The calls of pthreads do not fail**, but for a `pthread_create` that leaves `(pthread_t) -1`
in the handle it is given. -/
def Unfailing (s : St H) (_ : Tid) : Act H → Prop
  | .start created => s.mem.t.bad ∨ created.rc = 0 ∨ created.thread = noHandle
  | .join joined => joined.rc = 0

variable [DecidableEq H]

instance (s : St H) (t : Tid) (a : Act H) : Decidable (Named s t a) :=
  match a with
  | .start created => inferInstanceAs (Decidable (created.rc = 0 → created.thread ≠ noHandle))
  | .join _ => inferInstanceAs (Decidable True)

instance (s : St H) (t : Tid) (a : Act H) : Decidable (Outstanding s t a) :=
  match a with
  | .start _ => inferInstanceAs (Decidable True)
  | .join _ => inferInstanceAs (Decidable (s.mem.unjoined ≠ []))

instance (s : St H) (t : Tid) (a : Act H) : Decidable (Unfailing s t a) :=
  match a with
  | .start created =>
      inferInstanceAs (Decidable (s.mem.t.bad ∨ created.rc = 0 ∨ created.thread = noHandle))
  | .join joined => inferInstanceAs (Decidable (joined.rc = 0))

end Handle

section Step

variable {H : Type} [IntCast H] [DecidableEq H]

/-- **What a call does**, with the guard: the five ways it ends. -/
inductive Moves : Act H → Mem H → Mem H → Event H → Prop
  | refused {m : Mem H} {created : Created H} : m.t.bad →
      Moves (.start created) m m (.returned .ERR_BAD_PARAM m.t.t_handle)
  | created {m : Mem H} {created : Created H} : ¬ m.t.bad → created.rc = 0 →
      Moves (.start created) m ⟨{ m.t with t_handle := created.thread },
        created.thread :: m.unjoined⟩ (.returned .SUCCESS created.thread)
  | notCreated {m : Mem H} {created : Created H} : ¬ m.t.bad → created.rc ≠ 0 →
      Moves (.start created) m ⟨{ m.t with t_handle := created.thread }, m.unjoined⟩
        (.returned .ERR_IN_ERRNO created.thread)
  | joined {m : Mem H} {joined : Joined} : joined.rc = 0 →
      Moves (.join joined) m ⟨{ m.t with t_handle := noHandle }, m.unjoined.erase m.t.t_handle⟩
        (.returned .SUCCESS noHandle)
  | notJoined {m : Mem H} {joined : Joined} : joined.rc ≠ 0 →
      Moves (.join joined) m ⟨{ m.t with t_handle := noHandle }, m.unjoined⟩
        (.returned .ERR_IN_ERRNO noHandle)

variable {f : Fn} {s : St H} {t : Tid} {a : Act H} {m : Mem H} {e : Event H}
  {π : List (Transition Tid Unit (Mem H) (Act H) (Event H))}

theorem moves_of_exec {l : Unit} (h : (calls true).exec t a () s.mem = some (l, m, e)) :
    Moves a s.mem m e := by
  cases a with
  | start created =>
    simp only [calls, exec, threadStart, true_and, Option.some.injEq, Prod.mk.injEq] at h
    obtain ⟨rfl, rfl⟩ := h
    by_cases hbad : s.mem.t.bad
    · simp only [hbad, if_true, true_or]
      exact .refused hbad
    · by_cases hrc : created.rc = 0
      · simp only [hbad, hrc, if_true, if_false, false_or, ne_eq, not_true_eq_false]
        exact .created hbad hrc
      · simp only [hbad, Ne.symm hrc, if_true, if_false, false_or, ne_eq, not_false_eq_true]
        exact .notCreated hbad hrc
  | join joined =>
    simp only [calls, exec, threadJoin, true_and, Option.some.injEq, Prod.mk.injEq] at h
    obtain ⟨rfl, rfl⟩ := h
    by_cases hrc : joined.rc = 0
    · simp only [hrc, if_true]
      exact .joined hrc
    · simp only [Ne.symm hrc, if_false]
      exact .notJoined hrc

/-- No call touches `t_run`. -/
theorem run_of_moves (h : Moves a s.mem m e) : m.t.t_run = s.mem.t.t_run := by
  generalize s.mem = m₀ at h
  cases h <;> rfl

omit [DecidableEq H] in
/-- What the guard lets through has no thread behind it. -/
theorem handle_of_not_bad {t : ThreadT H} (h : ¬ t.bad) : t.t_handle = noHandle :=
  not_not.mp fun hne => h (.inr hne)

/-- **One call keeps the handle faithful** if what it calls does not fail. -/
theorem Faithful.step (hf : Faithful s.mem) (hN : Named s t a) (hU : Unfailing s t a)
    (hm : Moves a s.mem m e) : Faithful m := by
  unfold Unfailing at hU
  generalize s.mem = m₀ at hf hU hm
  cases hm with
  | refused => exact hf
  | created hbad hrc =>
    have hnone : m₀.unjoined = [] := hf.none_iff.mp (handle_of_not_bad hbad)
    exact ⟨iff_of_false (hN hrc) (by simp), fun _ => by rw [hnone]⟩
  | notCreated hbad hrc =>
    have hnone : m₀.unjoined = [] := hf.none_iff.mp (handle_of_not_bad hbad)
    have hleft := (hU.resolve_left hbad).resolve_left hrc
    exact ⟨iff_of_true hleft hnone, fun hne => absurd hnone hne⟩
  | joined =>
    have hempty : m₀.unjoined.erase m₀.t.t_handle = [] := by
      by_cases hne : m₀.unjoined = []
      · rw [hne, List.erase_nil]
      · rw [hf.handle hne, List.erase_cons_head]
    exact ⟨iff_of_true rfl hempty, fun hne => absurd hempty hne⟩
  | notJoined hrc => exact absurd hU hrc

/-- A call that fails leaves the handle, if what it calls does not fail. -/
theorem handle_of_error (hU : Unfailing s t a) (hm : Moves a s.mem m e) {rc : Rc} {h : H}
    (he : e = .returned rc h) (hrc : rc ≠ .SUCCESS) : h = s.mem.t.t_handle := by
  unfold Unfailing at hU
  generalize s.mem = m₀ at hU hm
  cases hm <;> cases he
  case refused => rfl
  case created | joined => exact absurd rfl hrc
  case notCreated hrc' hbad =>
    rw [(hU.resolve_left hbad).resolve_left hrc', handle_of_not_bad hbad]
  case notJoined hrc' => exact absurd hU hrc'

/-- **A failure shows at once**: where the handle was faithful, a call that leaves it alone on an
error has not seen one of pthreads. -/
theorem unfailing_of_unchanged (hf : Faithful s.mem) (hO : Outstanding s t a)
    (hm : Moves a s.mem m e)
    (hsame : ∀ rc h, e = .returned rc h → rc ≠ .SUCCESS → h = s.mem.t.t_handle) :
    Unfailing s t a := by
  unfold Unfailing
  unfold Outstanding at hO
  generalize s.mem = m₀ at hf hO hm hsame ⊢
  cases hm with
  | refused hbad => exact .inl hbad
  | created _ hrc => exact .inr (.inl hrc)
  | notCreated hbad => exact .inr (.inr ((hsame _ _ rfl (by simp)).trans (handle_of_not_bad hbad)))
  | joined hrc => exact hrc
  | notJoined =>
    -- the handle is `(pthread_t) -1` now, and was the thread's
    have hkept := hsame _ _ rfl (by simp)
    exact absurd (hf.none_iff.mp hkept.symm) hO

/-- Where `t_run` is set, a start is refused only while a thread is outstanding. -/
theorem outstanding_of_refused (hf : Faithful s.mem) (hr : s.mem.t.t_run ≠ none)
    (hm : Moves a s.mem m e) {h : H} (he : e = .returned .ERR_BAD_PARAM h) :
    s.mem.unjoined ≠ [] := by
  generalize s.mem = m₀ at hf hr hm ⊢
  cases hm <;> cases he
  case refused hbad => exact mt hf.none_iff.mpr (hbad.resolve_left hr)

omit [DecidableEq H] in
theorem start_faithful (f : Fn) : Faithful (start f : St H).mem :=
  ⟨iff_of_true rfl rfl, fun h => absurd rfl h⟩

theorem run_of_path (hp : (calls true).Path (start f) π s) : s.mem.t.t_run ≠ none := by
  have hrun : s.mem.t.t_run = some f := hp.invariant (fun _ s => s.mem.t.t_run = some f)
    (fun _ _ _ => True) (fun _ _ _ _ _ _ _ hi _ hx => (run_of_moves (moves_of_exec hx)).trans hi)
    (fun _ _ => trivial) rfl
  simp [hrun]

end Step

/-- **A `thread_t` never loses or invents a thread if and only if pthreads does not fail** — but for
a `pthread_create` that fails and leaves the handle alone. -/
theorem neverLost_iff {H : Type} [IntCast H] [DecidableEq H] {f : Fn} {s : St H}
    {π : List (Transition Tid Unit (Mem H) (Act H) (Event H))}
    (hp : (calls true).Path (start f) π s) (hN : Allowed Named π) (hO : Allowed Outstanding π) :
    NeverLost π s ↔ Allowed Unfailing π := by
  induction hp with
  | nil =>
    refine iff_of_true ⟨throughout_nil.mpr (start_faithful f), ?_, ?_, ?_⟩ (allowed_nil _) <;>
      exact fun _ hx => absurd hx List.not_mem_nil
  | @snoc s₁ s₂ π t a e hp hs ih =>
    obtain ⟨hNa, hN⟩ := allowed_cons.mp hN
    obtain ⟨hOa, hO⟩ := allowed_cons.mp hO
    obtain ⟨l, m, hx, rfl⟩ := step_eq_some.mp hs
    have hm := moves_of_exec hx
    have ih := ih hN hO
    constructor
    · rintro ⟨hf, hu, hr, hj⟩
      obtain ⟨-, hf⟩ := throughout_cons.mp hf
      obtain ⟨hua, hu⟩ := List.forall_mem_cons.mp hu
      have hπ := ih.mp ⟨hf, hu, (List.forall_mem_cons.mp hr).2, (List.forall_mem_cons.mp hj).2⟩
      exact allowed_cons.mpr ⟨unfailing_of_unchanged hf.1 hOa hm hua, hπ⟩
    · intro hU
      obtain ⟨hUa, hU⟩ := allowed_cons.mp hU
      obtain ⟨hf, hu, hr, hj⟩ := ih.mpr hU
      refine ⟨throughout_cons.mpr ⟨hf.1.step hNa hUa hm, hf⟩,
        List.forall_mem_cons.mpr ⟨fun rc h he hrc => handle_of_error hUa hm he hrc, hu⟩,
        List.forall_mem_cons.mpr ⟨fun h he => ?_, hr⟩,
        List.forall_mem_cons.mpr ⟨fun joined ha => ?_, hj⟩⟩
      · exact outstanding_of_refused hf.1 (run_of_path hp) hm he
      · dsimp only at ha
        subst ha
        exact hf.1.handle hOa

/-- A thread is created and joined; then a start fails and leaves the handle alone, and another one
does not fail. -/
def startJoinStart : List (Tid × Act (BitVec 64)) :=
  [(0, Act.start ⟨0, 7⟩), (0, Act.join ⟨0, none⟩), (0, Act.start ⟨11, -1⟩), (0, Act.start ⟨0, 9⟩)]

theorem neverLost_of_startJoinStart :
    ∃ (s : St (BitVec 64)) (π : _), (calls true).Path (start 3) π s ∧ s.mem.unjoined = [9] ∧
      NeverLost π s := by
  obtain ⟨s, π, hp, hu, hN, hO, hU⟩ := exists_path_of_run (p := calls true)
    (s := (start 3 : St (BitVec 64))) startJoinStart
    (P := fun s π => s.mem.unjoined = [9] ∧ Allowed Named π ∧ Allowed Outstanding π ∧
      Allowed Unfailing π) (by decide)
  exact ⟨s, π, hp, hu, (neverLost_iff hp hN hO).mpr hU⟩

/-- **A failed start invents a thread, a failed join loses one**: `pthread_create` fails and leaves
42 in the handle, and the next start is refused with no thread there; `pthread_join` fails, and the
thread is unjoined with its handle gone. -/
theorem not_neverLost :
    (∃ (s : St (BitVec 64)) (π : _), (calls true).Path (start 3) π s ∧ Allowed Named π ∧
      Allowed Outstanding π ∧ s.mem.unjoined = [] ∧ s.mem.t.t_handle = 42 ∧
      (π.head?.map Transition.ev) = some (.returned .ERR_BAD_PARAM 42) ∧ ¬ NeverLost π s) ∧
    ∃ (s : St (BitVec 64)) (π : _), (calls true).Path (start 3) π s ∧ Allowed Named π ∧
      Allowed Outstanding π ∧ s.mem.unjoined = [7] ∧ s.mem.t.t_handle = -1 ∧ ¬ NeverLost π s := by
  constructor
  · obtain ⟨s, π, hp, hN, hO, hu, hh, he⟩ := exists_path_of_run (p := calls true)
      (s := (start 3 : St (BitVec 64))) [(0, Act.start ⟨11, 42⟩), (0, Act.start ⟨0, 7⟩)]
      (P := fun s π => Allowed Named π ∧ Allowed Outstanding π ∧ s.mem.unjoined = [] ∧
        s.mem.t.t_handle = 42 ∧ (π.head?.map Transition.ev) =
          some (Event.returned Rc.ERR_BAD_PARAM 42)) (by decide)
    refine ⟨s, π, hp, hN, hO, hu, hh, he, fun hk => ?_⟩
    have hnone := hk.faithful.1.none_iff.mpr hu
    rw [hh] at hnone
    exact absurd hnone (by decide)
  · obtain ⟨s, π, hp, hN, hO, hu, hh⟩ := exists_path_of_run (p := calls true)
      (s := (start 3 : St (BitVec 64))) [(0, Act.start ⟨0, 7⟩), (0, Act.join ⟨3, none⟩)]
      (P := fun s π => Allowed Named π ∧ Allowed Outstanding π ∧ s.mem.unjoined = [7] ∧
        s.mem.t.t_handle = -1) (by decide)
    refine ⟨s, π, hp, hN, hO, hu, hh, fun hk => ?_⟩
    have hnone := hk.faithful.1.none_iff.mp hh
    rw [hu] at hnone
    exact absurd hnone (by decide)

end Libult.CreateJoin
