import Libult.Interleaving.Ending

/-!
# Qthreads/SelfKey — the key of the current thread is made once

`self_key_ensure_init` tests its flag, and tests it again under its lock; the flag goes up after the
key is made.  `qthread_key_create` is not under `src/`: it is the parameter `create`, of what its
calls have come to so far; `Key` is a `tsd_key_t`.  Neither caller looks at its return code.

    l18 test ─ l20 lock ─ l22 test ─ l24 create ─ l26 flag ─ l28 unlock ─▸ back
       ╰──────────────────── already initialized ──────────────────────────▸
-/

namespace Libult.Qthreads.SelfKey

open Interleaving Program

/-- A thread. -/
abbrev Tid := ℕ

variable {Key : Type}

/-! ## The code -/

/-- The statics of the module, and what every `qthread_key_create` has come to, latest first: the
key it has made, or `none` where it has failed. -/
structure Mem (Key : Type) where
  threadSelfKeyLock : Option Tid
  threadSelfKeyInit : Bool
  threadSelfKey : Option Key
  made : List (Option Key)

/-- What a thread shows of what it does. -/
inductive Event (Key : Type)
  | tau
  /-- `self_key_ensure_init` has called `qthread_key_create`. -/
  | create (made : Option Key)
  /-- `self_key_ensure_init` returns. -/
  | back
  /-- `tsd_key_create` returns `SUCCESS`, with the key it has left in `*key`. -/
  | given (key : Option Key)
  deriving DecidableEq, Repr

/-- Locations of `self_key_ensure_init`. -/
inductive Pc
  | l18 -- if (false == thread_self_key_init)
  | l20 -- atomic_lock(&thread_self_key_lock);
  | l22 -- if (false == thread_self_key_init)
  | l24 -- qthread_key_create(&thread_self_key, NULL); atomic_mb();
  | l26 -- thread_self_key_init = true;
  | l28 -- atomic_unlock(&thread_self_key_lock);
  deriving DecidableEq, Repr

/-- `self_key_ensure_init()` by `t`; `none` for the next location is its return. -/
def selfKeyEnsureInit (create : List (Option Key) → Option Key) (t : Tid) (m : Mem Key) :
    Pc → Option (Option Pc × Mem Key × Event Key)
  | .l18 => some (if m.threadSelfKeyInit = false then (some .l20, m, .tau) else (none, m, .back))
  | .l20 =>
      if m.threadSelfKeyLock = none then
        some (some .l22, { m with threadSelfKeyLock := some t }, .tau)
      else none
  | .l22 => some (some (if m.threadSelfKeyInit = false then .l24 else .l28), m, .tau)
  | .l24 =>
      some (some .l26, { m with
        threadSelfKey := (create m.made).orElse fun _ => m.threadSelfKey
        made := create m.made :: m.made }, .create (create m.made))
  | .l26 => some (some .l28, { m with threadSelfKeyInit := true }, .tau)
  | .l28 => some (none, { m with threadSelfKeyLock := none }, .back)

/-- `tsd_key_create(key, destructor)`. -/
def tsdKeyCreate (create : List (Option Key) → Option Key) (m : Mem Key) : Mem Key × Event Key :=
  ({ m with made := create m.made :: m.made }, .given (create m.made))

/-- What a thread can do next. -/
inductive Act
  /-- Call `self_key_ensure_init`. -/
  | ensureInit
  /-- Call `tsd_key_create`. -/
  | keyCreate
  /-- Execute the line it is at. -/
  | run
  deriving DecidableEq, Repr

/-- One action of one thread. -/
def exec (create : List (Option Key) → Option Key) (t : Tid) (a : Act) (l : Option Pc)
    (m : Mem Key) : Option (Option Pc × Mem Key × Event Key) :=
  match a, l with
  | .ensureInit, none => some (some .l18, m, .tau)
  | .keyCreate, none => some (none, (tsdKeyCreate create m).1, (tsdKeyCreate create m).2)
  | .run, some pc => selfKeyEnsureInit create t m pc
  | _, _ => none

/-- **The module** as a program. -/
def selfKey (create : List (Option Key) → Option Key) :
    Program Tid (Option Pc) (Mem Key) Act (Event Key) := ⟨exec create⟩

/-- A state of it. -/
abbrev St (Key : Type) := State Tid (Option Pc) (Mem Key)

/-- Nobody inside, the statics as they are initialized. -/
def start : St Key := ⟨fun _ => none, none, false, none, []⟩

/-! ## What every run keeps -/

/-- The lines that hold the lock. -/
def Pc.locked : Pc → Bool
  | .l18 | .l20 => false
  | _ => true

/-- What the calls of `qthread_key_create` in `self_key_ensure_init` have come to, latest first. -/
def created : List (Event Key) → List (Option Key)
  | [] => []
  | .create o :: h => o :: created h
  | _ :: h => created h

/-- **Before the key is made**: nobody has returned. -/
structure Before (h : List (Event Key)) (s : St Key) : Prop where
  created : created h = []
  back : .back ∉ h
  key : s.mem.threadSelfKey = none
  init : s.mem.threadSelfKeyInit = false
  place : ∀ t, s.loc t ≠ some .l26 ∧ s.loc t ≠ some .l28

/-- **Once it is made**: the flag is up, or is just being set, and nobody is about to make
another. -/
structure After (h : List (Event Key)) (s : St Key) : Prop where
  created : created h = [s.mem.threadSelfKey]
  init : s.mem.threadSelfKeyInit = true ∨ ∃ t, s.loc t = some .l26
  place : ∀ t, s.loc t ≠ some .l24

/-- **The invariant of the runs.** -/
structure Once (h : List (Event Key)) (s : St Key) : Prop where
  holder : ∀ t, s.mem.threadSelfKeyLock = some t ↔ ∃ pc, s.loc t = some pc ∧ pc.locked = true
  stage : Before h s ∨ After h s
  given : ∀ k, .given (some k) ∈ h → some k ∈ s.mem.made
  key : ∀ k, s.mem.threadSelfKey = some k → some k ∈ s.mem.made ∧ .given (some k) ∉ h

theorem start_once : Once [] (start : St Key) where
  holder t := by simp [start]
  stage := .inl ⟨rfl, List.not_mem_nil, rfl, rfl, fun t => by simp [start]⟩
  given _ h := absurd h List.not_mem_nil
  key _ h := by cases h

section Step

variable {create : List (Option Key) → Option Key} {h : List (Event Key)} {s : St Key} {t : Tid}
  {a : Act} {l : Option Pc} {m : Mem Key} {e : Event Key}

/-- Two threads do not hold the lock. -/
theorem Once.holder_eq (i : Once h s) {t' : Tid} {pc pc' : Pc} (ht : s.loc t = some pc)
    (hpc : pc.locked = true) (ht' : s.loc t' = some pc') (hpc' : pc'.locked = true) : t' = t :=
  Option.some.inj (((i.holder t').mpr ⟨pc', ht', hpc'⟩).symm.trans ((i.holder t).mpr ⟨pc, ht, hpc⟩))

/-- The lock changes hands at its two lines. -/
theorem Once.holder_move (i : Once h s)
    (hlock : m.threadSelfKeyLock = s.mem.threadSelfKeyLock ∧
        ((∃ pc, l = some pc ∧ pc.locked = true) ↔ ∃ pc, s.loc t = some pc ∧ pc.locked = true) ∨
      s.mem.threadSelfKeyLock = none ∧ m.threadSelfKeyLock = some t ∧
        (∃ pc, l = some pc ∧ pc.locked = true) ∨
      s.mem.threadSelfKeyLock = some t ∧ m.threadSelfKeyLock = none ∧
        ¬ ∃ pc, l = some pc ∧ pc.locked = true) :
    ∀ t', m.threadSelfKeyLock = some t' ↔
      ∃ pc, (s.move t l m).loc t' = some pc ∧ pc.locked = true := by
  refine (State.forall_move (A := fun t' l' => m.threadSelfKeyLock = some t' ↔
    ∃ pc, l' = some pc ∧ pc.locked = true) s t l m).mpr ?_
  rcases hlock with ⟨hm, hl⟩ | ⟨h₀, hm, hl⟩ | ⟨h₀, hm, hl⟩
  · rw [hm]
    exact ⟨(i.holder t).trans hl.symm, fun t' _ => i.holder t'⟩
  · refine ⟨by simp [hm, hl], fun t' ht' => ?_⟩
    rw [← i.holder t', h₀, hm]
    simp [Ne.symm ht']
  · refine ⟨by simp [hm, hl], fun t' ht' => ?_⟩
    rw [← i.holder t', h₀, hm]
    simp [Ne.symm ht']

theorem Before.step (b : Before h s) (hc : SelfKey.created (e :: h) = []) (he : e ≠ .back)
    (hk : m.threadSelfKey = none) (hi : m.threadSelfKeyInit = false)
    (hl : l ≠ some .l26 ∧ l ≠ some .l28) : Before (e :: h) (s.move t l m) where
  created := hc
  back hb := (List.mem_cons.mp hb).elim (fun hb => he hb.symm) b.back
  key := hk
  init := hi
  place := (State.forall_move (A := fun _ l' => l' ≠ some .l26 ∧ l' ≠ some .l28) s t l m).mpr
    ⟨hl, fun t' _ => b.place t'⟩

theorem After.step (c : After h s) (hc : SelfKey.created (e :: h) = SelfKey.created h)
    (hk : m.threadSelfKey = s.mem.threadSelfKey)
    (hi : m.threadSelfKeyInit = true ∨
      m.threadSelfKeyInit = s.mem.threadSelfKeyInit ∧ s.loc t ≠ some .l26)
    (hl : l ≠ some .l24) : After (e :: h) (s.move t l m) where
  created := by rw [hc, c.created, State.move_mem, hk]
  init := by
    rcases hi with hi | ⟨hi, hne⟩
    · exact .inl hi
    · refine c.init.imp (fun h => hi.trans h) fun ⟨t', ht'⟩ => ⟨t', ?_⟩
      have ht : t' ≠ t := by
        rintro rfl
        exact hne ht'
      rwa [State.move_loc_of_ne _ _ _ _ ht]
  place := (State.forall_move (A := fun _ l' => l' ≠ some .l24) s t l m).mpr
    ⟨hl, fun t' _ => c.place t'⟩

/-- **A line of `self_key_ensure_init`** makes the key, or keeps to the side it is on. -/
theorem Once.stage_step (i : Once h s) {pc : Pc} (hloc : s.loc t = some pc)
    (hx : selfKeyEnsureInit create t s.mem pc = some (l, m, e)) :
    Before (e :: h) (s.move t l m) ∨ After (e :: h) (s.move t l m) := by
  have hne : ∀ pc', pc ≠ pc' → s.loc t ≠ some pc' := fun pc' hpc hc =>
    hpc (Option.some.inj (hloc.symm.trans hc))
  cases pc <;> simp only [selfKeyEnsureInit, Option.ite_none_right_eq_some, Option.some.injEq,
    Prod.mk.injEq] at hx
  case l18 =>
    rcases i.stage with b | c
    · rw [if_pos b.init] at hx
      obtain ⟨rfl, rfl, rfl⟩ := Prod.mk.injEq .. ▸ hx
      exact .inl (b.step b.created (by simp) b.key b.init (by simp))
    · right
      split at hx <;> obtain ⟨rfl, rfl, rfl⟩ := Prod.mk.injEq .. ▸ hx <;>
        exact c.step rfl rfl (.inr ⟨rfl, hne _ (by simp)⟩) (by simp)
  case l20 =>
    obtain ⟨-, rfl, rfl, rfl⟩ := hx
    rcases i.stage with b | c
    · exact .inl (b.step b.created (by simp) b.key b.init (by simp))
    · exact .inr (c.step rfl rfl (.inr ⟨rfl, hne _ (by simp)⟩) (by simp))
  case l22 =>
    obtain ⟨rfl, rfl, rfl⟩ := hx
    rcases i.stage with b | c
    · exact .inl (b.step b.created (by simp) b.key b.init (by simp [b.init]))
    · -- whoever has made the key and not set the flag holds the lock
      have hinit : s.mem.threadSelfKeyInit = true := by
        refine c.init.resolve_right fun ⟨t', ht'⟩ => ?_
        obtain rfl := i.holder_eq hloc rfl ht' rfl
        exact hne _ (by simp) ht'
      exact .inr (c.step rfl rfl (.inl hinit) (by simp [hinit]))
  case l24 =>
    obtain ⟨rfl, rfl, rfl⟩ := hx
    rcases i.stage with b | c
    · refine .inr ⟨?_, .inr ⟨t, State.move_loc_self ..⟩, ?_⟩
      · simp [created, b.created, b.key]
      · refine (State.forall_move (A := fun _ l' => l' ≠ some .l24) s t _ _).mpr
          ⟨by simp, fun t' ht' hc => ht' (i.holder_eq hloc rfl hc rfl)⟩
    · exact absurd hloc (c.place t)
  case l26 =>
    obtain ⟨rfl, rfl, rfl⟩ := hx
    rcases i.stage with b | c
    · exact absurd hloc (b.place t).1
    · exact .inr (c.step rfl rfl (.inl rfl) (by simp))
  case l28 =>
    obtain ⟨rfl, rfl, rfl⟩ := hx
    rcases i.stage with b | c
    · exact absurd hloc (b.place t).2
    · exact .inr (c.step rfl rfl (.inr ⟨rfl, hne _ (by simp)⟩) (by simp))

theorem Once.holder_step (i : Once h s) {pc : Pc} (hloc : s.loc t = some pc)
    (hx : selfKeyEnsureInit create t s.mem pc = some (l, m, e)) :
    ∀ t', m.threadSelfKeyLock = some t' ↔
      ∃ pc, (s.move t l m).loc t' = some pc ∧ pc.locked = true := by
  apply i.holder_move
  rw [hloc]
  have hown : pc.locked = true → s.mem.threadSelfKeyLock = some t := fun hpc =>
    (i.holder t).mpr ⟨pc, hloc, hpc⟩
  cases pc <;> simp only [selfKeyEnsureInit, Option.ite_none_right_eq_some, Option.some.injEq,
    Prod.mk.injEq] at hx
  case l18 =>
    split at hx <;> obtain ⟨rfl, rfl, rfl⟩ := Prod.mk.injEq .. ▸ hx <;>
      exact .inl ⟨rfl, by simp [Pc.locked]⟩
  case l20 =>
    obtain ⟨hfree, rfl, rfl, rfl⟩ := hx
    exact .inr (.inl ⟨hfree, rfl, _, rfl, rfl⟩)
  case l22 =>
    obtain ⟨rfl, rfl, rfl⟩ := hx
    refine .inl ⟨rfl, ?_⟩
    split <;> simp [Pc.locked]
  case l24 | l26 =>
    obtain ⟨rfl, rfl, rfl⟩ := hx
    exact .inl ⟨rfl, by simp [Pc.locked]⟩
  case l28 =>
    obtain ⟨rfl, rfl, rfl⟩ := hx
    exact .inr (.inr ⟨hown rfl, rfl, by simp⟩)

/-- **Whom a made key belongs to**: what is given to others is not the key of the module. -/
theorem Once.keys_step (i : Once h s) (fresh : ∀ os k, create os = some k → some k ∉ os)
    (hx : exec create t a (s.loc t) s.mem = some (l, m, e)) :
    (∀ k, .given (some k) ∈ e :: h → some k ∈ m.made) ∧
      ∀ k, m.threadSelfKey = some k → some k ∈ m.made ∧ .given (some k) ∉ e :: h := by
  -- a step that makes no key
  have keep : m.made = s.mem.made → m.threadSelfKey = s.mem.threadSelfKey →
      (∀ o, e ≠ .given o) → (∀ k, .given (some k) ∈ e :: h → some k ∈ m.made) ∧
        ∀ k, m.threadSelfKey = some k → some k ∈ m.made ∧ .given (some k) ∉ e :: h := by
    intro hmade hkey he
    rw [hmade, hkey]
    have hmem : ∀ k, .given (some k) ∈ e :: h ↔ .given (some k) ∈ h := fun k =>
      List.mem_cons.trans (or_iff_right fun hc => he _ hc.symm)
    exact ⟨fun k hk => i.given k ((hmem k).mp hk), fun k hk =>
      (i.key k hk).imp_right fun hn hc => hn ((hmem k).mp hc)⟩
  unfold exec at hx
  split at hx
  · obtain ⟨-, rfl, rfl⟩ := by simpa using hx
    exact keep rfl rfl (by simp)
  · obtain ⟨-, rfl, rfl⟩ := by simpa [tsdKeyCreate] using hx
    refine ⟨fun k hk => ?_, fun k hk => ?_⟩
    · rcases List.mem_cons.mp hk with hk | hk
      · exact List.mem_cons.mpr (.inl (Event.given.inj hk))
      · exact List.mem_cons_of_mem _ (i.given k hk)
    · obtain ⟨hmade, hgiven⟩ := i.key k hk
      refine ⟨List.mem_cons_of_mem _ hmade, fun hc => ?_⟩
      rcases List.mem_cons.mp hc with hc | hc
      · exact fresh _ k (Event.given.inj hc).symm hmade
      · exact hgiven hc
  · rename_i pc _
    cases pc <;> simp only [selfKeyEnsureInit, Option.ite_none_right_eq_some, Option.some.injEq,
      Prod.mk.injEq] at hx
    case l18 =>
      split at hx <;> obtain ⟨rfl, rfl, rfl⟩ := Prod.mk.injEq .. ▸ hx <;>
        exact keep rfl rfl (by simp)
    case l20 =>
      obtain ⟨-, -, rfl, rfl⟩ := hx
      exact keep rfl rfl (by simp)
    case l24 =>
      obtain ⟨-, rfl, rfl⟩ := hx
      have hmem : ∀ k, Event.given (some k) ∈ Event.create (create s.mem.made) :: h →
          Event.given (some k) ∈ h := fun k hk => by simpa using hk
      refine ⟨fun k hk => List.mem_cons_of_mem _ (i.given k (hmem k hk)), fun k hk => ?_⟩
      cases hc : create s.mem.made with
      | none =>
        rw [hc] at hk
        exact ⟨List.mem_cons_of_mem _ (i.key k hk).1, fun hg => (i.key k hk).2 (by simpa using hg)⟩
      | some k' =>
        rw [hc] at hk
        obtain rfl : k' = k := Option.some.inj hk
        exact ⟨List.mem_cons_self, fun hg => fresh _ _ hc (i.given _ (by simpa using hg))⟩
    all_goals
      obtain ⟨-, rfl, rfl⟩ := hx
      exact keep rfl rfl (by simp)
  · cases hx

/-- **One step keeps the invariant.** -/
theorem Once.step (i : Once h s) (fresh : ∀ os k, create os = some k → some k ∉ os)
    (hx : exec create t a (s.loc t) s.mem = some (l, m, e)) : Once (e :: h) (s.move t l m) := by
  obtain ⟨hgiven, hkey⟩ := i.keys_step fresh hx
  suffices (∀ t', m.threadSelfKeyLock = some t' ↔
      ∃ pc, (s.move t l m).loc t' = some pc ∧ pc.locked = true) ∧
      (Before (e :: h) (s.move t l m) ∨ After (e :: h) (s.move t l m)) from
    ⟨this.1, this.2, hgiven, hkey⟩
  generalize hloc : s.loc t = l₀ at hx
  unfold exec at hx
  split at hx
  · obtain ⟨rfl, rfl, rfl⟩ := by simpa using hx
    refine ⟨i.holder_move (.inl ⟨rfl, by simp [hloc, Pc.locked]⟩), ?_⟩
    exact i.stage.imp (fun b => b.step b.created (by simp) b.key b.init (by simp))
      fun c => c.step rfl rfl (.inr ⟨rfl, by simp [hloc]⟩) (by simp)
  · obtain ⟨rfl, rfl, rfl⟩ := by simpa [tsdKeyCreate] using hx
    refine ⟨i.holder_move (.inl ⟨rfl, by simp [hloc]⟩), ?_⟩
    exact i.stage.imp (fun b => b.step b.created (by simp) b.key b.init (by simp))
      fun c => c.step rfl rfl (.inr ⟨rfl, by simp [hloc]⟩) (by simp)
  · exact ⟨i.holder_step hloc hx, i.stage_step hloc hx⟩
  · cases hx

/-! ## Every call returns -/

/-- **A thread at work** executes its next line. -/
def Works (_ : St Key) (_ : Tid) (a : Act) : Prop := a = .run

/-- How many lines are left, at most. -/
def Pc.left : Pc → ℕ
  | .l18 => 6
  | .l20 => 5
  | .l22 => 4
  | .l24 => 3
  | .l26 => 2
  | .l28 => 1

theorem selfKeyEnsureInit_falls {pc : Pc} {m₀ : Mem Key}
    (hx : selfKeyEnsureInit create t m₀ pc = some (l, m, e)) : l.elim 0 Pc.left < pc.left := by
  cases pc <;> simp only [selfKeyEnsureInit, Option.ite_none_right_eq_some, Option.some.injEq,
    Prod.mk.injEq] at hx
  case l18 => split at hx <;> obtain ⟨rfl, -, -⟩ := Prod.mk.injEq .. ▸ hx <;> decide
  case l20 =>
    obtain ⟨-, rfl, -, -⟩ := hx
    decide
  case l22 =>
    obtain ⟨rfl, -, -⟩ := hx
    split <;> decide
  all_goals
    obtain ⟨rfl, -, -⟩ := hx
    decide

/-- What the threads `A` have left. -/
def work (A : Finset Tid) (s : St Key) : ℕ := ∑ t ∈ A, (s.loc t).elim 0 Pc.left

/-- **Work falls**, whoever does it. -/
theorem work_falls {A : Finset Tid} (ht : t ∈ A)
    (hx : exec create t .run (s.loc t) s.mem = some (l, m, e)) :
    work A (s.move t l m) < work A s := by
  refine sum_move_lt (f := fun _ (l : Option Pc) => l.elim 0 Pc.left)
    (g := fun _ (l : Option Pc) => l.elim 0 Pc.left) ht ?_ fun _ _ _ => le_rfl
  generalize s.loc t = l₀ at hx
  cases l₀ with
  | none => cases hx
  | some pc => exact selfKeyEnsureInit_falls hx

/-- Only the lock keeps a thread from its next line, and its holder can go on. -/
theorem Once.out_of_stuck (i : Once h s)
    (hstuck : ∀ t, exec create t .run (s.loc t) s.mem = none) (t : Tid) : s.loc t = none := by
  have next : ∀ t pc, s.loc t = some pc → pc = .l20 ∧ s.mem.threadSelfKeyLock ≠ none := by
    intro t pc hloc
    have hx := hstuck t
    rw [hloc] at hx
    change selfKeyEnsureInit create t s.mem pc = none at hx
    cases pc <;> first | exact absurd hx (Option.some_ne_none _) | skip
    exact ⟨rfl, by simpa [selfKeyEnsureInit] using hx⟩
  cases hloc : s.loc t with
  | none => rfl
  | some pc =>
    obtain ⟨t', ht'⟩ := Option.ne_none_iff_exists'.mp (next t pc hloc).2
    obtain ⟨pc', hloc', hpc'⟩ := (i.holder t').mp ht'
    rw [(next t' pc' hloc').1] at hpc'
    cases hpc'

end Step

/-- **The key of the current thread is made once.**  In every run `self_key_ensure_init` calls
`qthread_key_create` at most once; once any call of it has returned, it has done so, and the key is
what that came to, for good; nobody else is given it; and every call returns, however the threads
are scheduled. -/
theorem self_key_once {create : List (Option Key) → Option Key}
    (fresh : ∀ os k, create os = some k → some k ∉ os) {s : St Key}
    {π : List (Transition Tid (Option Pc) (Mem Key) Act (Event Key))}
    (hp : (selfKey create).Path start π s) :
    (created (events π)).length ≤ 1 ∧
      (.back ∈ events π → created (events π) = [s.mem.threadSelfKey]) ∧
      (∀ k, s.mem.threadSelfKey = some k → .given (some k) ∉ events π) ∧
      (∃ N, ∀ ρ s', (selfKey create).Path s ρ s' → Allowed Works ρ → ρ.length ≤ N ∧
        ((∀ t, exec create t .run (s'.loc t) s'.mem = none) → ∀ t, s'.loc t = none)) ∧
      ∃ ρ s', (selfKey create).Path s ρ s' ∧ Allowed Works ρ ∧
        ∀ t, exec create t .run (s'.loc t) s'.mem = none := by
  have honce : ∀ {π s}, (selfKey create).Path start π s → Once (events π) s := fun hp =>
    hp.invariant Once (fun _ _ _ => True) (fun _ _ _ _ _ _ _ i _ hx => i.step fresh hx)
      (fun _ _ => trivial) start_once
  obtain ⟨⟨N, hN⟩, ρ, s', hρ, hw, hlast⟩ := hp.runs_out (E := Works) (w := fun A _ => work A)
    (honce hp) (fun _ _ _ h => h) (fun _ _ => rfl)
    (fun _ _ _ _ _ _ _ ht i _ hx => ⟨i.step fresh hx, work_falls ht hx⟩)
  refine ⟨?_, fun hb => ?_, fun k hk => ((honce hp).key k hk).2, ⟨N, fun ρ s' hρ hw => ?_⟩,
    ρ, s', hρ, hw, fun t => hlast t rfl⟩
  · rcases (honce hp).stage with b | c
    · simp [b.created]
    · simp [c.created]
  · exact ((honce hp).stage.resolve_left fun b => b.back hb).created
  · exact ⟨hN ρ s' hρ hw, (honce (hp.append hρ)).out_of_stuck⟩

/-- Keys by number, each one more than those before together. -/
def numbered (os : List (Option ℕ)) : Option ℕ :=
  some (os.foldr (fun o n => o.getD 0 + n) 0 + 1)

theorem numbered_fresh (os : List (Option ℕ)) (k : ℕ) (h : numbered os = some k) :
    some k ∉ os := by
  have hle : ∀ os : List (Option ℕ), some k ∈ os → k ≤ os.foldr (fun o n => o.getD 0 + n) 0 := by
    intro os hk
    induction os with
    | nil => exact absurd hk List.not_mem_nil
    | cons o os ih =>
      rw [List.foldr_cons]
      rcases List.mem_cons.mp hk with rfl | hk
      · exact Nat.le_add_right _ _
      · exact (ih hk).trans (Nat.le_add_left _ _)
  intro hk
  have := hle os hk
  have := Option.some.inj h
  omega

/-- Two threads find the flag down, a third makes a key of its own. -/
def race : List (Tid × Act) :=
  [(0, Act.ensureInit), (1, .ensureInit), (0, .run), (1, .run), (2, .keyCreate)] ++
  List.replicate 5 (0, Act.run) ++ List.replicate 3 (1, Act.run) ++ [(2, .keyCreate)]

theorem self_key_once_race :
    ∃ s π, (selfKey numbered).Path start π s ∧ Event.back ∈ events π ∧
      s.mem.threadSelfKey = some 2 ∧ created (events π) = [some 2] := by
  obtain ⟨s, π, hp, hb, hk⟩ := exists_path_of_run (p := selfKey numbered) (s := start) race
    (P := fun s π => Event.back ∈ events π ∧ s.mem.threadSelfKey = some 2) (by decide)
  obtain ⟨-, hc, -⟩ := self_key_once numbered_fresh hp
  exact ⟨s, π, hp, hb, hk, hk ▸ hc hb⟩

end Libult.Qthreads.SelfKey
