import Libult.Interleaving.Program
import Mathlib.Data.Int.Notation

/-!
# Usage/Sections — the macros of `mutex.h`, locked or not

Each macro tests `using_threads()` and lets the mutex alone where the flag is down.  `THREAD_LOCK`
and `THREAD_UNLOCK` test it separately, so what a section has locked is nowhere kept: only if the
flag is not switched in between do the two agree.  `THREAD_SCOPED_LOCK` tests it once for both.

    THREAD_LOCK         test ─┬─▸ mutex_lock ─┬─▸ …section… ─▸ test ─┬─▸ mutex_unlock ─┬─▸
                              ╰───────────────╯                      ╰─────────────────╯
    THREAD_SCOPED_LOCK  test ─┬─▸ mutex_lock ─▸ …action… ─▸ mutex_unlock ─┬─▸
                              ╰───────────────▸ …action… ─────────────────╯
-/

namespace Libult.Usage.Sections

open Interleaving Program

/-- A thread. -/
abbrev Tid := ℕ

/-- A `mutex_t`, by name. -/
abbrev Mid := ℕ

/-! ## The mutexes -/

/-- The flag and the mutexes: who holds `m_lock`, and how often over once; `recursive` says which of
them are `recursive_mutex_t`. -/
structure Mem where
  usesThreads : Bool
  recursive : Mid → Bool
  mLock : Mid → Option (Tid × ℕ)

namespace Mem

variable (m : Mem) (t : Tid) (mu : Mid)

def setLock (o : Option (Tid × ℕ)) : Mem := { m with mLock := Function.update m.mLock mu o }

/-- `mutex_lock`, once it is free or `t` may take it again. -/
def mutexLock : Option Mem :=
  match m.mLock mu with
  | none => some (m.setLock mu (some (t, 0)))
  | some (t', n) =>
      if t' = t ∧ m.recursive mu then some (m.setLock mu (some (t, n + 1))) else none

/-- `mutex_trylock`: its return code, and what it leaves. -/
def mutexTrylock : ℤ × Mem := (m.mutexLock t mu).elim (1, m) fun m' => (0, m')

/-- `mutex_unlock`; `none` where `t` does not hold it. -/
def mutexUnlock : Option Mem :=
  match m.mLock mu with
  | none => none
  | some (t', n) =>
      if t' = t then some (m.setLock mu (if n = 0 then none else some (t, n - 1))) else none

/-- How often `t` holds it. -/
def depth : ℕ := (m.mLock mu).elim 0 fun r => if r.1 = t then r.2 + 1 else 0

end Mem

/-! ## The macros -/

/-- Locations of the macros. -/
inductive Pc
  | l137 (mutex : Mid) -- THREAD_LOCK: if (UNLIKELY(using_threads()))
  | l138 (mutex : Mid) -- mutex_lock(mutex);
  | l158 (mutex : Mid) -- THREAD_TRYLOCK: (UNLIKELY(using_threads()) ? … : 0)
  | l158t (mutex : Mid) -- mutex_trylock(mutex)
  | l175 (mutex : Mid) -- THREAD_UNLOCK: if (UNLIKELY(using_threads()))
  | l176 (mutex : Mid) -- mutex_unlock(mutex);
  | l197 (mutex : Mid) -- THREAD_SCOPED_LOCK: if (UNLIKELY(using_threads()))
  | l198 (mutex : Mid) -- mutex_lock(mutex);
  | l200 (mutex : Mid) -- mutex_unlock(mutex);
  deriving DecidableEq, Repr

/-- A thread: the macro it is in, and the sections. -/
structure Thread where
  pc : Option Pc
  /-- Entered by `THREAD_LOCK` or `THREAD_TRYLOCK`, and not left yet. -/
  plain : List Mid
  /-- The actions of `THREAD_SCOPED_LOCK`, innermost first, and on which side of the test. -/
  scopes : List (Mid × Bool)
  deriving DecidableEq, Repr

/-- What a thread shows of what it does. -/
inductive Event
  | tau
  /-- `THREAD_TRYLOCK` gives back `rc`. -/
  | tried (rc : ℤ)
  /-- A mutex is unlocked by a thread that does not hold it. -/
  | misused (mutex : Mid)
  deriving DecidableEq, Repr

def Thread.goto (th : Thread) (pc : Pc) : Thread := { th with pc := some pc }

/-- In a section that `THREAD_LOCK` has begun… -/
def Thread.enter (th : Thread) (mu : Mid) : Thread :=
  { th with pc := none, plain := mu :: th.plain }

/-- …and out of it. -/
def Thread.leave (th : Thread) (mu : Mid) : Thread :=
  { th with pc := none, plain := th.plain.erase mu }

/-- In the action of a `THREAD_SCOPED_LOCK`… -/
def Thread.enterScope (th : Thread) (mu : Mid) (locked : Bool) : Thread :=
  { th with pc := none, scopes := (mu, locked) :: th.scopes }

/-- …and out of it. -/
def Thread.leaveScope (th : Thread) : Thread := { th with pc := none, scopes := th.scopes.tail }

/-- One line of a macro. -/
def line (t : Tid) (th : Thread) (m : Mem) : Pc → Option (Thread × Mem × Event)
  | .l137 mu => some (if m.usesThreads then th.goto (.l138 mu) else th.enter mu, m, .tau)
  | .l138 mu => (m.mutexLock t mu).map fun m' => (th.enter mu, m', .tau)
  | .l158 mu =>
      some (if m.usesThreads then (th.goto (.l158t mu), m, .tau) else (th.enter mu, m, .tried 0))
  | .l158t mu =>
      some (if (m.mutexTrylock t mu).1 = 0 then th.enter mu else { th with pc := none },
        (m.mutexTrylock t mu).2, .tried (m.mutexTrylock t mu).1)
  | .l175 mu => some (if m.usesThreads then th.goto (.l176 mu) else th.leave mu, m, .tau)
  | .l176 mu =>
      some ((m.mutexUnlock t mu).elim (th.leave mu, m, .misused mu) fun m' =>
        (th.leave mu, m', .tau))
  | .l197 mu =>
      some (if m.usesThreads then th.goto (.l198 mu) else th.enterScope mu false, m, .tau)
  | .l198 mu => (m.mutexLock t mu).map fun m' => (th.enterScope mu true, m', .tau)
  | .l200 mu =>
      some ((m.mutexUnlock t mu).elim (th.leaveScope, m, .misused mu) fun m' =>
        (th.leaveScope, m', .tau))

/-! ## The program -/

/-- What a thread can do next. -/
inductive Act
  /-- `set_using_threads(have)`. -/
  | setUsingThreads (have' : Bool)
  | lock (mu : Mid)
  | trylock (mu : Mid)
  /-- `THREAD_UNLOCK` of a section it is in. -/
  | unlock (mu : Mid)
  /-- `THREAD_SCOPED_LOCK`; its action is whatever the thread does until `actionEnd`. -/
  | scoped (mu : Mid)
  | actionEnd
  | run
  deriving DecidableEq, Repr

/-- One action of one thread. -/
def exec (t : Tid) (a : Act) (th : Thread) (m : Mem) : Option (Thread × Mem × Event) :=
  match th.pc with
  | some pc => if a = .run then line t th m pc else none
  | none =>
    match a with
    | .setUsingThreads have' => some (th, { m with usesThreads := have' }, .tau)
    | .lock mu => some (th.goto (.l137 mu), m, .tau)
    | .trylock mu => some (th.goto (.l158 mu), m, .tau)
    | .unlock mu => if mu ∈ th.plain then some (th.goto (.l175 mu), m, .tau) else none
    | .scoped mu => some (th.goto (.l197 mu), m, .tau)
    | .actionEnd =>
      match th.scopes with
      | (mu, true) :: _ => some (th.goto (.l200 mu), m, .tau)
      | (_, false) :: _ => some (th.leaveScope, m, .tau)
      | [] => none
    | .run => none

/-- **The macros of `mutex.h`** as a program. -/
def sections : Program Tid Thread Mem Act Event := ⟨exec⟩

/-- A state of it. -/
abbrev St := State Tid Thread Mem

/-- Nobody in a section, the mutexes free. -/
def start (uses : Bool) (recursive : Mid → Bool) : St :=
  ⟨fun _ => ⟨none, [], []⟩, uses, recursive, fun _ => none⟩

/-! ## What is locked for a thread -/

/-- How many of the thread's sections have locked `mu`, by the flag as it is now. -/
def Thread.taken (uses : Bool) (mu : Mid) (th : Thread) : ℕ :=
  (if uses then th.plain.count mu else 0) + th.scopes.count (mu, true)

/-- Between a test of `THREAD_LOCK`, `THREAD_TRYLOCK` or `THREAD_UNLOCK` and what it has led to. -/
def Thread.amid (th : Thread) : Bool :=
  match th.pc with
  | some (.l138 _) | some (.l158t _) | some (.l176 _) => true
  | _ => false

/-- **The flag is switched only while nobody is between a `THREAD_LOCK` and its
`THREAD_UNLOCK`**; to set it to what it is is no switch. -/
def Steady (s : St) (_ : Tid) (a : Act) : Prop :=
  a = .setUsingThreads (!s.mem.usesThreads) → ∀ t, (s.loc t).plain = [] ∧ (s.loc t).amid = false

/-! ## The mutexes count -/

section Mutex

variable {m m' : Mem} {t : Tid} {mu : Mid}

@[simp] theorem Mem.setLock_self (o : Option (Tid × ℕ)) : (m.setLock mu o).mLock mu = o :=
  Function.update_self ..

theorem Mem.setLock_of_ne {mu' : Mid} (h : mu' ≠ mu) (o : Option (Tid × ℕ)) :
    (m.setLock mu o).mLock mu' = m.mLock mu' := Function.update_of_ne h ..

/-- A lock taken is held once more. -/
theorem Mem.depth_mutexLock (h : m.mutexLock t mu = some m') :
    m'.usesThreads = m.usesThreads ∧ ∀ t' mu', m'.depth t' mu' =
      m.depth t' mu' + if mu' = mu ∧ t' = t then 1 else 0 := by
  unfold mutexLock at h
  split at h
  next hfree =>
    obtain rfl := Option.some.inj h
    refine ⟨rfl, fun t' mu' => ?_⟩
    by_cases hmu : mu' = mu
    · subst hmu
      simp [depth, hfree, eq_comm]
    · simp [depth, setLock_of_ne hmu, hmu]
  next t₀ n hheld =>
    rw [Option.ite_none_right_eq_some] at h
    obtain ⟨⟨rfl, -⟩, h⟩ := h
    obtain rfl := Option.some.inj h
    refine ⟨rfl, fun t' mu' => ?_⟩
    by_cases hmu : mu' = mu
    · subst hmu
      by_cases ht : t' = t₀
      · simp [depth, hheld, ht]
      · simp [depth, hheld, ht, Ne.symm ht]
    · simp [depth, setLock_of_ne hmu, hmu]

/-- **Whoever holds a mutex can unlock it**, and then holds it once less. -/
theorem Mem.depth_mutexUnlock (hd : 0 < m.depth t mu) :
    ∃ m', m.mutexUnlock t mu = some m' ∧ m'.usesThreads = m.usesThreads ∧ ∀ t' mu',
      m'.depth t' mu' + (if mu' = mu ∧ t' = t then 1 else 0) = m.depth t' mu' := by
  cases hheld : m.mLock mu with
  | none => simp [depth, hheld] at hd
  | some r =>
    obtain ⟨t₀, n⟩ := r
    obtain rfl : t₀ = t := by
      by_contra hne
      simp [depth, hheld, hne] at hd
    refine ⟨m.setLock mu (if n = 0 then none else some (t₀, n - 1)), by simp [mutexUnlock, hheld],
      rfl, fun t' mu' => ?_⟩
    by_cases hmu : mu' = mu
    · subst hmu
      by_cases ht : t' = t₀
      · subst ht
        cases n <;> simp [depth, hheld]
      · cases n <;> simp [depth, hheld, ht, Ne.symm ht]
    · simp [depth, setLock_of_ne hmu, hmu]

/-- A mutex that is not recursive is held once. -/
def Mem.Once (m : Mem) : Prop := ∀ mu t n, m.mLock mu = some (t, n) → m.recursive mu = false → n = 0

theorem Mem.Once.setLock (h : m.Once) {o : Option (Tid × ℕ)}
    (ho : ∀ t n, o = some (t, n) → m.recursive mu = false → n = 0) : (m.setLock mu o).Once := by
  intro mu' t' n hm hr
  by_cases hmu : mu' = mu
  · subst hmu
    exact ho t' n (Mem.setLock_self (m := m) o ▸ hm) hr
  · rw [Mem.setLock_of_ne hmu] at hm
    exact h mu' t' n hm hr

theorem Mem.Once.mutexLock (h : m.Once) (hl : m.mutexLock t mu = some m') : m'.Once := by
  unfold Mem.mutexLock at hl
  split at hl
  · obtain rfl := Option.some.inj hl
    exact h.setLock fun _ _ ho _ => by cases ho; rfl
  · rw [Option.ite_none_right_eq_some] at hl
    obtain ⟨⟨-, hrec⟩, hl⟩ := hl
    obtain rfl := Option.some.inj hl
    exact h.setLock fun _ _ _ hr => by cases hrec.symm.trans hr

theorem Mem.Once.mutexUnlock (h : m.Once) (hu : m.mutexUnlock t mu = some m') : m'.Once := by
  unfold Mem.mutexUnlock at hu
  split at hu
  · cases hu
  next t₀ n hheld =>
    rw [Option.ite_none_right_eq_some] at hu
    obtain ⟨-, hu⟩ := hu
    obtain rfl := Option.some.inj hu
    refine h.setLock fun t' n' ho hr => ?_
    rw [if_pos (h mu t₀ n hheld hr)] at ho
    cases ho

end Mutex

/-! ## What a line does to the mutexes -/

/-- **A macro does with its section what it does with the mutex.** -/
inductive Does (t : Tid) (th : Thread) (m : Mem) (th' : Thread) (m' : Mem) : Prop
  | same : m' = m → (∀ mu, th'.taken m.usesThreads mu = th.taken m.usesThreads mu) →
      Does t th m th' m'
  | lock {mu : Mid} : m.mutexLock t mu = some m' → (∀ mu', th'.taken m.usesThreads mu' =
      th.taken m.usesThreads mu' + if mu' = mu then 1 else 0) → Does t th m th' m'
  | unlock {mu : Mid} : m.mutexUnlock t mu = some m' → (∀ mu', th'.taken m.usesThreads mu' +
      (if mu' = mu then 1 else 0) = th.taken m.usesThreads mu') → Does t th m th' m'

/-- What a thread knows between the lines. -/
def Thread.Fits (uses : Bool) (th : Thread) : Prop :=
  match th.pc with
  | some (.l138 _) | some (.l158t _) => uses = true
  | some (.l175 mu) => mu ∈ th.plain
  | some (.l176 mu) => uses = true ∧ mu ∈ th.plain
  | some (.l200 mu) => ∃ r, th.scopes = (mu, true) :: r
  | _ => True

section Line

variable {t : Tid} {th th' : Thread} {m m' : Mem} {e : Event} {pc : Pc} {mu mu' : Mid}

theorem Thread.taken_enter : (th.enter mu).taken true mu' =
    th.taken true mu' + if mu' = mu then 1 else 0 := by
  by_cases h : mu' = mu
  · subst h
    simp [taken, enter]
    omega
  · simp [taken, enter, List.count_cons_of_ne (Ne.symm h), h]

theorem Thread.taken_leave (hmu : mu ∈ th.plain) (mu' : Mid) : (th.leave mu).taken true mu' +
    (if mu' = mu then 1 else 0) = th.taken true mu' := by
  by_cases h : mu' = mu
  · subst h
    have := List.count_pos_iff.mpr hmu
    simp [taken, leave, List.count_erase_self]
    omega
  · simp [taken, leave, List.count_erase_of_ne h, h]

theorem Thread.taken_enterScope {uses : Bool} : (th.enterScope mu true).taken uses mu' =
    th.taken uses mu' + if mu' = mu then 1 else 0 := by
  by_cases h : mu' = mu
  · subst h
    simp [taken, enterScope]
    omega
  · simp [taken, enterScope, h, Ne.symm h]

theorem Thread.taken_leaveScope {r : List (Mid × Bool)} (hs : th.scopes = (mu, true) :: r)
    (uses : Bool) (mu' : Mid) : th.leaveScope.taken uses mu' +
      (if mu' = mu then 1 else 0) = th.taken uses mu' := by
  by_cases h : mu' = mu
  · subst h
    simp [taken, leaveScope, hs]
    omega
  · simp [taken, leaveScope, hs, h, Ne.symm h]

/-- With the flag down the plain sections lock nothing. -/
theorem Thread.taken_false {th₁ th₂ : Thread} (h : th₁.scopes = th₂.scopes) :
    th₁.taken false mu = th₂.taken false mu := by
  simp [taken, h]

/-- **One line** of a macro, with the flag as its test has found it. -/
theorem line_does (hpc : th.pc = some pc) (hf : th.Fits m.usesThreads)
    (hd : ∀ mu, m.depth t mu = th.taken m.usesThreads mu)
    (h : line t th m pc = some (th', m', e)) :
    Does t th m th' m' ∧ th'.Fits m.usesThreads ∧ ∀ mu, e ≠ .misused mu := by
  unfold Thread.Fits at hf
  rw [hpc] at hf
  cases pc <;> simp only [line, Option.some.injEq, Option.map_eq_some_iff, Prod.mk.injEq] at h
  case l137 mu =>
    cases hu : m.usesThreads with
    | true =>
      obtain ⟨rfl, rfl, rfl⟩ := hu ▸ h
      exact ⟨.same rfl fun _ => rfl, rfl, by simp⟩
    | false =>
      rw [hu, if_neg Bool.false_ne_true] at h
      obtain ⟨rfl, rfl, rfl⟩ := h
      exact ⟨.same rfl fun _ => hu ▸ Thread.taken_false rfl, trivial, by simp⟩
  case l138 mu =>
    obtain ⟨m', hl, rfl, rfl, rfl⟩ := h
    exact ⟨.lock hl fun _ => hf ▸ Thread.taken_enter, trivial, by simp⟩
  case l158 mu =>
    cases hu : m.usesThreads with
    | true =>
      rw [hu] at h
      obtain ⟨rfl, rfl, rfl⟩ := Prod.mk.injEq .. ▸ h
      exact ⟨.same rfl fun _ => rfl, rfl, by simp⟩
    | false =>
      rw [hu] at h
      obtain ⟨rfl, rfl, rfl⟩ := Prod.mk.injEq .. ▸ h
      exact ⟨.same rfl fun _ => hu ▸ Thread.taken_false rfl, trivial, by simp⟩
  case l158t mu =>
    obtain ⟨rfl, rfl, rfl⟩ := h
    cases hl : m.mutexLock t mu with
    | none =>
      rw [Mem.mutexTrylock, hl]
      exact ⟨.same rfl fun _ => rfl, trivial, by simp⟩
    | some m' =>
      rw [Mem.mutexTrylock, hl]
      exact ⟨.lock hl fun _ => hf ▸ Thread.taken_enter, trivial, by simp⟩
  case l175 mu =>
    cases hu : m.usesThreads with
    | true =>
      obtain ⟨rfl, rfl, rfl⟩ := hu ▸ h
      exact ⟨.same rfl fun _ => rfl, ⟨rfl, hf⟩, by simp⟩
    | false =>
      rw [hu, if_neg Bool.false_ne_true] at h
      obtain ⟨rfl, rfl, rfl⟩ := h
      exact ⟨.same rfl fun _ => hu ▸ Thread.taken_false rfl, trivial, by simp⟩
  case l176 mu =>
    obtain ⟨hu, hmu⟩ := hf
    have hleave := Thread.taken_leave hmu
    have hpos : 0 < m.depth t mu := by
      have := hleave mu
      rw [hd, hu]
      simp at this
      omega
    obtain ⟨m₁, hm₁, -⟩ := Mem.depth_mutexUnlock hpos
    rw [hm₁] at h
    obtain ⟨rfl, rfl, rfl⟩ := Prod.mk.injEq .. ▸ h
    exact ⟨.unlock hm₁ (hu ▸ hleave), trivial, by simp⟩
  case l197 mu =>
    cases hu : m.usesThreads with
    | true =>
      obtain ⟨rfl, rfl, rfl⟩ := hu ▸ h
      exact ⟨.same rfl fun _ => rfl, trivial, by simp⟩
    | false =>
      obtain ⟨rfl, rfl, rfl⟩ := hu ▸ h
      refine ⟨.same rfl fun _ => ?_, trivial, by simp⟩
      simp [Thread.taken, Thread.enterScope, hu]
  case l198 mu =>
    obtain ⟨m', hl, rfl, rfl, rfl⟩ := h
    exact ⟨.lock hl fun _ => Thread.taken_enterScope, trivial, by simp⟩
  case l200 mu =>
    obtain ⟨r, hr⟩ := hf
    have hleave := Thread.taken_leaveScope hr m.usesThreads
    have hpos : 0 < m.depth t mu := by
      have := hleave mu
      rw [hd]
      simp at this
      omega
    obtain ⟨m₁, hm₁, -⟩ := Mem.depth_mutexUnlock hpos
    rw [hm₁] at h
    obtain ⟨rfl, rfl, rfl⟩ := Prod.mk.injEq .. ▸ h
    exact ⟨.unlock hm₁ hleave, trivial, by simp⟩

end Line

/-! ## What every run keeps -/

/-- **The mutexes and the sections balance.** -/
structure Balanced (s : St) : Prop where
  depth : ∀ t mu, s.mem.depth t mu = (s.loc t).taken s.mem.usesThreads mu
  fits : ∀ t, (s.loc t).Fits s.mem.usesThreads
  once : s.mem.Once

theorem start_balanced (uses : Bool) (recursive : Mid → Bool) :
    Balanced (start uses recursive) where
  depth t mu := by cases uses <;> rfl
  fits _ := trivial
  once _ _ _ h := by cases h

section Step

variable {s : St} {t : Tid} {a : Act} {th : Thread} {m : Mem} {e : Event}

theorem Balanced.move (b : Balanced s) (hd : Does t (s.loc t) s.mem th m)
    (hf : th.Fits s.mem.usesThreads) : Balanced (s.move t th m) := by
  -- what is common: the flag, and the depths of the others
  have build : m.usesThreads = s.mem.usesThreads → m.Once →
      (∀ mu, m.depth t mu = th.taken s.mem.usesThreads mu) →
      (∀ t' mu, t' ≠ t → m.depth t' mu = s.mem.depth t' mu) → Balanced (s.move t th m) := by
    intro hu ho hown hothers
    have hloc := State.forall_move (A := fun t' th =>
      (∀ mu, m.depth t' mu = th.taken m.usesThreads mu) ∧ th.Fits m.usesThreads) s t th m
    rw [hu] at hloc
    have h := hloc.mpr ⟨⟨hown, hf⟩, fun t' ht' =>
      ⟨fun mu => (hothers t' mu ht').trans (b.depth t' mu), b.fits t'⟩⟩
    exact ⟨fun t' mu => by rw [State.move_mem, hu]; exact (h t').1 mu,
      fun t' => by rw [State.move_mem, hu]; exact (h t').2, ho⟩
  cases hd with
  | same hm htaken =>
    subst hm
    exact build rfl b.once (fun mu => (b.depth t mu).trans (htaken mu).symm) fun _ _ _ => rfl
  | lock hl htaken =>
    obtain ⟨hu, hdepth⟩ := Mem.depth_mutexLock hl
    refine build hu (b.once.mutexLock hl) (fun mu => ?_) fun t' mu ht' => ?_
    · rw [hdepth, b.depth, htaken]
      simp
    · rw [hdepth]
      simp [ht']
  | @unlock mu₀ hl htaken =>
    have hpos : 0 < s.mem.depth t mu₀ := by
      have := htaken mu₀
      rw [b.depth]
      simp at this
      omega
    obtain ⟨m', hl', hu, hdepth⟩ := Mem.depth_mutexUnlock hpos
    obtain rfl := Option.some.inj (hl.symm.trans hl')
    refine build hu (b.once.mutexUnlock hl) (fun mu => ?_) fun t' mu ht' => ?_
    · have h₁ := hdepth t mu
      have h₂ := htaken mu
      rw [b.depth] at h₁
      simp only [and_true] at h₁
      omega
    · have := hdepth t' mu
      simpa [ht'] using this

/-- The flag is switched with no plain section in sight. -/
theorem Balanced.switch (b : Balanced s) (hs : ∀ t, (s.loc t).plain = [] ∧ (s.loc t).amid = false)
    (have' : Bool) : Balanced (s.move t (s.loc t) { s.mem with usesThreads := have' }) := by
  have hloc : ∀ t', (s.move t (s.loc t) { s.mem with usesThreads := have' }).loc t' = s.loc t' :=
    fun t' => by rw [State.move, Function.update_eq_self]
  refine ⟨fun t' mu => ?_, fun t' => ?_, b.once⟩
  · have h := b.depth t' mu
    rw [hloc]
    simpa [Thread.taken, (hs t').1, Mem.depth] using h
  · have h := b.fits t'
    have hamid := (hs t').2
    rw [hloc]
    unfold Thread.amid at hamid
    unfold Thread.Fits at h ⊢
    split at hamid
    · cases hamid
    · cases hamid
    · cases hamid
    · split <;> simp_all

/-- **One step keeps the balance**, and misuses no mutex. -/
theorem Balanced.step (b : Balanced s) (ha : Steady s t a)
    (hx : exec t a (s.loc t) s.mem = some (th, m, e)) :
    Balanced (s.move t th m) ∧ ∀ mu, e ≠ .misused mu := by
  have goto : ∀ pc, ((s.loc t).goto pc).Fits s.mem.usesThreads → ∀ m', m' = s.mem →
      Balanced (s.move t ((s.loc t).goto pc) m') := by
    rintro pc hf m' rfl
    exact b.move (.same rfl fun _ => rfl) hf
  unfold exec at hx
  split at hx
  next pc hpc =>
    rw [Option.ite_none_right_eq_some] at hx
    obtain ⟨hd, hf, he⟩ := line_does hpc (b.fits t) (b.depth t) hx.2
    exact ⟨b.move hd hf, he⟩
  next hpc =>
    split at hx
    case h_1 have' =>
      obtain ⟨rfl, rfl, rfl⟩ := by simpa using hx
      refine ⟨?_, by simp⟩
      by_cases hsame : have' = s.mem.usesThreads
      · subst hsame
        exact b.move (.same rfl fun _ => rfl) (b.fits t)
      · obtain rfl := Bool.eq_not.mpr hsame
        exact b.switch (ha rfl) _
    case h_2 mu =>
      obtain ⟨rfl, rfl, rfl⟩ := by simpa using hx
      exact ⟨goto (.l137 mu) trivial _ rfl, by simp⟩
    case h_3 mu =>
      obtain ⟨rfl, rfl, rfl⟩ := by simpa using hx
      exact ⟨goto (.l158 mu) trivial _ rfl, by simp⟩
    case h_5 mu =>
      obtain ⟨rfl, rfl, rfl⟩ := by simpa using hx
      exact ⟨goto (.l197 mu) trivial _ rfl, by simp⟩
    case h_4 mu =>
      rw [Option.ite_none_right_eq_some] at hx
      obtain ⟨hmu, hx⟩ := hx
      obtain ⟨rfl, rfl, rfl⟩ := by simpa using hx
      exact ⟨goto (.l175 mu) hmu _ rfl, by simp⟩
    case h_6 =>
      split at hx
      next mu r hr =>
        obtain ⟨rfl, rfl, rfl⟩ := by simpa using hx
        exact ⟨goto (.l200 mu) ⟨r, hr⟩ _ rfl, by simp⟩
      next mu r hr =>
        obtain ⟨rfl, rfl, rfl⟩ := by simpa using hx
        refine ⟨b.move (.same rfl fun mu' => ?_) trivial, by simp⟩
        simp [Thread.taken, Thread.leaveScope, hr]
      next => cases hx
    case h_7 => cases hx

end Step

/-- Only one thread holds a mutex. -/
theorem Mem.depth_unique {m : Mem} {t t' : Tid} {mu : Mid} (ht : 0 < m.depth t mu)
    (ht' : 0 < m.depth t' mu) : t = t' := by
  cases h : m.mLock mu with
  | none => simp [depth, h] at ht
  | some r =>
    by_contra hne
    have h₁ : r.1 = t := by
      by_contra h₁
      simp [depth, h, h₁] at ht
    have h₂ : r.1 = t' := by
      by_contra h₂
      simp [depth, h, h₂] at ht'
    exact hne (h₁.symm.trans h₂)

theorem Mem.depth_le_one {m : Mem} (ho : m.Once) {mu : Mid} (hr : m.recursive mu = false)
    (t : Tid) : m.depth t mu ≤ 1 := by
  cases h : m.mLock mu with
  | none => simp [depth, h]
  | some r =>
    have := ho mu r.1 r.2 h hr
    simp only [depth, h, this, Option.elim_some]
    split <;> simp

/-- **The macros balance.**  In every run in which the flag is switched only while nobody is between
a `THREAD_LOCK` and its `THREAD_UNLOCK`, no mutex is unlocked by a thread that does not hold it;
each is held just as often as sections have locked it; two threads are not in sections that have
locked the same; and once those are left it is free. -/
theorem sections_balanced {uses : Bool} {recursive : Mid → Bool} {s : St}
    {π : List (Transition Tid Thread Mem Act Event)}
    (hp : sections.Path (start uses recursive) π s) (hE : Allowed Steady π) :
    (∀ mu, .misused mu ∉ events π) ∧
      (∀ t mu, s.mem.depth t mu = (s.loc t).taken s.mem.usesThreads mu) ∧
      (∀ t t' mu, 0 < (s.loc t).taken s.mem.usesThreads mu →
        0 < (s.loc t').taken s.mem.usesThreads mu → t = t') ∧
      (∀ t mu, s.mem.recursive mu = false → (s.loc t).taken s.mem.usesThreads mu ≤ 1) ∧
      ∀ mu, (∀ t, (s.loc t).taken s.mem.usesThreads mu = 0) → s.mem.mLock mu = none := by
  obtain ⟨b, hmis⟩ := hp.invariant (fun h s => Balanced s ∧ ∀ mu, .misused mu ∉ h) Steady
    (fun h s t a l m e i ha hx => by
      obtain ⟨b, he⟩ := i.1.step ha hx
      exact ⟨b, fun mu hmu => (List.mem_cons.mp hmu).elim (fun hc => he mu hc.symm) (i.2 mu)⟩)
    hE ⟨start_balanced uses recursive, fun _ => List.not_mem_nil⟩
  refine ⟨hmis, b.depth, fun t t' mu ht ht' => ?_, fun t mu hr => ?_, fun mu hmu => ?_⟩
  · exact Mem.depth_unique (b.depth t mu ▸ ht) (b.depth t' mu ▸ ht')
  · exact b.depth t mu ▸ Mem.depth_le_one b.once hr t
  · by_contra hne
    obtain ⟨r, hr⟩ := Option.ne_none_iff_exists'.mp hne
    have := (b.depth r.1 mu).trans (hmu r.1)
    simp [Mem.depth, hr] at this

/-- The thread calls `THREAD_SCOPED_LOCK` only. -/
def Act.scopes : Act → Bool
  | .lock _ | .trylock _ | .unlock _ => false
  | _ => true

/-- The thread is in no section but those of `THREAD_SCOPED_LOCK`. -/
def Thread.Scoped (th : Thread) : Prop :=
  th.plain = [] ∧ ∀ pc, th.pc = some pc →
    (∃ mu, pc = .l197 mu) ∨ (∃ mu, pc = .l198 mu) ∨ ∃ mu, pc = .l200 mu

theorem Thread.Scoped.amid {th : Thread} (h : th.Scoped) : th.amid = false := by
  have := h.2
  unfold Thread.amid
  split <;> simp_all

/-- One step of a thread that calls nothing else. -/
theorem Thread.Scoped.exec {t : Tid} {a : Act} {th th' : Thread} {m m' : Mem} {e : Event}
    (h : th.Scoped) (ha : a.scopes = true) (hx : exec t a th m = some (th', m', e)) :
    th'.Scoped := by
  obtain ⟨hplain, hpcs⟩ := h
  unfold Sections.exec at hx
  split at hx
  next pc hpc =>
    rw [Option.ite_none_right_eq_some] at hx
    obtain ⟨-, hx⟩ := hx
    rcases hpcs pc hpc with ⟨mu, rfl⟩ | ⟨mu, rfl⟩ | ⟨mu, rfl⟩
    · obtain ⟨rfl, -, -⟩ := by simpa [line] using hx
      split <;> simp [Scoped, goto, enterScope, hplain]
    · obtain ⟨_, rfl, -⟩ := by simpa [line] using hx
      simp [Scoped, enterScope, hplain]
    · rw [line, Option.some.injEq] at hx
      cases hu : m.mutexUnlock t mu <;> rw [hu] at hx <;>
        obtain ⟨rfl, -, -⟩ := Prod.mk.injEq .. ▸ hx <;> simp [Scoped, leaveScope, hplain]
  next =>
    split at hx
    case h_2 | h_3 | h_4 => cases ha
    case h_1 =>
      obtain ⟨rfl, -, -⟩ := by simpa using hx
      exact ⟨hplain, hpcs⟩
    case h_5 mu =>
      obtain ⟨rfl, -, -⟩ := by simpa using hx
      simp [Scoped, goto, hplain]
    case h_6 =>
      split at hx
      next mu r _ =>
        obtain ⟨rfl, -, -⟩ := by simpa using hx
        simp [Scoped, goto, hplain]
      next =>
        obtain ⟨rfl, -, -⟩ := by simpa using hx
        simp [Scoped, leaveScope, hplain]
      next => cases hx
    case h_7 => cases hx

/-- **`THREAD_SCOPED_LOCK` does not mind the switch**: in a run of it alone the flag may be switched
at any time. -/
theorem steady_of_scopes {uses : Bool} {recursive : Mid → Bool} {s : St}
    {π : List (Transition Tid Thread Mem Act Event)}
    (hp : sections.Path (start uses recursive) π s)
    (hE : Allowed (fun _ _ a => a.scopes = true) π) :
    Allowed Steady π ∧ ∀ t, (s.loc t).Scoped := by
  induction hp with
  | nil => exact ⟨allowed_nil _, fun t => ⟨rfl, fun pc h => by cases h⟩⟩
  | @snoc s₁ s₂ π t a e _ hs ih =>
    obtain ⟨ha, hE⟩ := allowed_cons.mp hE
    obtain ⟨hπ, hloc⟩ := ih hE
    obtain ⟨th, m, hx, rfl⟩ := step_eq_some.mp hs
    refine ⟨allowed_cons.mpr ⟨fun _ t' => ⟨(hloc t').1, (hloc t').amid⟩, hπ⟩, ?_⟩
    exact (State.forall_move (A := fun _ th => th.Scoped) s₁ t th m).mpr
      ⟨(hloc t).exec ha hx, fun t' _ => hloc t'⟩

/-- The condition, checked on the threads below `n`. -/
def SteadyBelow (n : ℕ) (s : St) (_ : Tid) (a : Act) : Prop :=
  a = .setUsingThreads (!s.mem.usesThreads) →
    ∀ t ∈ List.range n, (s.loc t).plain = [] ∧ (s.loc t).amid = false

instance {n : ℕ} {s : St} {t : Tid} {a : Act} : Decidable (SteadyBelow n s t a) := by
  unfold SteadyBelow
  infer_instance

theorem steady_of_below {n : ℕ} {s : St} {t : Tid} {a : Act}
    (hs : ∀ t', ¬ t' < n → s.loc t' = ⟨none, [], []⟩) (h : SteadyBelow n s t a) : Steady s t a := by
  intro ha t'
  by_cases hn : t' < n
  · exact h ha t' (List.mem_range.mpr hn)
  · rw [hs t' hn]
    exact ⟨rfl, rfl⟩

/-- Thread 0 is in the action of a `THREAD_SCOPED_LOCK` while the flag goes up; thread 1 locks the
same mutex twice, and thread 2 tries in vain, having set the flag to what it is. -/
def switched : List (Tid × Act) :=
  [(0, .scoped 7), (0, .run), (1, .setUsingThreads true), (1, .lock 7), (1, .run), (1, .run),
    (1, .lock 7), (1, .run), (1, .run), (0, .actionEnd), (2, .setUsingThreads true),
    (2, .trylock 7), (2, .run), (2, .run), (1, .unlock 7), (1, .run), (1, .run)]

theorem sections_balanced_switched :
    ∃ s π, sections.Path (start false fun _ => true) π s ∧ .tried 1 ∈ events π ∧
      (s.loc 1).plain = [7] ∧ s.mem.depth 1 7 = 1 ∧ ∀ mu, .misused mu ∉ events π := by
  obtain ⟨s, π, hp, hA, hE, htried, hplain, htaken⟩ := exists_path_of_run (p := sections)
    (s := start false fun _ => true) switched (P := fun s π => (∀ x ∈ π, x.tid < 3) ∧
      Allowed (SteadyBelow 3) π ∧ .tried 1 ∈ events π ∧ (s.loc 1).plain = [7] ∧
      (s.loc 1).taken s.mem.usesThreads 7 = 1) (by decide)
  obtain ⟨hmis, hdepth, -⟩ := sections_balanced hp
    (hp.allowed_of_acting (A := (· < 3)) hA (fun _ _ _ hs h => steady_of_below hs h) hE)
  exact ⟨s, π, hp, htried, hplain, (hdepth 1 7).trans htaken, hmis⟩

end Libult.Usage.Sections
