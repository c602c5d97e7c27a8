import Libult.Interleaving.Points
import Mathlib.Data.Sigma.Basic

/-!
# Usage/Atomics — the operations of `thread_usage.h`, atomic or plain

Each operation tests `using_threads()` once, and then either is one call of an `atomic_…` function
or reads and writes its variable in plain code.  As long as nobody comes to a variable that another
thread is half-way through in plain code, the two cannot be told apart: a run, read at its points,
is a run of variables on which every operation is one step.

    test ─┬─▸ atomic ●────────────────▸ back
          ╰─▸ load ─┬─▸ store ● ─▸ result ─▸ back
                    ╰─▸ reload ● ────▸ back          (compare_exchange, not equal)
-/

namespace Libult.Usage

open Interleaving Program

/-- A thread. -/
abbrev Tid := ℕ

/-- The address of a variable. -/
abbrev Addr := ℕ

variable {w : ℕ}

/-! ## The operations -/

/-- The operators that `THREAD_DEFINE_ATOMIC_OP` is instantiated with. -/
inductive Operator
  | add
  | and
  | or
  | xor
  | sub
  deriving DecidableEq, Repr

/-- What an operator does; a sum that overflows wraps. -/
def Operator.apply (a b : BitVec w) : Operator → BitVec w
  | .add => a + b
  | .and => a &&& b
  | .or => a ||| b
  | .xor => a ^^^ b
  | .sub => a - b

/-- A call of one of the operations, on a variable of `w` bits that is named when it is made. -/
inductive Call (w : ℕ)
  /-- `thread_##name##_fetch_##suffix(addr, delta)`. -/
  | opFetch (operator : Operator) (delta : BitVec w)
  /-- `thread_fetch_##name##_##suffix(addr, delta)`. -/
  | fetchOp (operator : Operator) (delta : BitVec w)
  /-- `thread_compare_exchange_strong_##suffix(addr, compare, value)`, by the value in `compare`. -/
  | compareExchangeStrong (compare value : BitVec w)
  /-- `thread_swap_##suffix(ptr, newvalue)`. -/
  | swap (newvalue : BitVec w)
  deriving DecidableEq, Repr

/-- What a call gives back: its value, and whether it compared equal; the value of a
`compare_exchange` is what it leaves in `compare`. -/
structure Ret (w : ℕ) where
  ok : Bool
  value : BitVec w
  deriving DecidableEq, Repr

/-- **What a call does** to a variable that is `v`: what it gives back and what it leaves there. -/
def Call.effect (v : BitVec w) : Call w → Ret w × BitVec w
  | opFetch o delta => (⟨true, o.apply v delta⟩, o.apply v delta)
  | fetchOp o delta => (⟨true, v⟩, o.apply v delta)
  | compareExchangeStrong compare value =>
      if v = compare then (⟨true, compare⟩, value) else (⟨false, v⟩, v)
  | swap newvalue => (⟨true, v⟩, newvalue)

/-! ## The atomic functions -/

/-- **The functions of `opal/sys/atomic.h`**: what each gives back, and leaves of a variable that is
`v`. -/
structure Primitives where
  /-- `atomic_##name##_fetch_##suffix`. -/
  opFetch : ∀ {w : ℕ}, Operator → (v delta : BitVec w) → BitVec w × BitVec w
  /-- `atomic_fetch_##name##_##suffix`. -/
  fetchOp : ∀ {w : ℕ}, Operator → (v delta : BitVec w) → BitVec w × BitVec w
  /-- `atomic_compare_exchange_strong_##suffix`. -/
  compareExchangeStrong : ∀ {w : ℕ}, (v compare value : BitVec w) → Ret w × BitVec w
  /-- `atomic_swap_##suffix`. -/
  swap : ∀ {w : ℕ}, (v newvalue : BitVec w) → BitVec w × BitVec w

/-- **What is documented of them**: an `op_fetch` gives back the new value and a `fetch_op` the old
one; a `compare_exchange` stores its value if the variable is what it compares with, and else loads
the variable; a `swap` gives back the old value. -/
structure Primitives.Documented (p : Primitives) : Prop where
  opFetch : ∀ {w : ℕ} (o : Operator) (v delta : BitVec w),
    p.opFetch o v delta = (o.apply v delta, o.apply v delta)
  fetchOp : ∀ {w : ℕ} (o : Operator) (v delta : BitVec w),
    p.fetchOp o v delta = (v, o.apply v delta)
  exchanged : ∀ {w : ℕ} (v value : BitVec w),
    p.compareExchangeStrong v v value = (⟨true, v⟩, value)
  notExchanged : ∀ {w : ℕ} {v compare : BitVec w} (value : BitVec w), v ≠ compare →
    p.compareExchangeStrong v compare value = (⟨false, v⟩, v)
  swap : ∀ {w : ℕ} (v newvalue : BitVec w), p.swap v newvalue = (v, newvalue)

/-- The call of the atomic function. -/
def Call.atomic (p : Primitives) (v : BitVec w) : Call w → Ret w × BitVec w
  | opFetch o delta => ((⟨true, (p.opFetch o v delta).1⟩), (p.opFetch o v delta).2)
  | fetchOp o delta => ((⟨true, (p.fetchOp o v delta).1⟩), (p.fetchOp o v delta).2)
  | compareExchangeStrong compare value => p.compareExchangeStrong v compare value
  | swap newvalue => ((⟨true, (p.swap v newvalue).1⟩), (p.swap v newvalue).2)

theorem Primitives.Documented.atomic_eq {p : Primitives} (hp : p.Documented) (c : Call w)
    (v : BitVec w) : c.atomic p v = c.effect v := by
  cases c with
  | opFetch o delta => rw [Call.atomic, hp.opFetch, Call.effect]
  | fetchOp o delta => rw [Call.atomic, hp.fetchOp, Call.effect]
  | compareExchangeStrong compare value =>
    rw [Call.atomic, Call.effect]
    split
    next h => rw [h, hp.exchanged]
    next h => rw [hp.notExchanged value h]
  | swap newvalue => rw [Call.atomic, hp.swap, Call.effect]

/-! ## The instances -/

def threadAddFetch32 : BitVec 32 → Call 32 := .opFetch .add
def threadAndFetch32 : BitVec 32 → Call 32 := .opFetch .and
def threadOrFetch32 : BitVec 32 → Call 32 := .opFetch .or
def threadXorFetch32 : BitVec 32 → Call 32 := .opFetch .xor
def threadSubFetch32 : BitVec 32 → Call 32 := .opFetch .sub
def threadFetchAdd32 : BitVec 32 → Call 32 := .fetchOp .add
def threadFetchAnd32 : BitVec 32 → Call 32 := .fetchOp .and
def threadFetchOr32 : BitVec 32 → Call 32 := .fetchOp .or
def threadFetchXor32 : BitVec 32 → Call 32 := .fetchOp .xor
def threadFetchSub32 : BitVec 32 → Call 32 := .fetchOp .sub
def threadCompareExchangeStrong32 : BitVec 32 → BitVec 32 → Call 32 := .compareExchangeStrong
def threadSwap32 : BitVec 32 → Call 32 := .swap

def threadAddFetch64 : BitVec 64 → Call 64 := .opFetch .add
def threadAndFetch64 : BitVec 64 → Call 64 := .opFetch .and
def threadOrFetch64 : BitVec 64 → Call 64 := .opFetch .or
def threadXorFetch64 : BitVec 64 → Call 64 := .opFetch .xor
def threadSubFetch64 : BitVec 64 → Call 64 := .opFetch .sub
def threadFetchAdd64 : BitVec 64 → Call 64 := .fetchOp .add
def threadFetchAnd64 : BitVec 64 → Call 64 := .fetchOp .and
def threadFetchOr64 : BitVec 64 → Call 64 := .fetchOp .or
def threadFetchXor64 : BitVec 64 → Call 64 := .fetchOp .xor
def threadFetchSub64 : BitVec 64 → Call 64 := .fetchOp .sub
def threadCompareExchangeStrong64 : BitVec 64 → BitVec 64 → Call 64 := .compareExchangeStrong
def threadSwap64 : BitVec 64 → Call 64 := .swap

section Word

/-! `size_t` and `intptr_t` are `w` bits wide. -/

def threadAddFetchSizeT : BitVec w → Call w := .opFetch .add
def threadSubFetchSizeT : BitVec w → Call w := .opFetch .sub
def threadFetchAddSizeT : BitVec w → Call w := .fetchOp .add
def threadFetchSubSizeT : BitVec w → Call w := .fetchOp .sub
def threadCompareExchangeStrongPtr : BitVec w → BitVec w → Call w := .compareExchangeStrong
def threadSwapPtr : BitVec w → Call w := .swap

end Word

/-! ## The code -/

variable {width : Addr → ℕ}

/-- The variables, each of its own width, and the flag. -/
structure Mem (width : Addr → ℕ) where
  cell : ∀ x, BitVec (width x)
  usesThreads : Bool

def Mem.write (m : Mem width) (x : Addr) (v : BitVec (width x)) : Mem width :=
  { m with cell := Function.update m.cell x v }

/-- The lines of an operation; `old` is what it has read. -/
inductive Pc (w : ℕ)
  | test -- 65, 75, 87, 105: if (UNLIKELY(using_threads()))
  | atomic -- 66, 76, 88, 106: return atomic_…;
  | load -- 69: …*addr operator delta; 79, 109: old = *addr; 92: if ((type)*addr == *compare)
  | store (old : BitVec w) -- 69: *addr = …; 80: *addr = old operator delta; 93, 110
  | reload -- 97: *compare = ((type *)addr)[0]; return false;
  | result (old : BitVec w) -- 70: return *addr; 81, 112: return old; 94: return true;
  deriving DecidableEq, Repr

/-- Where the first reading leads. -/
def Call.branch (v : BitVec w) : Call w → Pc w
  | compareExchangeStrong compare _ => if v = compare then .store v else .reload
  | _ => .store v

/-- What is stored. -/
def Call.stored (old : BitVec w) : Call w → BitVec w
  | opFetch o delta | fetchOp o delta => o.apply old delta
  | compareExchangeStrong _ value => value
  | swap newvalue => newvalue

/-- What is given back once it is stored, the variable being `now`. -/
def Call.returned (old now : BitVec w) : Call w → Ret w
  | opFetch _ _ => ⟨true, now⟩
  | fetchOp _ _ | swap _ => ⟨true, old⟩
  | compareExchangeStrong compare _ => ⟨true, compare⟩

/-- Where a thread is. -/
inductive Loc (width : Addr → ℕ)
  | idle
  | call (x : Addr) (c : Call (width x)) (pc : Pc (width x))
  /-- About to return. -/
  | back (x : Addr) (r : Ret (width x))
  deriving DecidableEq, Repr

/-- One line of a call on the variable `x`. -/
def Call.line (p : Primitives) (x : Addr) (c : Call (width x)) (m : Mem width) :
    Pc (width x) → Loc width × Mem width
  | .test => (.call x c (if m.usesThreads then .atomic else .load), m)
  | .atomic => (.back x (c.atomic p (m.cell x)).1, m.write x (c.atomic p (m.cell x)).2)
  | .load => (.call x c (c.branch (m.cell x)), m)
  | .store old => (.call x c (.result old), m.write x (c.stored old))
  | .reload => (.back x ⟨false, m.cell x⟩, m)
  | .result old => (.back x (c.returned old (m.cell x)), m)

/-- What a thread can do next. -/
inductive Act (width : Addr → ℕ)
  | call (x : Addr) (c : Call (width x))
  /-- `set_using_threads(have)`. -/
  | setUsingThreads (have' : Bool)
  | run
  deriving DecidableEq, Repr

/-- One action of one thread. -/
def exec (p : Primitives) (_ : Tid) (a : Act width) (l : Loc width) (m : Mem width) :
    Option (Loc width × Mem width × Unit) :=
  match a, l with
  | .call x c, .idle => some (.call x c .test, m, ())
  | .setUsingThreads have', .idle => some (.idle, { m with usesThreads := have' }, ())
  | .run, .call x c pc => some ((c.line p x m pc).1, (c.line p x m pc).2, ())
  | .run, .back _ _ => some (.idle, m, ())
  | _, _ => none

/-- **The operations of `thread_usage.h`** as a program, over the atomic functions `p`. -/
def atomics (p : Primitives) (width : Addr → ℕ) :
    Program Tid (Loc width) (Mem width) (Act width) Unit := ⟨exec p⟩

/-- A state of it. -/
abbrev St (width : Addr → ℕ) := State Tid (Loc width) (Mem width)

/-- Nobody in a call. -/
def start (m : Mem width) : St width := ⟨fun _ => .idle, m⟩

/-! ## Variables with one-step operations -/

/-- Where a client of the variables is. -/
inductive Client (width : Addr → ℕ)
  | idle
  | invoked (x : Addr) (c : Call (width x))
  | done (x : Addr) (r : Ret (width x))
  deriving DecidableEq, Repr

inductive Op (width : Addr → ℕ)
  | invoke (x : Addr) (c : Call (width x))
  /-- The operation takes effect. -/
  | take
  | back (x : Addr) (r : Ret (width x))
  deriving DecidableEq, Repr

namespace Client

/-- One step of one client. -/
def exec (_ : Tid) (b : Op width) (l : Client width) (cell : ∀ x, BitVec (width x)) :
    Option (Client width × (∀ x, BitVec (width x)) × Unit) :=
  match b, l with
  | .invoke x c, .idle => some (.invoked x c, cell, ())
  | .take, .invoked x c =>
      some (.done x (c.effect (cell x)).1, Function.update cell x (c.effect (cell x)).2, ())
  | .back x r, .done x' r' =>
      if (⟨x, r⟩ : Σ x, Ret (width x)) = ⟨x', r'⟩ then some (.idle, cell, ()) else none
  | _, _ => none

end Client

/-- **The variables**, every operation on them one step. -/
def cells (width : Addr → ℕ) :
    Program Tid (Client width) (∀ x, BitVec (width x)) (Op width) Unit := ⟨Client.exec⟩

/-! ## The code as its caller sees it -/

/-- After its store a call is done, with what it will read back. -/
def Loc.client (cell : ∀ x, BitVec (width x)) : Loc width → Client width
  | .idle => .idle
  | .call x c (.result old) => .done x (c.returned old (cell x))
  | .call x c _ => .invoked x c
  | .back x r => .done x r

/-- **The view of the caller.** -/
def cellsOf (s : St width) : State Tid (Client width) (∀ x, BitVec (width x)) :=
  ⟨fun t => (s.loc t).client s.mem.cell, s.mem.cell⟩

/-- **The points**: where an operation takes effect. -/
def point (s : St width) (t : Tid) (a : Act width) : Option (Op width) :=
  match a, s.loc t with
  | .call x c, _ => some (.invoke x c)
  | .run, .call _ _ .atomic | .run, .call _ _ (.store _) | .run, .call _ _ .reload => some .take
  | .run, .back x r => some (.back x r)
  | _, _ => none

/-- The variable that a thread is half-way through in plain code. -/
def Loc.amid : Loc width → Option Addr
  | .call x _ (.store _) | .call x _ .reload => some x
  | .call x (.opFetch _ _) (.result _) => some x
  | _ => none

/-- The variable that a thread's next line comes to. -/
def Loc.comes : Loc width → Option Addr
  | .call x _ .atomic | .call x _ .load => some x
  | _ => none

/-- **Nobody comes to a variable that another thread is half-way through.** -/
def Apart (s : St width) (t : Tid) (a : Act width) : Prop :=
  a = .run → ∀ x ∈ (s.loc t).comes, ∀ t' ≠ t, (s.loc t').amid ≠ some x

/-! ## The plain code amounts to the atomic operation -/

section Line

variable {p : Primitives} {x y : Addr} {c : Call (width x)} {m : Mem width} {pc : Pc (width x)}
  {cell cell' : ∀ x, BitVec (width x)} {l : Loc width}

theorem Call.branch_eq (c : Call w) (v : BitVec w) :
    c.branch v = .store v ∨ c.branch v = .reload := by
  cases c with
  | compareExchangeStrong compare value => by_cases h : v = compare <;> simp [branch, h]
  | _ => exact .inl rfl

/-- What is read, stored and read back. -/
theorem Call.effect_of_store {c : Call w} {v : BitVec w} (h : c.branch v = .store v) :
    c.effect v = (c.returned v (c.stored v), c.stored v) := by
  cases c with
  | compareExchangeStrong compare value =>
    have hv : v = compare := by
      by_contra hne
      simp [branch, hne] at h
    exact if_pos hv
  | _ => rfl

/-- A comparison that fails leaves the variable as it is. -/
theorem Call.effect_of_reload {c : Call w} {v : BitVec w} (h : c.branch v = .reload) :
    c.effect v = (⟨false, v⟩, v) := by
  cases c with
  | compareExchangeStrong compare value =>
    have hv : v ≠ compare := by
      rintro rfl
      simp [branch] at h
    exact if_neg hv
  | _ => cases h

/-- **What has been read is still so.** -/
def Fits (cell : ∀ x, BitVec (width x)) : Loc width → Prop
  | .call x c (.store old) => old = cell x ∧ c.branch old = .store old
  | .call x c .reload => c.branch (cell x) = .reload
  | _ => True

/-- **Only the variable that a thread is half-way through matters to it.** -/
theorem Fits.congr (h : Fits cell l) (hl : ∀ x ∈ l.amid, cell' x = cell x) : Fits cell' l := by
  unfold Fits at h ⊢
  split at h
  · exact ⟨h.1.trans (hl _ rfl).symm, h.2⟩
  · rwa [hl _ rfl]
  · trivial

theorem Loc.client_congr (hl : ∀ x ∈ l.amid, cell' x = cell x) :
    l.client cell' = l.client cell := by
  cases l with
  | call x c pc =>
    cases pc with
    | result old =>
      cases c with
      | opFetch o delta => simp only [client, Call.returned, hl x rfl]
      | _ => rfl
    | _ => rfl
  | _ => rfl

/-- **A line that is no point** changes nothing that its caller sees. -/
theorem Call.line_quiet (hpc : pc = .test ∨ pc = .load ∨ ∃ old, pc = .result old) :
    (c.line p x m pc).2 = m ∧
      (c.line p x m pc).1.client (c.line p x m pc).2.cell = (Loc.call x c pc).client m.cell := by
  rcases hpc with rfl | rfl | ⟨old, rfl⟩
  · refine ⟨rfl, ?_⟩
    cases h : m.usesThreads <;> simp [line, Loc.client, h]
  · refine ⟨rfl, ?_⟩
    rcases c.branch_eq (m.cell x) with h | h <;> simp [line, Loc.client, h]
  · exact ⟨rfl, rfl⟩

/-- **A line that is one** is the operation. -/
theorem Call.line_takes (hd : p.Documented)
    (hpc : pc = .atomic ∨ pc = .reload ∨ ∃ old, pc = .store old)
    (hf : Fits m.cell (.call x c pc)) :
    (c.line p x m pc).2.cell = Function.update m.cell x (c.effect (m.cell x)).2 ∧
      (c.line p x m pc).1.client (c.line p x m pc).2.cell = .done x (c.effect (m.cell x)).1 := by
  rcases hpc with rfl | rfl | ⟨old, rfl⟩
  · rw [← hd.atomic_eq]
    exact ⟨rfl, rfl⟩
  · have h : c.branch (m.cell x) = .reload := hf
    rw [effect_of_reload h]
    exact ⟨(Function.update_eq_self ..).symm, rfl⟩
  · obtain ⟨rfl, h⟩ := hf
    rw [effect_of_store h]
    refine ⟨rfl, ?_⟩
    simp [line, Loc.client, Mem.write]

/-- What the line makes the thread be half-way through. -/
theorem Call.line_amid (hy : (c.line p x m pc).1.amid = some y) :
    (Loc.call x c pc).amid = some y ∨ (Loc.call x c pc).comes = some y := by
  cases pc with
  | test => cases h : m.usesThreads <;> simp [line, Loc.amid, h] at hy
  | load =>
    rcases c.branch_eq (m.cell x) with h | h <;>
      exact .inr (by simpa [line, Loc.amid, Loc.comes, h] using hy)
  | store old =>
    cases c with
    | opFetch o delta => exact .inl hy
    | _ => cases hy
  | _ => cases hy

/-- What the line leaves to do rests on what it has read. -/
theorem Call.line_fits (h : Fits m.cell (.call x c pc)) :
    Fits (c.line p x m pc).2.cell (c.line p x m pc).1 := by
  cases pc with
  | test => cases h : m.usesThreads <;> simp [line, Fits, h]
  | load => rcases c.branch_eq (m.cell x) with h | h <;> simp [line, Fits, h]
  | _ => trivial

/-- A line writes where its thread is half-way through, or has come to. -/
theorem Call.line_cell (ha : (Loc.call x c pc).amid ≠ some y)
    (hc : (Loc.call x c pc).comes ≠ some y) : (c.line p x m pc).2.cell y = m.cell y := by
  cases pc with
  | atomic =>
    have hy : y ≠ x := fun h => hc (by rw [h]; rfl)
    simp [line, Mem.write, hy]
  | store old =>
    have hy : y ≠ x := fun h => ha (by rw [h]; rfl)
    simp [line, Mem.write, hy]
  | _ => rfl

end Line

/-! ## The invariant -/

/-- **Everybody's readings are good, and two threads are half-way through two variables.** -/
structure Sound (s : St width) : Prop where
  fits : ∀ t, Fits s.mem.cell (s.loc t)
  alone : ∀ t t', t ≠ t' → ∀ x ∈ (s.loc t).amid, (s.loc t').amid ≠ some x

theorem start_sound (m : Mem width) : Sound (start m) :=
  ⟨fun _ => trivial, fun _ _ _ _ h => by cases h⟩

section Step

variable {p : Primitives} {s : St width} {t : Tid} {a : Act width} {l : Loc width} {m : Mem width}
  {e : Unit}

/-- What is common to the steps: the mover comes to nobody else's variable. -/
theorem Sound.move (i : Sound s) (hl : Fits m.cell l)
    (hamid : ∀ x ∈ l.amid, ∀ t' ≠ t, (s.loc t').amid ≠ some x)
    (hcell : ∀ t' ≠ t, ∀ x ∈ (s.loc t').amid, m.cell x = s.mem.cell x) : Sound (s.move t l m) := by
  refine ⟨(State.forall_move s t l m (A := fun _ l => Fits m.cell l)).mpr
    ⟨hl, fun t' ht' => (i.fits t').congr (hcell t' ht')⟩, fun t₁ t₂ hne x hx => ?_⟩
  by_cases h₁ : t₁ = t
  · subst h₁
    rw [State.move_loc_self] at hx
    rw [State.move_loc_of_ne _ _ _ _ hne.symm]
    exact hamid x hx t₂ hne.symm
  · rw [State.move_loc_of_ne _ _ _ _ h₁] at hx
    by_cases h₂ : t₂ = t
    · subst h₂
      rw [State.move_loc_self]
      exact fun h => hamid x h t₁ hne hx
    · rw [State.move_loc_of_ne _ _ _ _ h₂]
      exact i.alone t₁ t₂ hne x hx

/-- The view after a step that leaves alone what the others are half-way through. -/
theorem cellsOf_move (hcell : ∀ t' ≠ t, ∀ x ∈ (s.loc t').amid, m.cell x = s.mem.cell x) :
    cellsOf (s.move t l m) = (cellsOf s).move t (l.client m.cell) m.cell := by
  refine congrArg₂ State.mk (funext fun t' => ?_) rfl
  by_cases ht' : t' = t
  · subst ht'
    simp [cellsOf]
  · rw [Function.update_of_ne ht', State.move_loc_of_ne _ _ _ _ ht']
    exact Loc.client_congr (hcell t' ht')

/-- **One step of a thread** is one of the variables at the points, and none elsewhere. -/
theorem Sound.step (hd : p.Documented) (i : Sound s) (ha : Apart s t a)
    (hx : exec p t a (s.loc t) s.mem = some (l, m, e)) : Sound (s.move t l m) ∧
      (point s t a = none ∧ cellsOf (s.move t l m) = cellsOf s ∨
        ∃ b e', point s t a = some b ∧
          (cells width).step (cellsOf s) t b = some (cellsOf (s.move t l m), e')) := by
  have hf := i.fits t
  have halone := fun t' (hne : t' ≠ t) x => i.alone t t' hne.symm x
  have quiet : l.client m.cell = (s.loc t).client s.mem.cell → m.cell = s.mem.cell →
      cellsOf (s.move t l m) = cellsOf s := fun hc hm => by
    rw [cellsOf_move fun _ _ _ _ => by rw [hm], hc, hm]
    exact (cellsOf s).move_self t
  have takes : ∀ b, (∀ t' ≠ t, ∀ x ∈ (s.loc t').amid, m.cell x = s.mem.cell x) →
      Client.exec t b ((s.loc t).client s.mem.cell) s.mem.cell =
        some (l.client m.cell, m.cell, ()) →
      (cells width).step (cellsOf s) t b = some (cellsOf (s.move t l m), ()) := fun b hcell hexec =>
    step_eq_some.mpr ⟨_, _, hexec, cellsOf_move hcell⟩
  unfold Apart at ha
  generalize hloc : s.loc t = l₀ at hx ha hf halone quiet takes
  unfold exec at hx
  split at hx <;> simp only [Option.some.injEq, Prod.mk.injEq, reduceCtorEq] at hx
  case h_1 x c =>
    obtain ⟨rfl, rfl, -⟩ := hx
    exact ⟨i.move trivial (fun x h => by cases h) fun _ _ _ _ => rfl,
      .inr ⟨.invoke x c, (), rfl, takes _ (fun _ _ _ _ => rfl) rfl⟩⟩
  case h_2 have' =>
    obtain ⟨rfl, rfl, -⟩ := hx
    exact ⟨i.move trivial (fun x h => by cases h) fun _ _ _ _ => rfl, .inl ⟨rfl, quiet rfl rfl⟩⟩
  case h_3 x c pc =>
    obtain ⟨rfl, rfl, -⟩ := hx
    have hcell : ∀ t' ≠ t, ∀ y ∈ (s.loc t').amid, (c.line p x s.mem pc).2.cell y = s.mem.cell y :=
      fun t' ht' y hy => Call.line_cell (fun h => halone t' ht' y h hy)
        fun h => ha rfl y h t' ht' hy
    have hamid : ∀ y ∈ (c.line p x s.mem pc).1.amid, ∀ t' ≠ t, (s.loc t').amid ≠ some y :=
      fun y hy t' ht' => (Call.line_amid hy).elim (halone t' ht' y) fun h => ha rfl y h t' ht'
    refine ⟨i.move (Call.line_fits hf) hamid hcell, ?_⟩
    have hpc : (pc = .test ∨ pc = .load ∨ ∃ old, pc = .result old) ∨
        pc = .atomic ∨ pc = .reload ∨ ∃ old, pc = .store old := by
      cases pc <;> simp
    rcases hpc with hpc | hpc
    · obtain ⟨hm, hc⟩ := Call.line_quiet (p := p) (c := c) (m := s.mem) hpc
      refine .inl ⟨?_, quiet hc (by rw [hm])⟩
      rcases hpc with rfl | rfl | ⟨old, rfl⟩ <;> simp [point, hloc]
    · obtain ⟨hm, hc⟩ := Call.line_takes hd hpc hf
      refine .inr ⟨.take, (), ?_, takes _ hcell ?_⟩
      · rcases hpc with rfl | rfl | ⟨old, rfl⟩ <;> simp [point, hloc]
      · rw [hc, hm]
        rcases hpc with rfl | rfl | ⟨old, rfl⟩ <;> rfl
  case h_4 x r =>
    obtain ⟨rfl, rfl, -⟩ := hx
    refine ⟨i.move trivial (fun x h => by cases h) fun _ _ _ _ => rfl,
      .inr ⟨.back x r, (), by simp [point, hloc], takes _ (fun _ _ _ _ => rfl) (if_pos rfl)⟩⟩

end Step

/-- **Atomic or plain, the operations are the same**: a run in which nobody comes to a variable that
another thread is half-way through in plain code, whatever becomes of `using_threads()` meanwhile,
is, read at its points, a run of variables with one-step operations, what the calls give back
included, if the atomic functions do what is documented of them. -/
theorem refines_cells {p : Primitives} (hd : p.Documented) {m : Mem width} {s : St width}
    {π : List (Transition Tid (Loc width) (Mem width) (Act width) Unit)}
    (hp : (atomics p width).Path (start m) π s) (hE : Allowed Apart π) :
    ∃ ρ, (cells width).Path ⟨fun _ => .idle, m.cell⟩ ρ (cellsOf s) ∧ schedule ρ = points point π :=
  (hp.linearizes (q := cells width) point (fun _ => cellsOf) (fun _ => Sound) Apart
    (fun _ _ _ _ _ _ _ i ha hx => i.step hd ha hx) hE (start_sound m)).2

/-- With threads in use a call goes its atomic way. -/
theorem exec_threads {p : Primitives} {t : Tid} {a : Act width} {l₀ l : Loc width}
    {m₀ m : Mem width} {e : Unit} (hx : exec p t a l₀ m₀ = some (l, m, e))
    (ha : a ≠ .setUsingThreads false) (hu : m₀.usesThreads = true)
    (hpc : ∀ x c pc, l₀ = .call x c pc → pc = .test ∨ pc = .atomic) :
    m.usesThreads = true ∧ ∀ x c pc, l = .call x c pc → pc = .test ∨ pc = .atomic := by
  unfold exec at hx
  split at hx <;> simp only [Option.some.injEq, Prod.mk.injEq, reduceCtorEq] at hx
  case h_1 x c =>
    obtain ⟨rfl, rfl, -⟩ := hx
    exact ⟨hu, fun x c pc h => by cases h; exact .inl rfl⟩
  case h_2 b =>
    obtain ⟨rfl, rfl, -⟩ := hx
    cases b with
    | true => exact ⟨rfl, fun x c pc h => by cases h⟩
    | false => exact absurd rfl ha
  case h_3 x c pc =>
    obtain ⟨rfl, rfl, -⟩ := hx
    rcases hpc x c pc rfl with rfl | rfl
    · refine ⟨hu, fun x' c' pc' h => ?_⟩
      rw [Call.line, hu] at h
      cases h
      exact .inr rfl
    · exact ⟨hu, fun x c pc h => by cases h⟩
  case h_4 =>
    obtain ⟨rfl, rfl, -⟩ := hx
    exact ⟨hu, fun x c pc h => by cases h⟩

/-- **With threads in use throughout** nobody is ever half-way through. -/
theorem apart_of_threads {p : Primitives} {m : Mem width} {s : St width}
    {π : List (Transition Tid (Loc width) (Mem width) (Act width) Unit)}
    (hp : (atomics p width).Path (start m) π s) (hm : m.usesThreads = true)
    (hE : Allowed (fun _ _ a => a ≠ .setUsingThreads false) π) :
    Allowed Apart π ∧ s.mem.usesThreads = true ∧
      ∀ t x c pc, s.loc t = .call x c pc → pc = .test ∨ pc = .atomic := by
  induction hp with
  | nil => exact ⟨allowed_nil _, hm, fun t x c pc h => by cases h⟩
  | @snoc s₁ s₂ π t a e _ hs ih =>
    obtain ⟨ha, hE⟩ := allowed_cons.mp hE
    obtain ⟨hπ, hu, hpc⟩ := ih hE
    obtain ⟨l, m, hx, rfl⟩ := step_eq_some.mp hs
    refine ⟨allowed_cons.mpr ⟨fun _ x _ t' _ h => ?_, hπ⟩, ?_⟩
    · have := hpc t'
      generalize s₁.loc t' = l' at h this
      unfold Loc.amid at h
      split at h
      · exact absurd (this _ _ _ rfl) (by simp)
      · exact absurd (this _ _ _ rfl) (by simp)
      · exact absurd (this _ _ _ rfl) (by simp)
      · cases h
    · obtain ⟨hu', hl⟩ := exec_threads (t := t) hx ha hu (hpc t)
      exact ⟨hu', (State.forall_move s₁ t l m
        (A := fun _ l => ∀ x c pc, l = .call x c pc → pc = .test ∨ pc = .atomic)).mpr
        ⟨hl, fun t' _ => hpc t'⟩⟩

/-- A lone thread is apart from everybody. -/
theorem apart_of_alone {p : Primitives} {m : Mem width} {s : St width}
    {π : List (Transition Tid (Loc width) (Mem width) (Act width) Unit)}
    (hp : (atomics p width).Path (start m) π s) {t : Tid} (ht : ∀ x ∈ π, x.tid = t) :
    Allowed Apart π := by
  refine fun x hx ha y _ t' ht' h => ?_
  rw [(hp.untouched (A := (· = t)) ht).2 x hx t' (ht x hx ▸ ht')] at h
  cases h

/-- The condition, checked on the threads below `n`. -/
def ApartBelow (n : ℕ) (s : St width) (t : Tid) (a : Act width) : Prop :=
  a = .run → ∀ x ∈ (s.loc t).comes, ∀ t' ∈ List.range n, t' ≠ t → (s.loc t').amid ≠ some x

instance {n : ℕ} {s : St width} {t : Tid} {a : Act width} : Decidable (ApartBelow n s t a) := by
  unfold ApartBelow
  infer_instance

theorem apart_of_below {n : ℕ} {s : St width} {t : Tid} {a : Act width}
    (hs : ∀ t', ¬ t' < n → s.loc t' = .idle) (h : ApartBelow n s t a) : Apart s t a := by
  intro ha x hx t' ht'
  by_cases hn : t' < n
  · exact h ha x hx t' (List.mem_range.mpr hn) ht'
  · rw [hs t' hn]
    exact nofun

/-- Atomic functions that do what is documented of them. -/
def standard : Primitives where
  opFetch o v delta := (o.apply v delta, o.apply v delta)
  fetchOp o v delta := (v, o.apply v delta)
  compareExchangeStrong v compare value :=
    if v = compare then (⟨true, compare⟩, value) else (⟨false, v⟩, v)
  swap v newvalue := (v, newvalue)

theorem standard_documented : standard.Documented :=
  ⟨fun _ _ _ => rfl, fun _ _ _ => rfl, fun _ _ => if_pos rfl, fun _ h => if_neg h, fun _ _ => rfl⟩

/-- A variable of 64 bits, the others of 32. -/
def widths : Addr → ℕ
  | 1 => 64
  | _ => 32

/-- Two threads in plain code on two variables, one of whom then sets the flag. -/
def plainThenAtomic : List (Tid × Act widths) :=
  [(0, .call 0 (threadAddFetch32 5)), (0, .run), (0, .run),
    (1, .call 1 (threadCompareExchangeStrong64 7 9)), (1, .run), (1, .run), (0, .run), (1, .run),
    (0, .run), (0, .run), (1, .run), (1, .setUsingThreads true),
    (1, .call 0 (threadFetchAdd32 1)), (1, .run), (1, .run), (1, .run)]

/-- What its callers see. -/
def plainThenAtomicSeen : List (Tid × Op widths) :=
  [(1, .back 0 ⟨true, 5⟩), (1, .take), (1, .invoke 0 (threadFetchAdd32 1)),
    (1, .back 1 ⟨false, 0⟩), (0, .back 0 ⟨true, 5⟩), (1, .take), (0, .take),
    (1, .invoke 1 (threadCompareExchangeStrong64 7 9)), (0, .invoke 0 (threadAddFetch32 5))]

theorem refines_cells_switch :
    ∃ s π ρ, (atomics standard widths).Path (start ⟨fun _ => 0, false⟩) π s ∧
      (cells widths).Path ⟨fun _ => .idle, fun _ => 0⟩ ρ (cellsOf s) ∧
      schedule ρ = plainThenAtomicSeen := by
  obtain ⟨s, π, hp, hA, hE, hpoints⟩ := exists_path_of_run (p := atomics standard widths)
    (s := start ⟨fun _ => 0, false⟩) plainThenAtomic (P := fun _ π => (∀ x ∈ π, x.tid < 2) ∧
      Allowed (ApartBelow 2) π ∧ points point π = plainThenAtomicSeen) (by decide)
  obtain ⟨ρ, hρ, hs⟩ := refines_cells standard_documented hp
    (hp.allowed_of_acting (A := (· < 2)) hA (fun _ _ _ hs h => apart_of_below hs h) hE)
  exact ⟨s, π, ρ, hp, hρ, hs.trans hpoints⟩

end Libult.Usage
