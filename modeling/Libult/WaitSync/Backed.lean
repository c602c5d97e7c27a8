import Libult.WaitSync.Calls

/-!
# WaitSync/Backed — on the qthreads backend the module does what it does on monitors

`uses_monitor` and `refines_monitor` put together.  A run of the module over the code of the
backend, read where the module's own lines are executed and where a call of the backend takes
effect, is a run of the module as it is modelled by itself: its locks and sleepers are those of the
monitors that the backends stand for.

    OnQthreads   l83 ─▸ l108 ● ─▸ … ─▸ l125 ● l91 ─▸      l53 ─▸ l147 ● ─▸ … ─▸ l157 ─▸ l54
    WaitSync     l83         ● l83w          ● l91         l53         ● l54
-/

namespace Libult.WaitSync

open Interleaving Program Qthreads

namespace OnQthreads

/-! ## The module as it is by itself -/

/-- Where a thread is in the backend of `S`. -/
def Loc.on (S : Sid) (l : Loc) : Qthreads.Loc :=
  match l.entered with
  | some c => if c.sync = S then c.loc else .idle
  | none => .idle

/-- The backend of `S`. -/
def backendOf (S : Sid) (s : St) : Qthreads.St := ⟨fun t => (s.loc t).on S, s.mem.backend S⟩

/-- What the backend of `S` has shown. -/
def lines (S : Sid) (h : List Event) : List (Qthreads.Event Addr) :=
  h.filterMap fun e => e.line.bind fun r => if r.1 = S then some r.2 else none

/-- The monitor that the backend of `S` stands for. -/
def monitorAt (h : List Event) (s : St) (S : Sid) : Monitor :=
  (monitorView (lines S h) (backendOf S s)).mem

/-- Where a thread is in the module by itself: a wait sleeps from its first line on, a signal is
given at its first. -/
def Loc.seen (l : Loc) : Thread :=
  match l.entered with
  | none => l.thread
  | some c =>
    match c.loc with
    | .wait _ _ pc => if pc = .l108 then l.thread else ⟨.wait c.sync .l83w, .idle⟩
    | .signal pc => if pc = .l147 then l.thread else c.next
    | _ => l.thread

/-- **The view of the module by itself.** -/
def view (h : List Event) (s : St) : WaitSync.St :=
  ⟨fun t => (s.loc t).seen, s.mem.syncs.backed (monitorAt h s)⟩

/-- **The points**: the module's own lines, and where a call of the backend takes effect. -/
def point (s : St) (t : Tid) (a : Act) : Option WaitSync.Act :=
  match a, (s.loc t).entered with
  | .own a, _ => some a
  | .call k, _ => ((s.loc t).thread.prim s.mem.syncs.waitSyncList).bind fun r =>
      (Qthreads.point (backendOf r.2.1 s) t (r.1.act k r.2.1)).map fun _ => .run
  | .line, some c => (Qthreads.point (backendOf c.sync s) t .run).map fun _ => .run
  | _, _ => none

section Backend

variable {s : St} {t : Tid} {S X : Sid} {h : List Event} {th next : Thread} {b : Qthreads.Act}
  {l : Qthreads.Loc} {L : Loc} {m : Mem} {e : Event}

@[simp] theorem Loc.on_goes : (Loc.goes th next S l).on X = if X = S then l else .idle := by
  by_cases hl : l = .idle
  · simp [goes, on, hl]
  · simp [goes, on, hl, eq_comm]

/-- A backend in which a thread has moved. -/
theorem backendOf_move {l' : Qthreads.Loc} {n : Qthreads.Mem}
    (hL : ∀ X, L.on X = if X = S then l' else .idle)
    (hl : ∀ X, (s.loc t).on X = if X = S then l else .idle) :
    backendOf X (s.move t L ⟨s.mem.syncs, Function.update s.mem.backend S n⟩) =
      if X = S then (backendOf S s).move t l' n else backendOf X s := by
  split
  · subst ‹X = S›
    refine congrArg₂ State.mk (funext fun t' => ?_) (Function.update_self ..)
    by_cases ht : t' = t
    · subst ht
      simp [backendOf, hL]
    · simp [backendOf, ht, State.move_loc_of_ne]
  · refine congrArg₂ State.mk (funext fun t' => ?_) (Function.update_of_ne ‹X ≠ S› ..)
    by_cases ht : t' = t
    · subst ht
      simp [hL, hl, ‹X ≠ S›]
    · simp [ht, State.move_loc_of_ne]

/-- What every backend and its history keep. -/
def Sound (h : List Event) (s : St) : Prop := ∀ X, ∃ f, Refines f (lines X h) (backendOf X s)

/-- The mover's backend, before and after. -/
theorem lines_cons {e₀ : Qthreads.Event Addr} (he : e.line = some (S, e₀)) :
    lines X (e :: h) = if X = S then e₀ :: lines X h else lines X h := by
  by_cases hX : X = S
  · subst hX
    simp [lines, he]
  · simp [lines, he, hX, Ne.symm hX]

/-- **One action in a backend**: the monitor of its sync takes an operation at the points of the
backend, and no monitor takes one elsewhere. -/
theorem Sound.inBackend (r : Sound h s) (hl : ∀ X, (s.loc t).on X = if X = S then l else .idle)
    (hx : inBackend t th next S b l s.mem = some (L, m, e)) :
    ∃ l' n e₀, Qthreads.exec t b l (s.mem.backend S) = some (l', n, e₀) ∧
      L = .goes th next S l' ∧ m = ⟨s.mem.syncs, Function.update s.mem.backend S n⟩ ∧
      e.shown = th.shows ∧ Sound (e :: h) (s.move t L m) ∧
      (Qthreads.point (backendOf S s) t b = none ∧
          monitorAt (e :: h) (s.move t L m) = monitorAt h s ∨
        ∃ op N, Qthreads.point (backendOf S s) t b = some op ∧
          Monitor.exec t op l.client (monitorAt h s S) = some (l'.client, N, ()) ∧
          monitorAt (e :: h) (s.move t L m) = Function.update (monitorAt h s) S N) := by
  obtain ⟨⟨l', n, e₀⟩, hq, hr⟩ := Option.map_eq_some_iff.mp hx
  obtain ⟨rfl, rfl, rfl⟩ : _ = L ∧ _ = m ∧ _ = e := by simpa using hr
  have hloc : (backendOf S s).loc t = l := (hl S).trans (if_pos rfl)
  have hon : ∀ X, (Loc.goes th next S l').on X = if X = S then l' else .idle := fun X =>
    Loc.on_goes
  have hbk := fun X => backendOf_move (s := s) (t := t) (X := X) (n := n) hon hl
  have hli := fun X => lines_cons (h := h) (X := X) (S := S) (e := ⟨th.shows, some (S, e₀)⟩) rfl
  obtain ⟨f, rS⟩ := r S
  have hq' : Qthreads.exec t b ((backendOf S s).loc t) (backendOf S s).mem = some (l', n, e₀) :=
    hloc ▸ hq
  obtain ⟨f', rS'⟩ := rS.step (Qthreads.moves_of_exec hq')
  have hsound : Sound (⟨th.shows, some (S, e₀)⟩ :: h) (s.move t (.goes th next S l')
      ⟨s.mem.syncs, Function.update s.mem.backend S n⟩) := fun X => by
    rw [hbk, hli]
    by_cases hX : X = S
    · subst hX
      simpa using ⟨f', rS'⟩
    · simpa [hX] using r X
  -- only the monitor of `S` changes
  have hmon : monitorAt (⟨th.shows, some (S, e₀)⟩ :: h) (s.move t (.goes th next S l')
      ⟨s.mem.syncs, Function.update s.mem.backend S n⟩) = Function.update (monitorAt h s) S
        (monitorView (e₀ :: lines S h) ((backendOf S s).move t l' n)).mem := by
    funext X
    rw [monitorAt, hbk, hli]
    by_cases hX : X = S
    · subst hX
      simp
    · simp [hX, monitorAt]
  refine ⟨l', n, e₀, hq, rfl, rfl, rfl, hsound, ?_⟩
  obtain ⟨hnone, hview⟩ | ⟨op, _, hop, hstep⟩ := rS.points hq' rS'
  · refine .inl ⟨hnone, ?_⟩
    rw [hmon, hview]
    exact Function.update_eq_self ..
  · obtain ⟨c', N, hN, hs⟩ := step_eq_some.mp hstep
    have hmem : (monitorView (e₀ :: lines S h) ((backendOf S s).move t l' n)).mem = N :=
      congrArg State.mem hs
    have hc : l'.client = c' := by
      have := congrFun (congrArg State.loc hs) t
      simpa [monitorView, clients] using this
    have hcl : (monitorView (lines S h) (backendOf S s)).loc t = l.client :=
      congrArg Qthreads.Loc.client hloc
    rw [hcl] at hN
    exact .inr ⟨op, N, hop, hc ▸ hN, hmem ▸ hmon⟩

/-! ## What every run keeps -/

/-- The line of the backend is one of the call the thread is in. -/
def comesTo (S : Sid) : Prim → Qthreads.Loc → Prop
  | .wait, .wait _ mu _ => mu = S
  | .signal, .signal _ => True
  | _, _ => False

/-- **A call in progress**: of a line of the module, on a sync that has been initialised. -/
structure Entered.Fits (c : Entered) (th : Thread) (syncs : WaitSync.Mem) : Prop where
  calls : ∃ p, th.prim syncs.waitSyncList = some (p, c.sync, c.next) ∧ comesTo c.sync p c.loc
  owned : (syncs.sync c.sync).owner ≠ none

/-- **The module and its backends agree.** -/
structure Backed (h : List Event) (s : St) : Prop where
  sound : Sound h s
  locked : Locked (view h s)
  vacant : Vacant (view h s).mem
  awake : ∀ t X, (s.loc t).thread.frame ≠ .wait X .l83w
  entered : ∀ t c, (s.loc t).entered = some c → c.Fits (s.loc t).thread s.mem.syncs
  fresh : ∀ X, (s.mem.syncs.sync X).owner = none →
    initBackend X (s.mem.backend X) = s.mem.backend X

/-- A call does not change what a thread has of the list lock. -/
theorem Entered.Fits.listLocked {c : Entered} {syncs : WaitSync.Mem} (hc : c.Fits th syncs) :
    (Loc.seen ⟨th, some c⟩).listLocked = th.listLocked := by
  obtain ⟨⟨p, hp, hcomes⟩, -⟩ := hc
  have hcalls := calls_of_prim hp
  unfold Loc.seen
  split
  · rfl
  rename_i c' hc'
  obtain rfl := Option.some.inj hc'
  split
  · cases p <;> simp only [comesTo, *] at hcomes
    obtain ⟨rfl, -⟩ := hcalls.wait_eq
    split <;> rfl
  · split
    · rfl
    · exact hcalls.listLocked
  · rfl

/-- The view of a state in which one thread has moved. -/
theorem view_move {h' : List Event} : view h' (s.move t L m) =
    (view h s).move t L.seen (m.syncs.backed (monitorAt h' (s.move t L m))) := by
  refine congrArg₂ State.mk (funext fun t' => ?_) rfl
  by_cases ht : t' = t
  · subst ht
    simp
  · simp [view, ht, State.move_loc_of_ne]

/-- **What a step must leave**, for the invariant to hold after it. -/
theorem Backed.of_step {max : ℤ} (i : Backed h s) (hsound : Sound (e :: h) (s.move t L m))
    (hview : view (e :: h) (s.move t L m) = view h s ∨ ∃ a e', a ≠ .spurious ∧
      (waitSync max).step (view h s) t a = some (view (e :: h) (s.move t L m), e'))
    (hawake : ∀ X, L.thread.frame ≠ .wait X .l83w)
    (hentered : ∀ c, L.entered = some c → c.Fits L.thread m.syncs)
    (hfresh : ∀ X, (m.syncs.sync X).owner = none → initBackend X (m.backend X) = m.backend X) :
    Backed (e :: h) (s.move t L m) := by
  have key : Locked (view (e :: h) (s.move t L m)) ∧ Vacant (view (e :: h) (s.move t L m)).mem ∧
      Guarantee t (view h s).mem (view (e :: h) (s.move t L m)).mem := by
    obtain hsame | ⟨a, e', ha, hs⟩ := hview
    · rw [hsame]
      exact ⟨i.locked, i.vacant, .refl ..⟩
    · obtain ⟨th, m', hx, hv⟩ := step_eq_some.mp hs
      have hm := moves_of_exec hx
      rw [hv]
      exact ⟨i.locked.step hm, i.vacant.step i.locked ha hm,
        moves_guarantee i.locked.owner_of_lock (i.locked.held t) hm⟩
  obtain ⟨hlocked, hvacant, g⟩ := key
  refine ⟨hsound, hlocked, hvacant, ?_, ?_, hfresh⟩
  · exact (State.forall_move (A := fun _ l => ∀ X, l.thread.frame ≠ .wait X .l83w) s t L m).mpr
      ⟨hawake, fun t' _ => i.awake t'⟩
  · refine (State.forall_move (A := fun _ l => ∀ c, l.entered = some c →
      c.Fits l.thread m.syncs) s t L m).mpr ⟨hentered, fun t' ht' c hc => ?_⟩
    have fits := i.entered t' c hc
    obtain ⟨p, hp, hcomes⟩ := fits.calls
    refine ⟨⟨p, ?_, hcomes⟩, fun ho => fits.owned ((g.owner _ fits.owned).symm.trans ho)⟩
    rw [← hp]
    refine prim_congr fun hl => g.list fun hlock => ht' ?_
    -- whoever looks at the head holds the list lock
    have hheld : (view h s).mem.waitSyncLock = some t' := by
      refine (i.locked.held t').list.mpr ?_
      have : (view h s).loc t' = Loc.seen ⟨(s.loc t').thread, some c⟩ := by
        rw [← hc]
        rfl
      rw [this, fits.listLocked]
      exact hl
    exact Option.some.inj (hheld.symm.trans hlock)

/-! ## The steps -/

/-- **A line of the module's own.** -/
theorem Backed.own {max : ℤ} {a : WaitSync.Act} (i : Backed h s)
    (hx : exec max t (.own a) (s.loc t) s.mem = some (L, m, e)) :
    Backed (e :: h) (s.move t L m) ∧ (waitSync max).step (view h s) t a =
      some (view (e :: h) (s.move t L m), e.shown) := by
  have hawake := i.awake t
  have hseen : (view h s).loc t = (s.loc t).seen := rfl
  have hon : ∀ X, (s.loc t).entered = none → (s.loc t).on X = .idle := fun X hc => by
    rw [Loc.on, hc]
  generalize hloc : s.loc t = l₀ at hx hawake hseen hon
  obtain ⟨th, _ | c⟩ := l₀
  case some => cases hx
  simp only [exec, Option.ite_none_right_eq_some, Option.map_eq_some_iff, Prod.exists,
    Prod.mk.injEq] at hx
  obtain ⟨⟨hs, hp⟩, th', m', e', hx, rfl, rfl, rfl⟩ := hx
  have hsyncs : (s.mem.after m' a).syncs = m' := by cases a <;> rfl
  -- the backends are as they were: the one that is initialised was fresh
  have hback : (s.mem.after m' a).backend = s.mem.backend := by
    cases a with
    | init S c =>
      obtain ⟨-, ho⟩ := (Option.ite_none_right_eq_some.mp hx).1
      exact (congrArg _ (i.fresh S ho)).trans (Function.update_eq_self ..)
    | _ => rfl
  have hbk : ∀ X, backendOf X (s.move t ⟨th', none⟩ (s.mem.after m' a)) = backendOf X s :=
    fun X => by
    refine congrArg₂ State.mk (funext fun t' => ?_) (congrFun hback X)
    by_cases ht : t' = t
    · subst ht
      simp only [State.move_loc_self, hloc]
      rfl
    · rw [State.move_loc_of_ne _ _ _ _ ht]
  have hmon : monitorAt (⟨e', none⟩ :: h) (s.move t ⟨th', none⟩ (s.mem.after m' a)) =
      monitorAt h s := funext fun X => by
    rw [monitorAt, hbk]
    rfl
  obtain ⟨hx', hw⟩ := exec_backed (M := monitorAt h s) hs hp hawake (fun S c ha => by
    subst ha
    obtain ⟨-, ho⟩ := (Option.ite_none_right_eq_some.mp hx).1
    refine ⟨?_, i.vacant S ho⟩
    by_contra hl
    exact i.locked.owner_of_lock S hl ho) hx
  have hstep : (waitSync max).step (view h s) t a =
      some (view (⟨e', none⟩ :: h) (s.move t ⟨th', none⟩ (s.mem.after m' a)), e') := by
    refine step_eq_some.mpr ⟨th', m'.backed (monitorAt h s), ?_, ?_⟩
    · rw [hseen]
      exact hx'
    · rw [view_move (h := h), hmon, hsyncs]
      rfl
  refine ⟨i.of_step (fun X => ?_) (.inr ⟨a, e', hs, hstep⟩) hw (fun c hc => by cases hc)
    fun X ho => ?_, hstep⟩
  · rw [hbk]
    exact i.sound X
  · rw [hback]
    rw [hsyncs] at ho
    refine i.fresh X ?_
    by_contra hne
    have hm : Moves max t a ((view h s).loc t) (view h s).mem th'
        (m'.backed (monitorAt h s)) e' := by
      rw [hseen]
      exact moves_of_exec hx'
    have g := moves_guarantee i.locked.owner_of_lock (i.locked.held t) hm
    exact hne ((g.owner X hne).symm.trans ho)

/-- **An action in a backend**: at its points the module takes the line it is at, elsewhere
nothing. -/
theorem Backed.inBackend {max : ℤ} (i : Backed h s) (hth : (s.loc t).thread = th)
    (hl : ∀ X, (s.loc t).on X = if X = S then l else .idle)
    (hx : inBackend t th next S b l s.mem = some (L, m, e))
    (hawake : ∀ X, next.frame ≠ .wait X .l83w)
    (hfresh : (s.mem.syncs.sync S).owner = none → ∀ l' n e₀,
      Qthreads.exec t b l (s.mem.backend S) = some (l', n, e₀) → initBackend S n = n)
    (hquiet : ∀ l' n e₀, Qthreads.exec t b l (s.mem.backend S) = some (l', n, e₀) →
      Qthreads.point (backendOf S s) t b = none →
      (Loc.goes th next S l').seen = (s.loc t).seen)
    (htakes : ∀ l' n e₀ op N, Qthreads.exec t b l (s.mem.backend S) = some (l', n, e₀) →
      Qthreads.point (backendOf S s) t b = some op →
      Monitor.exec t op l.client (monitorAt h s S) = some (l'.client, N, ()) →
      WaitSync.exec max t .run (s.loc t).seen (view h s).mem = some ((Loc.goes th next S l').seen,
        s.mem.syncs.backed (Function.update (monitorAt h s) S N), th.shows))
    (hfits : ∀ l' n e₀, Qthreads.exec t b l (s.mem.backend S) = some (l', n, e₀) → l' ≠ .idle →
      Entered.Fits ⟨S, l', next⟩ th s.mem.syncs) :
    Backed (e :: h) (s.move t L m) ∧ (Qthreads.point (backendOf S s) t b = none ∧
        view (e :: h) (s.move t L m) = view h s ∨
      (∃ op, Qthreads.point (backendOf S s) t b = some op) ∧
        (waitSync max).step (view h s) t .run =
          some (view (e :: h) (s.move t L m), e.shown)) := by
  obtain ⟨l', n, e₀, hq, rfl, rfl, he, hsound, hpoint⟩ := i.sound.inBackend hl hx
  have hview : Qthreads.point (backendOf S s) t b = none ∧
        view (e :: h) (s.move t (.goes th next S l')
          ⟨s.mem.syncs, Function.update s.mem.backend S n⟩) = view h s ∨
      (∃ op, Qthreads.point (backendOf S s) t b = some op) ∧
        (waitSync max).step (view h s) t .run = some (view (e :: h) (s.move t (.goes th next S l')
          ⟨s.mem.syncs, Function.update s.mem.backend S n⟩), e.shown) := by
    obtain ⟨hnone, hM⟩ | ⟨op, N, hop, hN, hM⟩ := hpoint
    · refine .inl ⟨hnone, ?_⟩
      rw [view_move (h := h), hM, hquiet _ _ _ hq hnone]
      exact State.move_self ..
    · refine .inr ⟨⟨op, hop⟩, step_eq_some.mpr ⟨_, _, he ▸ htakes _ _ _ _ _ hq hop hN, ?_⟩⟩
      rw [view_move (h := h), hM]
  refine ⟨i.of_step hsound (hview.imp And.right fun hs => ⟨.run, _, by simp, hs.2⟩) (fun X => ?_)
    (fun c hc => ?_) (fun X ho => ?_), hview⟩
  · by_cases hidle : l' = .idle
    · simpa [Loc.goes, hidle] using hawake X
    · simpa [Loc.goes, hidle, hth] using i.awake t X
  · by_cases hidle : l' = .idle
    · simp [Loc.goes, hidle] at hc
    · simp only [Loc.goes, hidle, if_false, Option.some.injEq] at hc ⊢
      subst hc
      exact hfits _ _ _ hq hidle
  · by_cases hX : X = S
    · subst hX
      simpa using hfresh ho _ _ _ hq
    · simpa [hX] using i.fresh X ho

/-- Where a call of the backend begins. -/
theorem exec_act {p : Prim} {k : ℕ} {l' : Qthreads.Loc} {n n' : Qthreads.Mem}
    {e₀ : Qthreads.Event Addr} {q : Qthreads.St}
    (hq : Qthreads.exec t (p.act k S) .idle n = some (l', n', e₀)) :
    (Qthreads.point q t (p.act k S) = some (p.op S) ∧ p ≠ .wait ∧ l' = .idle ∨
      Qthreads.point q t (p.act k S) = none ∧ (p = .wait ∧ l' = .wait k S .l108 ∨
        p = .signal ∧ l' = .signal .l147)) := by
  cases p <;> simp only [Prim.act, Qthreads.exec, Option.ite_none_right_eq_some, Option.some.injEq,
    Prod.mk.injEq] at hq
  case lock | unlock => obtain ⟨-, rfl, -⟩ := hq; exact .inl ⟨rfl, by simp, rfl⟩
  case wait => obtain ⟨-, rfl, -⟩ := hq; exact .inr ⟨rfl, .inl ⟨rfl, rfl⟩⟩
  case signal => obtain ⟨rfl, -⟩ := hq; exact .inr ⟨rfl, .inr ⟨rfl, rfl⟩⟩

/-- The lines of a wait: the first, the last and those between. -/
theorem exec_wait {k : ℕ} {pc : Qthreads.WaitPc} {l' : Qthreads.Loc} {n' : Qthreads.Mem}
    {e₀ : Qthreads.Event Addr} {q : Qthreads.St} (hloc : q.loc t = .wait k S pc)
    {n : Qthreads.Mem} (hq : Qthreads.exec t .run (.wait k S pc) n = some (l', n', e₀)) :
    (pc = .l108 ∧ Qthreads.point q t .run = some (.wait S) ∧ l' = .wait k S .l109 ∨
      pc ≠ .l108 ∧ Qthreads.point q t .run = some .back ∧ l' = .idle) ∨
      pc ≠ .l108 ∧ Qthreads.point q t .run = none ∧ ∃ pc', pc' ≠ .l108 ∧ l' = .wait k S pc' := by
  obtain ⟨⟨pc', m₁, e₁⟩, hl, hr⟩ := Option.map_eq_some_iff.mp hq
  obtain ⟨rfl, rfl, rfl⟩ : _ = l' ∧ _ = n' ∧ _ = e₀ := by simpa using hr
  have hpt : Qthreads.point q t .run = if pc = .l108 then some (.wait S)
      else if pc = .l125 1 then some .back else none := by
    cases pc <;> simp [Qthreads.point, hloc, eq_comm]
  rw [hpt]
  cases pc <;> simp only [condWait, Option.ite_none_right_eq_some, Option.some.injEq,
    Prod.mk.injEq, Option.map_eq_some_iff] at hl
  case l108 => obtain ⟨-, rfl, -⟩ := hl; exact .inl (.inl ⟨rfl, rfl, rfl⟩)
  case l110 =>
    obtain ⟨rfl, -⟩ := hl
    refine .inr ⟨by simp, rfl, _, ?_, rfl⟩
    split <;> simp
  case l125 signaled =>
    by_cases h1 : 1 = signaled
    · subst h1
      rw [if_pos rfl, Prod.mk.injEq] at hl
      obtain ⟨rfl, -⟩ := hl
      exact .inl (.inr ⟨by simp, rfl, rfl⟩)
    · rw [if_neg h1, Prod.mk.injEq] at hl
      obtain ⟨rfl, -⟩ := hl
      exact .inr ⟨by simp, by simp [Ne.symm h1], _, by simp, rfl⟩
  case l120 | l122 => obtain ⟨-, rfl, -⟩ := hl; exact .inr ⟨by simp, rfl, _, by simp, rfl⟩
  case l113 => obtain ⟨_, -, rfl, -⟩ := hl; exact .inr ⟨by simp, rfl, _, by simp, rfl⟩
  all_goals obtain ⟨rfl, -⟩ := hl; exact .inr ⟨by simp, rfl, _, by simp, rfl⟩

/-- …and those of a signal. -/
theorem exec_signal {pc : Qthreads.SignalPc} {l' : Qthreads.Loc} {n' : Qthreads.Mem}
    {e₀ : Qthreads.Event Addr} {q : Qthreads.St} (hloc : q.loc t = .signal pc)
    {n : Qthreads.Mem} (hq : Qthreads.exec t .run (.signal pc) n = some (l', n', e₀)) :
    pc = .l147 ∧ Qthreads.point q t .run = some .signal ∧ l' = .signal .l148 ∨
      pc ≠ .l147 ∧ Qthreads.point q t .run = none ∧
        (l' = .idle ∨ ∃ pc', pc' ≠ .l147 ∧ l' = .signal pc') := by
  obtain ⟨⟨pc', m₁, e₁⟩, hl, hr⟩ := Option.map_eq_some_iff.mp hq
  obtain ⟨rfl, rfl, rfl⟩ : _ = l' ∧ _ = n' ∧ _ = e₀ := by simpa using hr
  have hpt : Qthreads.point q t .run = if pc = .l147 then some .signal else none := by
    cases pc <;> simp [Qthreads.point, hloc]
  rw [hpt]
  cases pc <;> simp only [condSignal, Option.ite_none_right_eq_some, Option.some.injEq,
    Prod.mk.injEq, Option.map_eq_some_iff] at hl
  case l147 => obtain ⟨-, rfl, -⟩ := hl; exact .inl ⟨rfl, rfl, rfl⟩
  case l148 | l153 =>
    obtain ⟨rfl, -⟩ := hl
    refine .inr ⟨by simp, rfl, .inr ⟨_, ?_, rfl⟩⟩
    split <;> simp
  case l149 =>
    obtain ⟨_, -, rfl, -⟩ := hl
    exact .inr ⟨by simp, rfl, .inr ⟨_, by simp, rfl⟩⟩
  case l157 => obtain ⟨rfl, -⟩ := hl; exact .inr ⟨by simp, rfl, .inl rfl⟩
  all_goals obtain ⟨rfl, -⟩ := hl; exact .inr ⟨by simp, rfl, .inr ⟨_, by simp, rfl⟩⟩

end Backend

section Step

variable {s : St} {t : Tid} {h : List Event} {L : Loc} {m : Mem} {e : Event} {max : ℤ}

/-- What the module does at a step. -/
def Matches (max : ℤ) (h : List Event) (s : St) (t : Tid) (a : Act) (e : Event) (s' : St) : Prop :=
  Backed (e :: h) s' ∧ (point s t a = none ∧ view (e :: h) s' = view h s ∨
    ∃ b, point s t a = some b ∧ b ≠ .spurious ∧
      (waitSync max).step (view h s) t b = some (view (e :: h) s', e.shown))

/-- An action in a backend is a step of the module at the points of the backend. -/
theorem matches_of_backend {a : Act} {s' : St} {S : Sid} {b : Qthreads.Act}
    (hpoint : point s t a = (Qthreads.point (backendOf S s) t b).map fun _ => .run)
    (hs : Backed (e :: h) s' ∧
      (Qthreads.point (backendOf S s) t b = none ∧ view (e :: h) s' = view h s ∨
        (∃ op, Qthreads.point (backendOf S s) t b = some op) ∧
          (waitSync max).step (view h s) t .run = some (view (e :: h) s', e.shown))) :
    Matches max h s t a e s' := by
  rw [Matches, hpoint]
  refine hs.imp_right (Or.imp (fun ⟨hnone, hview⟩ => ⟨by rw [hnone]; rfl, hview⟩) ?_)
  rintro ⟨⟨op, hop⟩, hstep⟩
  exact ⟨.run, by rw [hop]; rfl, by simp, hstep⟩

/-- **A call of the backend begins.** -/
theorem Backed.call {k : ℕ} (i : Backed h s)
    (hx : exec max t (.call k) (s.loc t) s.mem = some (L, m, e)) :
    Matches max h s t (.call k) e (s.move t L m) := by
  have hawake := i.awake t
  have hheld : Held t (s.loc t).seen (view h s).mem := i.locked.held t
  rcases hloc : s.loc t with ⟨th, _ | c⟩
  case some => rw [hloc] at hx; cases hx
  rw [hloc] at hx hawake hheld
  obtain ⟨⟨p, S, next⟩, hp, hx⟩ := Option.bind_eq_some_iff.mp hx
  have hcalls : Calls (view h s).mem.waitSyncList S p th next := calls_of_prim hp
  have hown : (s.mem.syncs.sync S).owner ≠ none := hcalls.owned hheld i.locked.named
  have hpoint : point s t (.call k) =
      (Qthreads.point (backendOf S s) t (p.act k S)).map fun _ => .run := by
    simp [point, hloc, hp]
  have hseen : (s.loc t).seen = th := by rw [hloc]; rfl
  refine matches_of_backend hpoint (i.inBackend (by rw [hloc])
    (fun X => by rw [hloc]; simp [Loc.on]) hx (hcalls.awake hawake) (fun ho => absurd ho hown)
    (fun l' n e₀ hq hnone => ?_) (fun l' n e₀ op N hq hop hN => ?_)
    fun l' n e₀ hq hidle => ⟨⟨p, hp, ?_⟩, hown⟩)
  · rw [hseen]
    obtain ⟨hsome, -⟩ | ⟨-, ⟨rfl, rfl⟩ | ⟨rfl, rfl⟩⟩ := exec_act (q := backendOf S s) hq
    · rw [hsome] at hnone
      cases hnone
    · rfl
    · rfl
  · rw [hseen]
    obtain ⟨hsome, hw, rfl⟩ | ⟨hnone, -⟩ := exec_act (q := backendOf S s) hq
    · obtain rfl := Option.some.inj (hsome.symm.trans hop)
      exact hcalls.exec_backed hw hN
    · rw [hnone] at hop
      cases hop
  · obtain ⟨-, -, rfl⟩ | ⟨-, ⟨rfl, rfl⟩ | ⟨rfl, rfl⟩⟩ := exec_act (q := backendOf S s) hq
    · exact absurd rfl hidle
    · rfl
    · trivial

/-- **A line of a call.** -/
theorem Backed.line (i : Backed h s) (hx : exec max t .line (s.loc t) s.mem = some (L, m, e)) :
    Matches max h s t .line e (s.move t L m) := by
  have hawake := i.awake t
  have hentered := i.entered t
  rcases hloc : s.loc t with ⟨th, _ | ⟨S, l, next⟩⟩
  case none => rw [hloc] at hx; cases hx
  rw [hloc] at hx hawake hentered
  obtain ⟨⟨p, hp, hcomes⟩, hown⟩ := hentered _ rfl
  have hcalls : Calls (view h s).mem.waitSyncList S p th next := calls_of_prim hp
  have hon : ∀ X, (s.loc t).on X = if X = S then l else .idle := fun X => by
    rw [hloc]
    simp [Loc.on, eq_comm]
  have hq₀ : (backendOf S s).loc t = l := (hon S).trans (if_pos rfl)
  have hpoint : point s t .line = (Qthreads.point (backendOf S s) t .run).map fun _ => .run := by
    simp [point, hloc]
  have hcall : (∃ k pc, p = .wait ∧ l = .wait k S pc) ∨ ∃ pc, p = .signal ∧ l = .signal pc := by
    cases p <;> cases l <;> first
    | exact absurd hcomes id
    | obtain rfl := hcomes
      exact .inl ⟨_, _, rfl, rfl⟩
    | exact .inr ⟨_, rfl, rfl⟩
  obtain ⟨k, pc, rfl, rfl⟩ | ⟨pc, rfl, rfl⟩ := hcall
  · obtain ⟨rfl, rfl⟩ := hcalls.wait_eq
    refine matches_of_backend hpoint (i.inBackend (by rw [hloc]) hon hx (hcalls.awake hawake)
      (fun ho => absurd ho hown) (fun l' n e₀ hq hnone => ?_)
      (fun l' n e₀ op N hq hop hN => ?_) fun l' n e₀ hq hidle => ⟨⟨_, hp, ?_⟩, hown⟩)
    · rw [hloc]
      obtain (⟨-, hsome, -⟩ | ⟨-, hsome, -⟩) | ⟨hpc, -, pc', hpc', rfl⟩ := exec_wait hq₀ hq
      · rw [hsome] at hnone
        cases hnone
      · rw [hsome] at hnone
        cases hnone
      · simp [Loc.goes, Loc.seen, hpc, hpc']
    · rw [hloc]
      obtain (⟨rfl, hsome, rfl⟩ | ⟨hpc, hsome, rfl⟩) | ⟨-, hnone, -⟩ := exec_wait hq₀ hq
      · obtain rfl := Option.some.inj (hsome.symm.trans hop)
        exact exec_sleep hN
      · obtain rfl := Option.some.inj (hsome.symm.trans hop)
        have hc : (Qthreads.Loc.wait k S pc).client = .waiting S := if_neg hpc
        have hseen : (⟨⟨.wait S .l83, .idle⟩, some ⟨S, .wait k S pc, ⟨.wait S .l91, .idle⟩⟩⟩ :
            Loc).seen = ⟨.wait S .l83w, .idle⟩ := if_neg hpc
        rw [hc] at hN
        rw [hseen]
        exact exec_awake hN
      · rw [hnone] at hop
        cases hop
    · obtain (⟨-, -, rfl⟩ | ⟨-, -, rfl⟩) | ⟨-, -, pc', -, rfl⟩ := exec_wait hq₀ hq
      · rfl
      · exact absurd rfl hidle
      · rfl
  · refine matches_of_backend hpoint (i.inBackend (by rw [hloc]) hon hx (hcalls.awake hawake)
      (fun ho => absurd ho hown) (fun l' n e₀ hq hnone => ?_)
      (fun l' n e₀ op N hq hop hN => ?_) fun l' n e₀ hq hidle => ⟨⟨_, hp, ?_⟩, hown⟩)
    · rw [hloc]
      obtain ⟨-, hsome, -⟩ | ⟨hpc, -, rfl | ⟨pc', hpc', rfl⟩⟩ := exec_signal hq₀ hq
      · rw [hsome] at hnone
        cases hnone
      · simp [Loc.goes, Loc.seen, hpc]
      · simp [Loc.goes, Loc.seen, hpc, hpc']
    · rw [hloc]
      obtain ⟨rfl, hsome, rfl⟩ | ⟨-, hnone, -⟩ := exec_signal hq₀ hq
      · obtain rfl := Option.some.inj (hsome.symm.trans hop)
        exact hcalls.exec_backed (by simp) hN
      · rw [hnone] at hop
        cases hop
    · obtain ⟨-, -, rfl⟩ | ⟨-, -, rfl | ⟨pc', -, rfl⟩⟩ := exec_signal hq₀ hq
      · trivial
      · exact absurd rfl hidle
      · trivial

/-- The stack is used for something else. -/
theorem Backed.scribble {S : Sid} {k : ℕ} {r : Waiter} (i : Backed h s)
    (hx : exec max t (.scribble S k r) (s.loc t) s.mem = some (L, m, e)) :
    Matches max h s t (.scribble S k r) e (s.move t L m) := by
  have hawake := i.awake t
  rcases hloc : s.loc t with ⟨th, _ | c⟩
  case some => rw [hloc] at hx; cases hx
  rw [hloc] at hx hawake
  have idle : ∀ l' n e₀, Qthreads.exec t (.scribble k r) .idle (s.mem.backend S) =
      some (l', n, e₀) → l' = .idle ∧ n = (s.mem.backend S).setWaiter (t, k) r := by
    intro l' n e₀ hq
    obtain ⟨rfl, rfl, -⟩ : _ = l' ∧ _ = n ∧ _ = e₀ := by simpa [Qthreads.exec] using hq
    exact ⟨rfl, rfl⟩
  refine matches_of_backend (b := .scribble k r) (by simp [point, Qthreads.point])
    (i.inBackend (by rw [hloc]) (fun X => by rw [hloc]; simp [Loc.on]) hx hawake
      (fun ho l' n e₀ hq => ?_) (fun l' n e₀ hq _ => ?_) (fun l' n e₀ op N _ hop _ => ?_)
      fun l' n e₀ hq hidle => absurd (idle l' n e₀ hq).1 hidle)
  · obtain ⟨-, rfl⟩ := idle l' n e₀ hq
    exact congrArg (Qthreads.Mem.setWaiter · (t, k) r) (i.fresh S ho)
  · rw [hloc, (idle l' n e₀ hq).1]
    rfl
  · simp [Qthreads.point] at hop

/-- **One step.** -/
theorem Backed.step {a : Act} (i : Backed h s)
    (hx : exec max t a (s.loc t) s.mem = some (L, m, e)) :
    Matches max h s t a e (s.move t L m) := by
  cases a with
  | own a =>
    obtain ⟨hb, hs⟩ := i.own hx
    have ha : a ≠ .spurious := by
      rintro rfl
      obtain ⟨th, -, hx', -⟩ := step_eq_some.mp hs
      rcases hloc : s.loc t with ⟨th, _ | c⟩ <;> rw [hloc] at hx <;> simp [exec] at hx
    exact ⟨hb, .inr ⟨a, rfl, ha, hs⟩⟩
  | call k => exact i.call hx
  | line => exact i.line hx
  | scribble S k r => exact i.scribble hx

end Step

/-- Nobody has started anything. -/
theorem start_backed (waiter : Sid → Addr → Waiter) : Backed [] (start waiter) := by
  have hview : view [] (start waiter) = WaitSync.start := rfl
  refine ⟨fun X => ⟨_, start_refines (waiter X)⟩, hview ▸ start_locked, fun _ _ => rfl,
    fun _ _ => by simp [start], fun _ _ hc => (by cases hc), fun X _ => ?_⟩
  simp [initBackend, start, Qthreads.Mem.condInit]

/-- **Every run keeps the invariant.** -/
theorem backed_of_path {max : ℤ} {waiter : Sid → Addr → Waiter} {s : St}
    {π : List (Transition Tid Loc Mem Act Event)} (hp : (onQthreads max).Path (start waiter) π s) :
    Backed (events π) s :=
  hp.invariant Backed (fun _ _ _ => True) (fun _ _ _ _ _ _ _ i _ hx => (i.step hx).1)
    (fun _ _ => trivial) (start_backed waiter)

/-- **On the qthreads backend the module does what it does by itself**: every run of it over the
code of the backend is, read at its points, a run of it over locks and conditions that are a
monitor's, in which no sleeper wakes by itself, and shows there the same; and whoever is about to
unlock a mutex, or to wait with it, holds it. -/
theorem on_qthreads {max : ℤ} {waiter : Sid → Addr → Waiter} {s : St}
    {π : List (Transition Tid Loc Mem Act Event)} (hp : (onQthreads max).Path (start waiter) π s) :
    (∃ ρ, (waitSync max).Path WaitSync.start ρ (view (events π) s) ∧ Allowed Unspurious ρ ∧
      schedule ρ = points point π ∧ events ρ = (shown point π).map Event.shown) ∧
    ∀ t p S next, (s.loc t).entered = none →
      (s.loc t).thread.prim s.mem.syncs.waitSyncList = some (p, S, next) →
      p = .unlock ∨ p = .wait → (s.mem.backend S).mutex S = some t := by
  refine ⟨?_, fun t p S next hc hp' hu => ?_⟩
  · obtain ⟨-, ρ, hρ, hsched, hshown⟩ := hp.linearizes_showing (q := waitSync max) point view Backed
      (fun _ _ _ => True) (fun e e' => e.shown = e') (fun h s t a L m e i _ hx => by
        obtain ⟨hb, hnone | ⟨b, hpt, -, hs⟩⟩ := i.step hx
        · exact ⟨hb, .inl hnone⟩
        · exact ⟨hb, .inr ⟨b, _, hpt, hs, rfl⟩⟩) (fun _ _ => trivial) (start_backed waiter)
    refine ⟨ρ, hρ, fun y hy hsp => ?_, hsched, ?_⟩
    · have hmem : (y.tid, WaitSync.Act.spurious) ∈ points point π :=
        hsched ▸ hsp ▸ List.mem_map_of_mem hy
      obtain ⟨x, hx, hpt⟩ := List.mem_filterMap.mp hmem
      obtain ⟨b, hb, hbe⟩ := Option.map_eq_some_iff.mp hpt
      obtain ⟨-, rfl⟩ := Prod.mk.inj hbe
      obtain ⟨π₁, π₂, rfl⟩ := List.append_of_mem hx
      obtain ⟨hp₂, s₁, hs, -⟩ := hp.split
      obtain ⟨L, m, hexec, -⟩ := step_eq_some.mp hs
      obtain ⟨-, ⟨hnone, -⟩ | ⟨b', hb', hne, -⟩⟩ := (backed_of_path hp₂).step hexec
      · rw [hnone] at hb
        cases hb
      · exact hne (Option.some.inj (hb'.symm.trans hb))
    · exact (List.forall₂_eq_eq_eq ▸ (List.forall₂_map_left_iff.mpr hshown)).symm
  · have i := backed_of_path hp
    have hseen : (view (events π) s).loc t = (s.loc t).thread := by
      simp [view, Loc.seen, hc]
    have hheld := (i.locked.held t).lock S
    rw [hseen] at hheld
    have hlock : visible (clients (backendOf S s)) (s.mem.backend S).mutex S = some t :=
      hheld.mpr ((calls_of_prim hp').holds hu)
    exact (Option.filter_eq_some_iff.mp hlock).1

/-- Thread 1 sleeps behind thread 0, whose `progress()` completes it; it comes back. -/
def sleepBehind : List (Tid × Act) :=
  [(0, Act.own (.init 0 1)), (0, Act.own .wait), (0, Act.own .run), (0, Act.call 5)] ++
  List.replicate 8 (0, Act.own .run) ++ [(0, Act.call 5), (0, Act.own .run)] ++
  [(1, Act.own (.init 1 1)), (1, Act.own .wait), (1, Act.own .run), (1, Act.call 5)] ++
  List.replicate 10 (1, Act.own .run) ++ (1, Act.call 5) :: List.replicate 7 (1, Act.line) ++
  [(0, Act.own .run), (0, Act.own (.update 1 1 0)), (0, Act.own .run), (0, Act.own .run)] ++
  [(0, Act.call 5), (0, Act.call 5)] ++ List.replicate 8 (0, Act.line) ++
  [(0, Act.call 5), (0, Act.own .run)] ++ List.replicate 5 (1, Act.line)

/-- The module has signalled, slept and woken, and the thread has its mutex back. -/
theorem on_qthreads_sleeper :
    ∃ s π ρ, (onQthreads 1).Path (start fun _ _ => ⟨1, some (1, 3)⟩) π s ∧
      (waitSync 1).Path WaitSync.start ρ (view (events π) s) ∧ .sigSignal 1 ∈ events ρ ∧
      s.loc 1 = ⟨⟨.wait 1 .l91, .idle⟩, none⟩ ∧ (s.mem.backend 1).mutex 1 = some 1 := by
  obtain ⟨s, π, hp, hmem, hloc, hmu⟩ := exists_path_of_run (p := onQthreads 1)
    (s := start fun _ _ => ⟨1, some (1, 3)⟩) sleepBehind
    (P := fun s π => .sigSignal 1 ∈ (shown point π).map Event.shown ∧
      s.loc 1 = ⟨⟨.wait 1 .l91, .idle⟩, none⟩ ∧ (s.mem.backend 1).mutex 1 = some 1) (by decide)
  obtain ⟨⟨ρ, hρ, -, -, hev⟩, -⟩ := on_qthreads hp
  exact ⟨s, π, ρ, hp, hρ, hev ▸ hmem, hloc, hmu⟩

end OnQthreads

end Libult.WaitSync
