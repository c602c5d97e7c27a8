import Libult.Interleaving.Points
import Libult.Qthreads.Refine

/-!
# Qthreads/Monitor — the condition variable and its mutexes are a monitor

A monitor gives its mutex up and goes to sleep in one step; a signal wakes the one asleep longest, a
broadcast everybody, and whoever is woken comes back when it has the mutex again.  Nobody wakes by
itself.  The code gives the mutex up three lines after it has entered the queue, and takes it again
and again to look at its record: as far as the monitor goes, a wait has no mutex until it returns.

    wait        l108  m_lock taken                        signal, broadcast    m_lock taken
    back        l125  the record was found marked
-/

namespace Libult.Qthreads

open Interleaving Program

/-! ## The monitor -/

/-- Where a client of the monitor is. -/
inductive Client
  | outside
  | waiting (mu : Mid)
  deriving DecidableEq, Repr

/-- What the clients share: the mutexes, and who is asleep, longest asleep first. -/
structure Monitor where
  mutex : Mid → Option Tid
  asleep : List Tid

/-- The operations. -/
inductive Op
  | lock (mu : Mid)
  | unlock (mu : Mid)
  | wait (mu : Mid)
  | signal
  | broadcast
  | back
  deriving DecidableEq, Repr

namespace Monitor

variable (m : Monitor) (t : Tid) (mu : Mid)

def acquire : Monitor := { m with mutex := Function.update m.mutex mu (some t) }

def release : Monitor := { m with mutex := Function.update m.mutex mu none }

/-- Give the mutex up and go to sleep, at once. -/
def sleep : Monitor := ⟨Function.update m.mutex mu none, m.asleep ++ [t]⟩

def signal : Monitor := { m with asleep := m.asleep.tail }

def broadcast : Monitor := { m with asleep := [] }

/-- One operation of one client. -/
def exec (t : Tid) (b : Op) (c : Client) (m : Monitor) : Option (Client × Monitor × Unit) :=
  match b, c with
  | .lock mu, .outside => if m.mutex mu = none then some (.outside, m.acquire t mu, ()) else none
  | .unlock mu, .outside => if m.mutex mu = some t then some (.outside, m.release mu, ()) else none
  | .wait mu, .outside => if m.mutex mu = some t then some (.waiting mu, m.sleep t mu, ()) else none
  | .signal, .outside => some (.outside, m.signal, ())
  | .broadcast, .outside => some (.outside, m.broadcast, ())
  | .back, .waiting mu =>
      if t ∉ m.asleep ∧ m.mutex mu = none then some (.outside, m.acquire t mu, ()) else none
  | _, _ => none

end Monitor

/-- **The monitor.** -/
def monitor : Program Tid Client Monitor Op Unit := ⟨Monitor.exec⟩

/-- Nobody inside, the mutexes free. -/
def monitorStart : State Tid Client Monitor := ⟨fun _ => .outside, ⟨fun _ => none, []⟩⟩

/-! ## The code as the monitor sees it -/

/-- A wait begins when it has taken `m_lock`. -/
def Loc.client : Loc → Client
  | .wait _ mu pc => if pc = .l108 then .outside else .waiting mu
  | _ => .outside

def clients (s : St) (t : Tid) : Client := (s.loc t).client

/-- The mutexes as the monitor sees them: not those that waits hold to look at their records. -/
def visible (c : Tid → Client) (mutex : Mid → Option Tid) (mu : Mid) : Option Tid :=
  (mutex mu).filter fun t => c t ≠ .waiting mu

/-- The queue the history leads to. -/
def queue (h : List (Event Addr)) : List Tid := (Fifo.run h).elim [] fun f => f.queue.map Prod.fst

/-- **The view of the monitor.** -/
def monitorView (h : List (Event Addr)) (s : St) : State Tid Client Monitor :=
  ⟨clients s, ⟨visible (clients s) s.mem.mutex, queue h⟩⟩

/-- **The points**: where an operation of the monitor takes effect. -/
def point (s : St) (t : Tid) (a : Act) : Option Op :=
  match a, s.loc t with
  | .lock mu, _ => some (.lock mu)
  | .unlock mu, _ => some (.unlock mu)
  | .run, .wait _ mu .l108 => some (.wait mu)
  | .run, .wait _ _ (.l125 signaled) => if 1 = signaled then some .back else none
  | .run, .broadcast .l134 => some .broadcast
  | .run, .signal .l147 => some .signal
  | _, _ => none

section View

variable {s : St} {t : Tid} {l : Loc} {m : Mem} {h : List (Event Addr)} {e : Event Addr}
  {c : Tid → Client} {mutex mutex' : Mid → Option Tid} {mu : Mid}

theorem clients_move : clients (s.move t l m) = Function.update (clients s) t l.client := by
  funext t'
  by_cases ht : t' = t
  · subst ht
    simp [clients]
  · simp [clients, ht, State.move_loc_of_ne]

theorem monitorView_move {h' : List (Event Addr)} :
    monitorView h' (s.move t l m) = (monitorView h s).move t l.client
      ⟨visible (Function.update (clients s) t l.client) m.mutex, queue h'⟩ := by
  rw [monitorView, clients_move]
  rfl

theorem visible_of_none (hmu : mutex mu = none) : visible c mutex mu = none := by
  rw [visible, hmu]
  rfl

/-- What a wait holds to look at its record is not visible. -/
theorem visible_of_waiting (hmu : mutex mu = some t) (hc : c t = .waiting mu) :
    visible c mutex mu = none := by
  simp [visible, hmu, hc]

theorem visible_of_outside (hmu : mutex mu = some t) (hc : c t = .outside) :
    visible c mutex mu = some t := by
  simp [visible, hmu, hc]

/-- Only what is visible of the mutexes counts. -/
theorem visible_congr (hother : ∀ mu', mu' ≠ mu → mutex' mu' = mutex mu')
    (hmu : visible c mutex' mu = visible c mutex mu) : visible c mutex' = visible c mutex := by
  funext mu'
  by_cases h : mu' = mu
  · rw [h, hmu]
  · rw [visible, hother mu' h, visible]

/-- A mutex that changes hands outside the waits. -/
theorem visible_update {o : Option Tid} (ho : ∀ t, o = some t → c t = .outside) :
    visible c (Function.update mutex mu o) = Function.update (visible c mutex) mu o := by
  funext mu'
  by_cases h : mu' = mu
  · subst h
    cases o with
    | none => simp [visible]
    | some t => simp [visible, ho t rfl]
  · simp [visible, h]

/-- A client is seen the same through every mutex it does not wait for. -/
theorem visible_client {c' : Tid → Client}
    (h : ∀ t, c' t = .waiting mu ↔ c t = .waiting mu) :
    visible c' mutex mu = visible c mutex mu := by
  simp only [visible, ne_eq, h]

/-- **A client with its mutex that goes to wait** gives the mutex up. -/
theorem visible_wait (hc : c t = .outside) (hmu : mutex mu = some t) :
    visible (Function.update c t (.waiting mu)) mutex =
      Function.update (visible c mutex) mu none := by
  funext mu'
  by_cases h : mu' = mu
  · subst h
    simp [visible, hmu]
  · rw [Function.update_of_ne h]
    refine visible_client fun t' => ?_
    by_cases ht : t' = t
    · subst ht
      simp [hc, Ne.symm h]
    · rw [Function.update_of_ne ht]

/-- **A waiting client with its mutex that goes outside** takes it back. -/
theorem visible_back (hc : c t = .waiting mu) (hmu : mutex mu = some t) :
    visible (Function.update c t .outside) mutex =
      Function.update (visible c mutex) mu (some t) := by
  funext mu'
  by_cases h : mu' = mu
  · subst h
    simp [visible, hmu]
  · rw [Function.update_of_ne h]
    refine visible_client fun t' => ?_
    by_cases ht : t' = t
    · subst ht
      simp [hc, Ne.symm h]
    · rw [Function.update_of_ne ht]

/-- What an event does to the queue. -/
def Event.enqueue {α : Type} (q : List α) : Event α → List α
  | .arrive w => q ++ [w]
  | .signal => q.drop 1
  | .broadcast => []
  | _ => q

theorem Fifo.step_queue {f f' : Fifo Addr} (hs : f.step e = some f') :
    f'.queue = e.enqueue f.queue := by
  cases e <;> simp only [Fifo.step, Option.ite_none_right_eq_some, Option.ite_none_left_eq_some,
    Option.some.injEq] at hs
  case tau => rw [← hs]; rfl
  all_goals
    obtain ⟨-, rfl⟩ := hs
    rfl

theorem queue_of_run {f : Fifo Addr} (hr : Fifo.run h = some f) :
    queue h = f.queue.map Prod.fst := by
  rw [queue, hr]
  rfl

theorem Refines.queue_cons {f f' : Fifo Addr} (r : Refines f h s)
    (r' : Refines f' (e :: h) (s.move t l m)) :
    queue (e :: h) = (e.enqueue f.queue).map Prod.fst := by
  obtain ⟨f₀, hr, hs⟩ := Fifo.run_cons.mp r'.run
  obtain rfl := Option.some.inj (r.run.symm.trans hr)
  rw [queue_of_run r'.run, Fifo.step_queue hs]

/-- A client that stays where it is, and what it sees of the mutexes. -/
theorem update_client (hc : l.client = (s.loc t).client) :
    Function.update (clients s) t l.client = clients s := by
  rw [hc]
  exact Function.update_eq_self ..

/-- A step that the monitor does not see. -/
theorem Refines.monitorView_same {f f' : Fifo Addr} (r : Refines f h s)
    (r' : Refines f' (e :: h) (s.move t l m)) (hc : l.client = (s.loc t).client)
    (he : e.enqueue f.queue = f.queue)
    (hm : visible (clients s) m.mutex = visible (clients s) s.mem.mutex) :
    monitorView (e :: h) (s.move t l m) = monitorView h s := by
  rw [monitorView, clients_move, update_client hc, State.move_mem, hm, r.queue_cons r', he,
    ← queue_of_run r.run]
  rfl

/-- **A line of the wait** that is no point is not seen. -/
theorem Refines.quiet_wait {f f' : Fifo Addr} (r : Refines f h s) {k : ℕ} {pc : WaitPc}
    {pc' : Option WaitPc} (hloc : s.loc t = .wait k mu pc) (h108 : pc ≠ .l108)
    (h125 : ∀ n, pc = .l125 n → 1 ≠ n) (hl : condWait t (t, k) mu s.mem pc = some (pc', m, e))
    (r' : Refines f' (e :: h) (s.move t (pc'.elim .idle (.wait k mu)) m)) :
    monitorView (e :: h) (s.move t (pc'.elim .idle (.wait k mu)) m) = monitorView h s := by
  have hc : clients s t = .waiting mu := by
    rw [clients, hloc, Loc.client, if_neg h108]
  have hv := (r.view t).mutex k mu pc hloc
  have key : ∃ p, pc' = some p ∧ p ≠ .l108 ∧ e = .tau ∧
      visible (clients s) m.mutex = visible (clients s) s.mem.mutex := by
    cases pc <;> simp only [condWait, Option.ite_none_right_eq_some, Option.some.injEq,
      Prod.mk.injEq, Option.map_eq_some_iff] at hl
    case l108 => exact absurd rfl h108
    case l125 n =>
      rw [if_neg (h125 n rfl)] at hl
      obtain ⟨rfl, rfl, rfl⟩ := Prod.mk.injEq .. ▸ hl
      exact ⟨_, rfl, by simp, rfl, rfl⟩
    case l118 =>
      obtain ⟨rfl, rfl, rfl⟩ := hl
      refine ⟨_, rfl, by simp, rfl, ?_⟩
      have hother : ∀ mu', mu' ≠ mu → (s.mem.unlockMutex mu).mutex mu' = s.mem.mutex mu' :=
        fun mu' hne => by simp [Mem.unlockMutex, hne]
      refine visible_congr hother ?_
      rw [visible_of_waiting (hv (by simp)) hc, visible_of_none (by simp [Mem.unlockMutex])]
    case l120 =>
      obtain ⟨hfree, rfl, rfl, rfl⟩ := hl
      refine ⟨_, rfl, by simp, rfl, ?_⟩
      have hother : ∀ mu', mu' ≠ mu → (s.mem.lockMutex t mu).mutex mu' = s.mem.mutex mu' :=
        fun mu' hne => by simp [Mem.lockMutex, hne]
      refine visible_congr hother ?_
      rw [visible_of_none hfree, visible_of_waiting (t := t) (by simp [Mem.lockMutex]) hc]
    case l122 =>
      obtain ⟨-, rfl, rfl, rfl⟩ := hl
      exact ⟨_, rfl, by simp, rfl, rfl⟩
    case l113 =>
      obtain ⟨_, -, rfl, rfl, rfl⟩ := hl
      exact ⟨_, rfl, by simp, rfl, rfl⟩
    case l110 =>
      obtain ⟨rfl, rfl, rfl⟩ := hl
      refine ⟨_, rfl, ?_, rfl, rfl⟩
      split <;> simp
    all_goals
      obtain ⟨rfl, rfl, rfl⟩ := hl
      exact ⟨_, rfl, by simp, rfl, rfl⟩
  obtain ⟨p, rfl, hp, rfl, hm⟩ := key
  refine r.monitorView_same r' ?_ rfl hm
  have : (s.loc t).client = .waiting mu := hc
  rw [this]
  exact if_neg hp

/-- A broadcast leaves the mutexes alone, and takes effect at its first line. -/
theorem condBroadcast_point {pc : BroadcastPc} {pc' : Option BroadcastPc} {m₀ : Mem}
    (hl : condBroadcast t m₀ pc = some (pc', m, e)) : m.mutex = m₀.mutex ∧
      if pc = .l134 then e = .broadcast else ∀ q : List Addr, e.enqueue q = q := by
  cases pc <;> simp only [condBroadcast, Option.ite_none_right_eq_some, Option.some.injEq,
    Prod.mk.injEq, Option.map_eq_some_iff] at hl
  case l134 => obtain ⟨-, -, rfl, rfl⟩ := hl; exact ⟨rfl, rfl⟩
  case l136 => obtain ⟨_, -, -, rfl, rfl⟩ := hl; exact ⟨rfl, fun _ => rfl⟩
  all_goals obtain ⟨-, rfl, rfl⟩ := hl; exact ⟨rfl, fun _ => rfl⟩

/-- …and so does a signal. -/
theorem condSignal_point {pc : SignalPc} {pc' : Option SignalPc} {m₀ : Mem}
    (hl : condSignal t m₀ pc = some (pc', m, e)) : m.mutex = m₀.mutex ∧
      if pc = .l147 then e = .signal else ∀ q : List Addr, e.enqueue q = q := by
  cases pc <;> simp only [condSignal, Option.ite_none_right_eq_some, Option.some.injEq,
    Prod.mk.injEq, Option.map_eq_some_iff] at hl
  case l147 => obtain ⟨-, -, rfl, rfl⟩ := hl; exact ⟨rfl, rfl⟩
  case l149 => obtain ⟨_, -, -, rfl, rfl⟩ := hl; exact ⟨rfl, fun _ => rfl⟩
  all_goals obtain ⟨-, rfl, rfl⟩ := hl; exact ⟨rfl, fun _ => rfl⟩

/-- **One step of a thread** is one of the monitor at the points, and none elsewhere. -/
theorem Refines.points {f f' : Fifo Addr} (r : Refines f h s) {a : Act}
    (hx : exec t a (s.loc t) s.mem = some (l, m, e)) (r' : Refines f' (e :: h) (s.move t l m)) :
    point s t a = none ∧ monitorView (e :: h) (s.move t l m) = monitorView h s ∨
      ∃ b e', point s t a = some b ∧
        monitor.step (monitorView h s) t b = some (monitorView (e :: h) (s.move t l m), e') := by
  -- an operation that takes effect, and leaves the client `c` and the monitor `M`
  have takes : ∀ (b : Op) (c : Client) (M : Monitor), point s t a = some b → l.client = c →
      Monitor.exec t b (s.loc t).client (monitorView h s).mem = some (c, M, ()) →
      visible (Function.update (clients s) t c) m.mutex = M.mutex →
      (e.enqueue f.queue).map Prod.fst = M.asleep →
      ∃ b e', point s t a = some b ∧
        monitor.step (monitorView h s) t b = some (monitorView (e :: h) (s.move t l m), e') := by
    intro b c M hb hc hM hmutex hasleep
    refine ⟨b, (), hb, step_eq_some.mpr ⟨c, M, hM, ?_⟩⟩
    rw [monitorView_move (h := h), hc, hmutex, r.queue_cons r', hasleep]
  have hq := queue_of_run r.run
  have outside : (s.loc t).client = .outside →
      clients s t = .outside ∧ Function.update (clients s) t .outside = clients s := fun hc =>
    ⟨hc, hc ▸ Function.update_eq_self t (clients s)⟩
  generalize hloc : s.loc t = l₀ at hx takes outside
  unfold exec at hx
  split at hx <;> simp only [Option.ite_none_right_eq_some, Option.map_eq_some_iff,
    Option.some.injEq, Prod.mk.injEq, Prod.exists, reduceCtorEq] at hx
  case h_1 mu =>
    obtain ⟨hm, rfl, rfl, rfl⟩ := hx
    obtain ⟨hc, hout⟩ := outside rfl
    refine .inr (takes (.lock mu) .outside _ rfl rfl (if_pos (visible_of_none hm)) ?_ hq.symm)
    rw [hout]
    exact visible_update fun t' ht' => Option.some.inj ht' ▸ hc
  case h_2 mu =>
    obtain ⟨hm, rfl, rfl, rfl⟩ := hx
    obtain ⟨hc, hout⟩ := outside rfl
    refine .inr (takes (.unlock mu) .outside _ rfl rfl (if_pos (visible_of_outside hm hc)) ?_
      hq.symm)
    rw [hout]
    exact visible_update fun t' ht' => by cases ht'
  case h_3 k rec =>
    obtain ⟨rfl, rfl, rfl⟩ := hx
    exact .inl ⟨rfl, r.monitorView_same r' (by rw [hloc]) rfl rfl⟩
  case h_4 k mu =>
    obtain ⟨-, rfl, rfl, rfl⟩ := hx
    exact .inl ⟨rfl, r.monitorView_same r' (by rw [hloc]; rfl) rfl rfl⟩
  case h_5 =>
    obtain ⟨rfl, rfl, rfl⟩ := hx
    exact .inl ⟨rfl, r.monitorView_same r' (by rw [hloc]; rfl) rfl rfl⟩
  case h_6 =>
    obtain ⟨rfl, rfl, rfl⟩ := hx
    exact .inl ⟨rfl, r.monitorView_same r' (by rw [hloc]; rfl) rfl rfl⟩
  case h_7 k mu pc =>
    obtain ⟨pc', m₁, e₁, hl, rfl, rfl, rfl⟩ := hx
    have v := r.view t
    by_cases h108 : pc = .l108
    · subst h108
      obtain ⟨hc, -⟩ := outside rfl
      have hm := v.mutex k mu _ hloc (by simp)
      simp only [condWait, Option.ite_none_right_eq_some, Option.some.injEq, Prod.mk.injEq] at hl
      obtain ⟨-, rfl, rfl, rfl⟩ := hl
      refine .inr (takes (.wait mu) (.waiting mu) _ (by simp [point, hloc]) rfl
        (if_pos (visible_of_outside hm hc)) (visible_wait hc hm) ?_)
      rw [Event.enqueue, List.map_append, ← hq]
      rfl
    by_cases h125 : pc = .l125 1
    · subst h125
      have hc : clients s t = .waiting mu := congrArg Loc.client hloc
      have hm := v.mutex k mu _ hloc (by simp)
      simp only [condWait, if_true, Option.some.injEq, Prod.mk.injEq] at hl
      obtain ⟨rfl, rfl, rfl⟩ := hl
      have hgone : t ∉ (monitorView h s).mem.asleep := fun hin => by
        obtain ⟨w, hw, hwt⟩ := List.mem_map.mp (hq ▸ show t ∈ queue h from hin)
        have hall : w ∈ f.all := List.mem_append_right _ (List.mem_append_right _ hw)
        obtain ⟨mu', pc, hloc', -⟩ := v.inside w hall hwt
        obtain ⟨rfl, -⟩ : k = w.2 ∧ _ := by simpa [hloc] using hloc'
        exact v.gone w.2 mu _ hloc (.inr rfl) (hwt ▸ hall)
      exact .inr (takes .back .outside _ (by simp [point, hloc]) rfl
        (if_pos ⟨hgone, visible_of_waiting hm hc⟩) (visible_back hc hm) hq.symm)
    · have hne : ∀ n, pc = .l125 n → 1 ≠ n := by
        rintro n rfl rfl
        exact h125 rfl
      refine .inl ⟨?_, r.quiet_wait hloc h108 hne hl r'⟩
      cases pc <;> simp_all [point]
  case h_8 pc =>
    obtain ⟨pc', m₁, e₁, hl, rfl, rfl, rfl⟩ := hx
    obtain ⟨hm, he⟩ := condBroadcast_point hl
    obtain ⟨-, hout⟩ := outside rfl
    have hc : (pc'.elim Loc.idle .broadcast).client = .outside := by cases pc' <;> rfl
    split at he
    · subst ‹pc = _› he
      refine .inr (takes .broadcast .outside _ (by simp [point, hloc]) hc rfl ?_ rfl)
      rw [hout, hm]
      rfl
    · refine .inl ⟨?_, r.monitorView_same r' (by rw [hc, hloc]; rfl) (he _) (by rw [hm])⟩
      cases pc <;> simp_all [point]
  case h_9 pc =>
    obtain ⟨pc', m₁, e₁, hl, rfl, rfl, rfl⟩ := hx
    obtain ⟨hm, he⟩ := condSignal_point hl
    obtain ⟨-, hout⟩ := outside rfl
    have hc : (pc'.elim Loc.idle .signal).client = .outside := by cases pc' <;> rfl
    split at he
    · subst ‹pc = _› he
      refine .inr (takes .signal .outside _ (by simp [point, hloc]) hc rfl ?_ ?_)
      · rw [hout, hm]
        rfl
      · rw [Event.enqueue, List.drop_one, List.map_tail, ← hq]
        rfl
    · refine .inl ⟨?_, r.monitorView_same r' (by rw [hc, hloc]; rfl) (he _) (by rw [hm])⟩
      cases pc <;> simp_all [point]

end View

/-- **The condition variable of the qthreads backend and its mutexes are a monitor**: every run of
the code, read at its points, is a run of the monitor. -/
theorem refines_monitor {waiter : Addr → Waiter} {s : St}
    {π : List (Transition Tid Loc Mem Act (Event Addr))} (hp : cond.Path (start waiter) π s) :
    ∃ ρ, monitor.Path monitorStart ρ (monitorView (events π) s) ∧ schedule ρ = points point π := by
  have hstart : monitorView [] (start waiter) = monitorStart := rfl
  exact hstart ▸ (hp.linearizes (q := monitor) point monitorView (fun h s => ∃ f, Refines f h s)
    (fun _ _ _ => True) (fun h s t a l m e hr _ hx => by
      obtain ⟨f, r⟩ := hr
      obtain ⟨f', r'⟩ := r.step (moves_of_exec hx)
      exact ⟨⟨f', r'⟩, r.points hx r'⟩) (fun _ _ => trivial) ⟨_, start_refines waiter⟩).2

/-- Two waits, a signal for the first; it returns. -/
theorem refines_monitor_signal :
    ∃ s π ρ, cond.Path (start fun _ => ⟨1, some (1, 3)⟩) π s ∧
      monitor.Path monitorStart ρ (monitorView (events π) s) ∧
      schedule ρ = [(0, .back), (2, .signal), (1, .wait 0), (1, .lock 0), (0, .wait 0),
        (0, .lock 0)] := by
  obtain ⟨s, π, hp, hpoints⟩ := exists_path_of_run (p := cond)
    (s := start fun _ => ⟨1, some (1, 3)⟩) signalFirst (P := fun _ π => points point π =
      [(0, Op.back), (2, .signal), (1, .wait 0), (1, .lock 0), (0, .wait 0), (0, .lock 0)])
    (by decide)
  obtain ⟨ρ, hρ, hs⟩ := refines_monitor hp
  exact ⟨s, π, ρ, hp, hρ, hs.trans hpoints⟩

end Libult.Qthreads
