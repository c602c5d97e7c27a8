import Libult.WaitSync.Release

/-!
# WaitSync/Exact — completion is signalled when the decrements meet the count exactly

Waiters regard a sync as complete when its count is zero or less, `wait_sync_update` when the value
its own decrement produced is zero.  With positive sizes the values produced go down, so at most one
of them is zero, and it is zero exactly when the sizes applied so far make up the initial count.  If
they step over it, nobody signals and the flag stays up.

    c = 3     sizes 1, 2      2 ─▸ 0      signalled by the second
              sizes 2, 2      1 ─▸ -1     not signalled

A sync is **unmet**, then **signalling** in one thread, then **ended** (`Phase`).
-/

namespace Libult.WaitSync

open Interleaving Program

/-! ## The callers -/

/-- Every update of `S` is a successful one of positive size, and no global wakeup is called. -/
def Successful (S : Sid) (s : St) (t : Tid) (a : Act) : Prop :=
  NonNeg s t a ∧ match a with
    | .update S' u st => S' = S → st = SUCCESS ∧ 0 < u
    | .wakeup _ => False
    | _ => True

instance (S : Sid) (s : St) (t : Tid) (a : Act) : Decidable (Successful S s t a) :=
  match a with
  | .update S' u st =>
      inferInstanceAs (Decidable (0 ≤ u ∧ (S' = S → st = SUCCESS ∧ 0 < u)))
  | .wakeup _ => isFalse And.right
  | .init _ _ | .wait | .release | .spurious | .run => isTrue ⟨trivial, trivial⟩

/-- **The sizes meet `c`**: those applied to `S` up to some point of the history sum to exactly
`c`. -/
def Meets (S : Sid) (c : ℤ) (h : List Event) : Prop := ∃ h', h' <:+ h ∧ total S h' = c

theorem meets_cons {S : Sid} {c : ℤ} {e : Event} {h : List Event} :
    Meets S c (e :: h) ↔ total S (e :: h) = c ∨ Meets S c h := by
  constructor
  · rintro ⟨h', hs, ht⟩
    rcases List.suffix_cons_iff.mp hs with rfl | hs
    · exact .inl ht
    · exact .inr ⟨h', hs, ht⟩
  · rintro (ht | ⟨h', hs, ht⟩)
    · exact ⟨_, List.suffix_rfl, ht⟩
    · exact ⟨h', hs.trans (List.suffix_cons e h), ht⟩

/-- An event that applies nothing meets nothing new. -/
theorem meets_cons_of_total {S : Sid} {c : ℤ} {e : Event} {h : List Event}
    (ht : total S (e :: h) = total S h) : Meets S c (e :: h) ↔ Meets S c h := by
  rw [meets_cons, ht, or_iff_right_of_imp]
  exact fun hc => ⟨h, List.suffix_rfl, hc⟩

/-- What a call is about to do, if the callers keep to that. -/
def Call.Proper (S : Sid) (c : Call) : Prop :=
  (∀ st pc, c ≠ .wakeup st pc) ∧ ∀ u st pc, c = .update S u st pc →
    st = SUCCESS ∧ 0 < u ∧ pc ≠ .l116 ∧ pc ≠ .l118

/-- The line of `WAIT_SYNC_SIGNAL(S)` that a call is at. -/
def Call.signalling (S : Sid) : Call → Option UpdatePc
  | .update S' _ _ pc => if S' = S ∧ pc.zeroed = true then some pc else none
  | _ => none

/-! ## The phases of a sync -/

/-- **The phases of a sync** whose sizes have met the count or not: how often its condition has been
signalled, whether its flag is up, and who is in `WAIT_SYNC_SIGNAL`. -/
inductive Phase (met : Prop) (signals : ℕ) (flag : Bool) (σ : Tid → Option UpdatePc) : Prop
  | unmet : ¬ met → signals = 0 → flag = true → (∀ t, σ t = none) → Phase met signals flag σ
  | signalling (t : Tid) (pc : UpdatePc) : met → signals = (if pc.signalled then 1 else 0) →
      flag = true → σ t = some pc → (∀ t', t' ≠ t → σ t' = none) → Phase met signals flag σ
  | ended : met → signals = 1 → flag = false → (∀ t, σ t = none) → Phase met signals flag σ

/-- Who is in `WAIT_SYNC_SIGNAL(S)`, and where. -/
def signallers (S : Sid) (s : St) (t : Tid) : Option UpdatePc := (s.loc t).call.signalling S

section Step

variable {max : ℤ} {h : List Event} {s : St} {t : Tid} {a : Act} {th : Thread} {m : Mem} {e : Event}
  {S : Sid} {c : ℤ}

theorem signallers_move : signallers S (s.move t th m) =
    Function.update (signallers S s) t (th.call.signalling S) := by
  funext t'
  by_cases ht : t' = t
  · subst ht
    simp [signallers]
  · simp [signallers, ht, State.move_loc_of_ne]

/-- **Whoever starts properly goes on so.** -/
theorem Call.Proper.step (hp : (s.loc t).call.Proper S) (ha : Successful S s t a)
    (hm : Moves max t a (s.loc t) s.mem th m e) : th.call.Proper S := by
  have idle : Call.idle.Proper S := ⟨by simp, by simp⟩
  generalize s.loc t = th₀ at hp hm
  cases hm with
  | init | callWait | callRelease | spurious | wait | release => exact idle
  | callUpdate =>
    refine ⟨by simp, fun u st pc hc => ?_⟩
    cases hc
    exact ⟨(ha.2 rfl).1, (ha.2 rfl).2, by simp, by simp⟩
  | callWakeup => exact ha.2.elim
  | wakeup => exact absurd rfl (hp.1 _ _)
  | @update _ _ _ S' u st pc pc' _ h =>
    cases pc' with
    | none => exact idle
    | some pc' =>
      refine ⟨by simp, fun u' st' pc'' hc => ?_⟩
      cases hc
      obtain ⟨rfl, hu, h116, h118⟩ := hp.2 u st pc rfl
      refine ⟨rfl, hu, ?_⟩
      cases pc <;> simp only [waitSyncUpdate, Option.ite_none_right_eq_some, Option.some.injEq,
        Prod.mk.injEq, if_true] at h
      case l110 => obtain ⟨rfl, -⟩ := h; simp
      case l111 =>
        obtain ⟨h, -⟩ := h
        split at h <;> cases h
        simp
      case l116 => exact absurd rfl h116
      case l118 => exact absurd rfl h118
      case l52 => obtain ⟨-, rfl, -⟩ := h; simp
      case l55 => cases h.1
      all_goals obtain ⟨rfl, -⟩ := h; simp

/-- **Where `S` is**, after the history `h`, in state `s`. -/
def Phased (S : Sid) (c : ℤ) (h : List Event) (s : St) : Prop :=
  Phase (Meets S c h) (h.count (.sigSignal S)) (s.mem.sync S).signaling (signallers S s)

theorem Call.updating_of_signalling {c : Call} {pc : UpdatePc} (h : c.signalling S = some pc) :
    ∃ u st, c = .update S u st pc ∧ pc.zeroed = true := by
  cases c with
  | update S' u st pc' =>
    simp only [signalling, Option.ite_none_right_eq_some, Option.some.injEq] at h
    obtain ⟨⟨rfl, hz⟩, rfl⟩ := h
    exact ⟨u, st, rfl, hz⟩
  | _ => cases h

/-- A step that is not about `S`, or changes nothing of its phase. -/
theorem Phased.skip (p : Phased S c h s) (hmet : Meets S c (e :: h) ↔ Meets S c h)
    (he : e ≠ .sigSignal S) (hflag : (m.sync S).signaling = (s.mem.sync S).signaling)
    (hσ : th.call.signalling S = (s.loc t).call.signalling S) :
    Phased S c (e :: h) (s.move t th m) := by
  have hσ' : signallers S (s.move t th m) = signallers S s := by
    rw [signallers_move, hσ]
    exact Function.update_eq_self ..
  unfold Phased
  rwa [propext hmet, List.count_cons_of_ne he, State.move_mem, hflag, hσ']

/-- Whoever is in `WAIT_SYNC_SIGNAL(S)` is there alone, with the flag up. -/
theorem Phased.alone (p : Phased S c h s) {pc : UpdatePc}
    (ht : (s.loc t).call.signalling S = some pc) : Meets S c h ∧
      h.count (.sigSignal S) = (if pc.signalled then 1 else 0) ∧
      (s.mem.sync S).signaling = true ∧ ∀ t', t' ≠ t → signallers S s t' = none := by
  have none : (∀ t', signallers S s t' = none) → False := fun hn => by
    have := hn t
    rw [signallers, ht] at this
    cases this
  cases p with
  | unmet _ _ _ hn => exact (none hn).elim
  | ended _ _ _ hn => exact (none hn).elim
  | signalling t₀ pc₀ hmet hsig hflag h₀ hn =>
    have htt : t = t₀ := by
      by_contra hne
      have := hn t hne
      rw [signallers, ht] at this
      cases this
    subst htt
    obtain rfl : pc₀ = pc := Option.some.inj (h₀.symm.trans ht)
    exact ⟨hmet, hsig, hflag, hn⟩

/-- Once the sizes have met the count, it is down. -/
theorem Phased.count_of_meets (p : Phased S c h s) (i : Tally h s) (hmet : Meets S c h) :
    (s.mem.sync S).count ≤ 0 := by
  cases p with
  | unmet hno => exact absurd hmet hno
  | signalling t pc _ _ _ ht _ =>
    obtain ⟨u, st, hc, hz⟩ := Call.updating_of_signalling ht
    exact (i.updating t S u st pc (by rw [hc]; rfl)).zeroed hz
  | ended _ hsig =>
    exact (i.recorded S).signal (List.count_pos_iff.mp (by rw [hsig]; exact Nat.one_pos))

/-- After a step of `t` it is where its call is, and the others are where they were. -/
theorem signallers_of_alone {q : Option UpdatePc}
    (hn : ∀ t', t' ≠ t → signallers S s t' = none) (hq : th.call.signalling S = q) :
    signallers S (s.move t th m) t = q ∧
      ∀ t', t' ≠ t → signallers S (s.move t th m) t' = none := by
  rw [signallers_move]
  refine ⟨by rw [Function.update_self, hq], fun t' hne => ?_⟩
  rw [Function.update_of_ne hne, hn t' hne]

/-- Inside `WAIT_SYNC_SIGNAL` a line leads to the next one, and line 53 signals. -/
theorem Phased.next (p : Phased S c h s) {pc q : UpdatePc}
    (ht : (s.loc t).call.signalling S = some pc) (hq : th.call.signalling S = some q)
    (he : total S (e :: h) = total S h) (hflag : (m.sync S).signaling = (s.mem.sync S).signaling)
    (hsig : h.count (.sigSignal S) = (if pc.signalled then 1 else 0) →
      (e :: h).count (.sigSignal S) = if q.signalled then 1 else 0) :
    Phased S c (e :: h) (s.move t th m) := by
  obtain ⟨hmet, hcount, hup, hn⟩ := p.alone ht
  obtain ⟨ht', hothers⟩ := signallers_of_alone (m := m) hn hq
  exact .signalling t q ((meets_cons_of_total he).mpr hmet) (hsig hcount)
    (by rw [State.move_mem, hflag]; exact hup) ht' hothers

/-- **The decrement that makes up the count** enters `WAIT_SYNC_SIGNAL`: nobody has signalled, and
nobody is about to. -/
theorem Phased.enter (p : Phased S c h s) (hno : ¬ Meets S c h) (hmet : Meets S c (e :: h))
    (he : e ≠ .sigSignal S) (hflag : (m.sync S).signaling = (s.mem.sync S).signaling)
    (hq : th.call.signalling S = some .l52) : Phased S c (e :: h) (s.move t th m) := by
  cases p with
  | signalling _ _ hm => exact absurd hm hno
  | ended hm => exact absurd hm hno
  | unmet _ hsig hup hn =>
    obtain ⟨ht, hothers⟩ := signallers_of_alone (m := m) (fun t' _ => hn t') hq
    refine .signalling t .l52 hmet ?_ (by rw [State.move_mem, hflag]; exact hup) ht hothers
    rw [List.count_cons_of_ne he, hsig]
    rfl

/-- **The last line clears the flag**, and nobody is left inside. -/
theorem Phased.finish (p : Phased S c h s) {pc : UpdatePc}
    (ht : (s.loc t).call.signalling S = some pc) (hpc : pc.signalled = true)
    (hq : th.call.signalling S = none) (he : total S (e :: h) = total S h) (hne : e ≠ .sigSignal S)
    (hflag : (m.sync S).signaling = false) : Phased S c (e :: h) (s.move t th m) := by
  obtain ⟨hmet, hcount, -, hn⟩ := p.alone ht
  obtain ⟨ht', hothers⟩ := signallers_of_alone (m := m) hn hq
  refine .ended ((meets_cons_of_total he).mpr hmet) ?_ hflag fun t' => ?_
  · rw [List.count_cons_of_ne hne, hcount, if_pos hpc]
  · by_cases htt : t' = t
    · rw [htt, ht']
    · exact hothers t' htt

/-- **A line of an update of `S`** moves it from phase to phase. -/
theorem Phased.line (p : Phased S c h s) (i : Tally h s) {u st : ℤ} {pc : UpdatePc}
    {pc' : Option UpdatePc} (hproper : (s.loc t).call.Proper S)
    (hcount : (s.mem.sync S).count = c - total S h) (hc : (s.loc t).call = .update S u st pc)
    (hl : waitSyncUpdate t S u st s.mem pc = some (pc', m, e))
    (hth : th.call = pc'.elim .idle (.update S u st)) : Phased S c (e :: h) (s.move t th m) := by
  obtain ⟨rfl, hu, h116, h118⟩ := hproper.2 u st pc hc
  have hσ : (s.loc t).call.signalling S = if pc.zeroed = true then some pc else none := by
    rw [hc]
    simp [Call.signalling]
  have hσ' : ∀ q, pc' = some q →
      th.call.signalling S = if q.zeroed = true then some q else none := fun q hq => by
    rw [hth, hq]
    simp [Call.signalling]
  cases pc <;> simp only [waitSyncUpdate, Option.ite_none_right_eq_some, Option.some.injEq,
    Prod.mk.injEq, if_true] at hl
  case l116 => exact absurd rfl h116
  case l118 => exact absurd rfl h118
  case l110 =>
    obtain ⟨rfl, rfl, rfl⟩ := hl
    exact p.skip (meets_cons_of_total rfl) (by simp) rfl (by rw [hσ' _ rfl, hσ]; rfl)
  case l111 =>
    obtain ⟨rfl, rfl, rfl⟩ := hl
    have ht : total S (.applied S u ((s.mem.sync S).count + -u) :: h) = u + total S h := by
      simp [total]
    by_cases hnow : (s.mem.sync S).count + -u ≠ 0
    · refine p.skip ?_ (by simp) (by simp [Mem.setCount]) ?_
      · rw [meets_cons, ht, or_iff_right]
        omega
      · rw [hth, if_pos hnow, hσ]
        rfl
    · refine p.enter (fun hm => ?_) (meets_cons.mpr (.inl (by rw [ht]; omega))) (by simp)
        (by simp [Mem.setCount]) (hσ' .l52 (by rw [if_neg hnow]))
      -- a positive size makes it up from above zero
      have := p.count_of_meets i hm
      omega
  case l52 =>
    obtain ⟨-, rfl, rfl, rfl⟩ := hl
    refine p.next hσ (hσ' _ rfl) rfl (by simp [Mem.lock]) fun h0 => ?_
    rw [List.count_cons_of_ne (by simp), h0]
    rfl
  case l53 =>
    obtain ⟨rfl, rfl, rfl⟩ := hl
    refine p.next hσ (hσ' _ rfl) rfl (by simp [Mem.signal]) fun h0 => ?_
    rw [List.count_cons_self, h0]
    rfl
  case l54 =>
    obtain ⟨rfl, rfl, rfl⟩ := hl
    refine p.next hσ (hσ' _ rfl) rfl (by simp [Mem.unlock]) fun h0 => ?_
    rw [List.count_cons_of_ne (by simp), h0]
    rfl
  case l55 =>
    obtain ⟨rfl, rfl, rfl⟩ := hl
    exact p.finish hσ rfl (by rw [hth]; rfl) rfl (by simp) (by simp [Mem.clearSignaling])

/-- The step of a thread in an update is a line of it. -/
theorem moves_updateCall {S' : Sid} {u st : ℤ} {pc : UpdatePc}
    (hc : (s.loc t).call = .update S' u st pc) (hm : Moves max t a (s.loc t) s.mem th m e) :
    ∃ pc', waitSyncUpdate t S' u st s.mem pc = some (pc', m, e) ∧
      th.call = pc'.elim .idle (.update S' u st) := by
  generalize s.loc t = th₀ at hc hm
  cases hm with
  | update h => cases hc; exact ⟨_, h, rfl⟩
  | _ => cases hc

/-- A thread outside the calls signals nothing, nor with its next step. -/
theorem moves_signalling (hc : (s.loc t).call = .idle) (hm : Moves max t a (s.loc t) s.mem th m e) :
    th.call.signalling S = (s.loc t).call.signalling S := by
  generalize s.loc t = th₀ at hc hm
  cases hm with
  | update | wakeup => cases hc
  | callUpdate => simp [Call.signalling, UpdatePc.zeroed]
  | _ => rfl

/-- **What a run of proper calls keeps.** -/
structure Exact (S : Sid) (h : List Event) (s : St) : Prop where
  proper : ∀ t, (s.loc t).call.Proper S
  unswapped : .swapped S ∉ h
  phased : ∀ c, .inited S c ∈ h → 0 < c → Phased S c h s

theorem start_exact (S : Sid) : Exact S [] start :=
  ⟨fun _ => ⟨by simp [start], by simp [start]⟩, by simp, fun _ hm => absurd hm (by simp)⟩

/-- `WAIT_SYNC_INIT` opens the first phase. -/
theorem Phased.init (hs : Locked s) (i : Tally h s) (ho : (s.mem.sync S).owner = none)
    (hpos : 0 < c) : Phased S c (.inited S c :: h)
      (s.move t ⟨.ready S, .idle⟩ (s.mem.waitSyncInit S t c)) := by
  have fresh := (i.recorded S).fresh ho
  refine .unmet ?_ ?_ ?_ fun t' => ?_
  · rintro ⟨h', hh', ht⟩
    have : total S h' = 0 := by
      rcases List.suffix_cons_iff.mp hh' with rfl | hsuf
      · exact total_eq_zero (h := h) fresh
      · exact total_eq_zero fun e he => fresh e (hsuf.subset he)
    omega
  · rw [List.count_cons_of_ne (by simp)]
    exact List.count_eq_zero.mpr fun hm => fresh _ hm rfl
  · simpa [Mem.waitSyncInit] using hpos.ne'
  · rw [signallers_move]
    by_cases hne : t' = t
    · rw [hne, Function.update_self]
      rfl
    · rw [Function.update_of_ne hne]
      refine Option.eq_none_iff_forall_ne_some.mpr fun pc hpc => ?_
      obtain ⟨u, st, hc, -⟩ := Call.updating_of_signalling hpc
      exact (hs.held t').target S (by rw [hc]; rfl) ho

/-- **One step keeps it.** -/
theorem Exact.step (hs : Locked s) (i : Tally h s) (x : Exact S h s) (ha : Successful S s t a)
    (hm : Moves max t a (s.loc t) s.mem th m e) : Exact S (e :: h) (s.move t th m) where
  proper := (State.forall_move s t th m (A := fun _ th => th.call.Proper S)).mpr
    ⟨(x.proper t).step ha hm, fun t' _ => x.proper t'⟩
  unswapped hmem := by
    obtain rfl : .swapped S = e := (List.mem_cons.mp hmem).resolve_right x.unswapped
    rcases moves_update_or_quiet hm with ⟨X, u, st, pc, pc', hc, hl, -, -⟩ |
        ⟨X, c, -, -, -, -, he⟩ | hq
    · cases hcall : (s.loc t).call with
      | idle => rw [hcall] at hc; cases hc
      | wakeup st pc => exact (x.proper t).1 st pc hcall
      | update X' u' st' pc₀ =>
        rw [hcall] at hc
        cases hc
        cases pc <;> simp only [waitSyncUpdate, Option.ite_none_right_eq_some, Option.some.injEq,
          Prod.mk.injEq, Event.swapped.injEq, reduceCtorEq, and_false] at hl
        obtain ⟨-, -, rfl⟩ := hl
        exact ((x.proper t).2 u st _ hcall).2.2.2 rfl
    · cases he
    · cases hq.event
  phased c hmem hpos := by
    rcases List.mem_cons.mp hmem with rfl | hmem
    · rcases moves_update_or_quiet hm with ⟨X, u, st, pc, pc', -, hl, -, -⟩ |
          ⟨X, c', -, rfl, ho, rfl, he⟩ | hq
      · cases (waitSyncUpdate_event hl).1
      · cases he
        exact Phased.init hs i ho hpos
      · cases hq.event
    have p := x.phased c hmem hpos
    have ho : (s.mem.sync S).owner ≠ none := fun hn => (i.recorded S).fresh hn _ hmem rfl
    have skip : e.tallied ≠ some S →
        th.call.signalling S = (s.loc t).call.signalling S → Phased S c (e :: h) (s.move t th m) :=
      fun he hσ => by
        refine p.skip (meets_cons_of_total (total_cons_of_ne he))
          (fun hc => he (by rw [hc]; rfl)) ?_ hσ
        rcases moves_signaling hm ho with hsame | ⟨-, hcleared, -⟩
        · exact hsame
        · exact absurd (by rw [hcleared]; rfl) he
    cases hcall : (s.loc t).call with
    | wakeup st pc => exact absurd hcall ((x.proper t).1 st pc)
    | update X u st pc =>
      obtain ⟨pc', hl, hth⟩ := moves_updateCall hcall hm
      by_cases hX : X = S
      · subst hX
        exact p.line i (x.proper t) ((i.recorded X).count x.unswapped c hmem) hcall hl hth
      · refine skip ?_ ?_
        · rcases (waitSyncUpdate_event hl).2 with he | he <;> simp [he, hX]
        · rw [hth, hcall]
          cases pc' <;> simp [Call.signalling, hX]
    | idle =>
      refine skip ?_ (moves_signalling hcall hm)
      rcases moves_update_or_quiet hm with ⟨X, u, st, pc, pc', hc, -⟩ |
          ⟨X, c', -, -, hX, -, rfl⟩ | hq
      · rw [hcall] at hc
        cases hc
      · exact fun he => ho (Option.some.inj he ▸ hX)
      · simp [hq.event]

end Step

/-! ## When completion is signalled -/

/-- **Completion is signalled**: once, and then nothing keeps the owner, asleep or releasing. -/
structure Signalled (S : Sid) (h : List Event) (s : St) : Prop where
  once : h.count (.sigSignal S) = 1
  count : (s.mem.sync S).count ≤ 0
  flag : (s.mem.sync S).signaling = false
  awake : ∀ t, ¬ Asleep t S (s.loc t).frame s.mem

/-- **Completion is not signalled**, and the flag is up. -/
structure Unsignalled (S : Sid) (h : List Event) (s : St) : Prop where
  never : .sigSignal S ∉ h
  flag : (s.mem.sync S).signaling = true

/-- **Completion is signalled exactly when the waiters regard the sync as complete** — if and only
if the sizes, unless they stay below the initial count, meet it exactly in the order in which they
are applied. -/
theorem signalled_iff_meets {max : ℤ} {s : St} {π : List (Transition Tid Thread Mem Act Event)}
    {S : Sid} {c : ℤ} (hp : (waitSync max).Path start π s) (hE : Allowed (Successful S) π)
    (hc : .inited S c ∈ events π) (hpos : 0 < c)
    (hdone : ∀ t u st pc, (s.loc t).call ≠ .update S u st pc) :
    (c ≤ total S (events π) → Signalled S (events π) s) ∧
      (total S (events π) < c → Unsignalled S (events π) s) ↔
    (c ≤ total S (events π) → Meets S c (events π)) := by
  obtain ⟨-, i, r, x⟩ := hp.invariant
    (fun h s => Locked s ∧ Tally h s ∧ Roused h s ∧ Exact S h s) (Successful S)
    (fun _ _ _ _ _ _ _ hi he hx => ⟨hi.1.step (moves_of_exec hx),
      hi.2.1.step hi.1 he.1 (moves_of_exec hx), hi.2.2.1.step hi.1 hi.2.1 (moves_of_exec hx),
      hi.2.2.2.step hi.1 hi.2.1 he (moves_of_exec hx)⟩) hE
    ⟨start_locked, start_tally, start_roused, start_exact S⟩
  have hcount := (i.recorded S).count x.unswapped c hc
  have p := x.phased c hc hpos
  have hmeets : Meets S c (events π) → c ≤ total S (events π) := fun hm => by
    have := p.count_of_meets i hm
    omega
  cases p with
  | signalling t pc _ _ _ ht _ =>
    obtain ⟨u, st, hcall, -⟩ := Call.updating_of_signalling ht
    exact absurd hcall (hdone t u st pc)
  | unmet hno hsig hflag _ =>
    have hnever : .sigSignal S ∉ events π := List.count_eq_zero.mp hsig
    constructor
    · rintro ⟨hall, -⟩ hle
      exact absurd (hall hle).once (by simp [hsig])
    · intro hall
      exact ⟨fun hle => absurd (hall hle) hno, fun _ => ⟨hnever, hflag⟩⟩
  | ended hmet hsig hflag _ =>
    have hmem : .sigSignal S ∈ events π := List.count_pos_iff.mp (by rw [hsig]; exact Nat.one_pos)
    have hle := hmeets hmet
    constructor
    · exact fun _ _ => hmet
    · exact fun _ => ⟨fun _ => ⟨hsig, by omega, hflag, fun t ha => r.undone t S (.inr ha) hmem⟩,
        fun hlt => absurd hlt (by omega)⟩

/-- Thread 0 sleeps behind thread 3's sync; threads 1 and 2 complete its sync in two halves, each in
the middle of the other. -/
def completeInHalves : List (Tid × Act) :=
  [(3, Act.init 1 1), (3, Act.wait)] ++ List.replicate 12 (3, Act.run) ++
  [(0, Act.init 0 3), (0, Act.wait)] ++ List.replicate 13 (0, Act.run) ++
  [(1, Act.update 0 1 0), (2, Act.update 0 2 0), (1, Act.run), (2, Act.run), (1, Act.run)] ++
  List.replicate 5 (2, Act.run)

theorem signalled_of_halves :
    ∃ s π, (waitSync 1).Path start π s ∧ total 0 (events π) = 3 ∧ Signalled 0 (events π) s := by
  obtain ⟨s, π, hp, hE, hc, ht, hA, hcalls⟩ := exists_path_of_run (p := waitSync 1) (s := start)
    completeInHalves (P := fun s π => Allowed (Successful 0) π ∧ Event.inited 0 3 ∈ events π ∧
      total 0 (events π) = 3 ∧ (∀ x ∈ π, x.tid < 4) ∧ ∀ t : Tid, t < 4 → (s.loc t).call = .idle)
    (by decide)
  have hidle : ∀ t, (s.loc t).call = .idle := fun t => by
    by_cases hlt : t < 4
    · exact hcalls t hlt
    · rw [(hp.untouched (A := (· < 4)) hA).1 t hlt]
      rfl
  have h := (signalled_iff_meets hp hE hc (by decide) fun t u st pc => by simp [hidle t]).mpr
    fun _ => ⟨events π, List.suffix_rfl, ht⟩
  exact ⟨s, π, hp, ht, h.1 ht.ge⟩

/-- **One update of size two on a count of one** steps over zero: all calls have returned, the count
is down, and nobody has signalled. -/
theorem not_signalled :
    ¬ ∀ (max : ℤ) (s : St) (π : List (Transition Tid Thread Mem Act Event)) (S : Sid) (c : ℤ),
      (waitSync max).Path start π s → Allowed (Successful S) π → .inited S c ∈ events π → 0 < c →
      (∀ t u st pc, (s.loc t).call ≠ .update S u st pc) → c ≤ total S (events π) →
      Signalled S (events π) s := by
  intro hall
  obtain ⟨s, π, hp, hE, hc, ht, hA, hcalls, hsig⟩ := exists_path_of_run (p := waitSync 1)
    (s := start) [(0, .init 0 1), (1, .update 0 2 0), (1, .run), (1, .run)]
    (P := fun s π => Allowed (Successful 0) π ∧ Event.inited 0 1 ∈ events π ∧
      total 0 (events π) = 2 ∧ (∀ x ∈ π, x.tid < 2) ∧ (∀ t : Tid, t < 2 → (s.loc t).call = .idle) ∧
      Event.sigSignal 0 ∉ events π) (by decide)
  have hidle : ∀ t, (s.loc t).call = .idle := fun t => by
    by_cases hlt : t < 2
    · exact hcalls t hlt
    · rw [(hp.untouched (A := (· < 2)) hA).1 t hlt]
      rfl
  have h := hall 1 s π 0 1 hp hE hc (by decide) (fun t u st pc => by simp [hidle t]) (by omega)
  exact absurd h.once (by simp [List.count_eq_zero.mpr hsig])

end Libult.WaitSync
