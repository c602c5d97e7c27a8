import Libult.WaitSync.Updates
import Mathlib.Tactic.Linarith

/-!
# WaitSync/History — what the events of a run say about a sync

The count and the status of a sync are functions of its history: until an error update swaps it, the
count is the initial count less all successful updates; the status is non-zero exactly when an error
update has stored one.  The swap follows the store, and a signal follows the count reaching zero —
these two orders are what the waiters rely on.
-/

namespace Libult.WaitSync

open Interleaving

/-- The callers' side: the size of an update is not negative. -/
def NonNeg (_ : St) (_ : Tid) : Act → Prop
  | .update _ updates _ => 0 ≤ updates
  | _ => True

instance (s : St) (t : Tid) (a : Act) : Decidable (NonNeg s t a) := by
  unfold NonNeg
  split <;> infer_instance

/-- The size of the successful updates of `S`. -/
def total (S : Sid) : List Event → ℤ
  | [] => 0
  | .applied S' u _ :: h => (if S' = S then u else 0) + total S h
  | _ :: h => total S h

theorem total_cons_of_ne {S : Sid} {e : Event} {h : List Event} (he : e.tallied ≠ some S) :
    total S (e :: h) = total S h := by
  cases e <;> try rfl
  rename_i S' u now
  have : S' ≠ S := fun hS => he (congrArg some hS)
  simp [total, this]

theorem total_eq_zero {S : Sid} {h : List Event} (hh : ∀ e ∈ h, e.tallied ≠ some S) :
    total S h = 0 := by
  induction h with
  | nil => rfl
  | cons e h ih =>
    rw [total_cons_of_ne (hh e (by simp)), ih fun e' he' => hh e' (List.mem_cons_of_mem _ he')]

/-! ## One sync and its history -/

/-- **The record of a sync**: what its history says about its count and its status. -/
structure Recorded (S : Sid) (h : List Event) (s : Sync) : Prop where
  fresh : s.owner = none → ∀ e ∈ h, e.tallied ≠ some S
  signal : .sigSignal S ∈ h → s.count ≤ 0
  finish : .sigUnlock S ∈ h ∨ .sigCleared S ∈ h → .sigSignal S ∈ h
  stored : s.owner ≠ none → (s.status ≠ 0 ↔ ∃ st, .stored S st ∈ h)
  error : ∀ st, .stored S st ∈ h → st ≠ 0
  swapped : .swapped S ∈ h → s.status ≠ 0
  count : .swapped S ∉ h → ∀ c, .inited S c ∈ h → s.count = c - total S h

section Recorded

variable {S : Sid} {h : List Event} {s s' : Sync} {e : Event}

/-- An event of another sync, or of none. -/
theorem Recorded.skip (r : Recorded S h s) (he : e.tallied ≠ some S) (ho : s'.owner = s.owner)
    (hc : s.owner ≠ none → s'.count = s.count) (hs : s.owner ≠ none → s'.status = s.status) :
    Recorded S (e :: h) s' := by
  have hne : ∀ e' : Event, e'.tallied = some S → (e' ∈ e :: h ↔ e' ∈ h) := fun e' he' => by
    rw [List.mem_cons, or_iff_right]
    rintro rfl
    exact he he'
  have inited : ∀ e' : Event, e'.tallied = some S → e' ∈ h → s.owner ≠ none :=
    fun e' he' hm hn => r.fresh hn e' hm he'
  refine ⟨fun hn e' he' => ?_, fun hm => ?_, fun hm => ?_, fun hn => ?_, fun st hm => ?_,
    fun hm => ?_, fun hm c hm' => ?_⟩
  · rcases List.mem_cons.mp he' with rfl | he'
    exacts [he, r.fresh (ho ▸ hn) e' he']
  · rw [hne _ rfl] at hm
    rw [hc (inited _ rfl hm)]
    exact r.signal hm
  · rw [hne _ rfl, hne _ rfl] at hm
    exact (hne _ rfl).mpr (r.finish hm)
  · rw [hs (ho ▸ hn), r.stored (ho ▸ hn)]
    exact exists_congr fun st => (hne _ rfl).symm
  · exact r.error st ((hne _ rfl).mp hm)
  · rw [hne _ rfl] at hm
    rw [hs (inited _ rfl hm)]
    exact r.swapped hm
  · rw [hne _ rfl] at hm hm'
    rw [hc (inited _ rfl hm'), total_cons_of_ne he]
    exact r.count hm c hm'

/-- `WAIT_SYNC_INIT` opens the record. -/
theorem Recorded.init (r : Recorded S h s) (hs : s.owner = none) {c : ℤ} (ho : s'.owner ≠ none)
    (hc : s'.count = c) (hst : s'.status = 0) : Recorded S (.inited S c :: h) s' := by
  have none : ∀ e' : Event, e'.tallied = some S → e' ∈ h → False :=
    fun e' he' hm => r.fresh hs e' hm he'
  refine ⟨fun hn => absurd hn ho, fun hm => ?_, fun hm => ?_, fun _ => ?_, fun st hm => ?_,
    fun hm => ?_, fun _ c' hm => ?_⟩
  · exact (none _ rfl (by simpa using hm)).elim
  · rcases hm with hm | hm <;> exact (none _ rfl (by simpa using hm)).elim
  · refine ⟨fun h => absurd hst h, fun hst => ?_⟩
    obtain ⟨st, hm⟩ := hst
    exact (none _ rfl (by simpa using hm)).elim
  · exact (none _ rfl (by simpa using hm)).elim
  · exact (none _ rfl (by simpa using hm)).elim
  · rcases List.mem_cons.mp hm with hm | hm
    · cases hm
      simp [hc, total, total_eq_zero (r.fresh hs)]
    · exact (none _ rfl hm).elim

/-- An event of this sync that its record does not count. -/
theorem Recorded.pass (r : Recorded S h s) (ho : s.owner ≠ none) (he : e.tallied = some S)
    (hc : s'.count = s.count) (hs : s'.status = s.status) (ho' : s'.owner = s.owner)
    (signal : e = .sigSignal S → s.count ≤ 0)
    (finish : e = .sigUnlock S ∨ e = .sigCleared S → .sigSignal S ∈ h)
    (other : (∀ c, e ≠ .inited S c) ∧ (∀ u v, e ≠ .applied S u v) ∧ (∀ st, e ≠ .stored S st) ∧
      e ≠ .swapped S) : Recorded S (e :: h) s' := by
  obtain ⟨hi, ha, hst, hsw⟩ := other
  have ht : total S (e :: h) = total S h := by
    cases e <;> try rfl
    rename_i S' u now
    obtain rfl : S' = S := Option.some.inj he
    exact absurd rfl (ha u now)
  refine ⟨fun hn => absurd (ho' ▸ hn) ho, fun hm => ?_, fun hm => ?_, fun _ => ?_, fun st hm => ?_,
    fun hm => ?_, fun hm c hm' => ?_⟩
  · rw [hc]
    rcases List.mem_cons.mp hm with hm | hm
    exacts [signal hm.symm, r.signal hm]
  · refine List.mem_cons_of_mem _ ?_
    rcases hm with hm | hm <;> rcases List.mem_cons.mp hm with hm | hm
    exacts [finish (.inl hm.symm), r.finish (.inl hm), finish (.inr hm.symm), r.finish (.inr hm)]
  · rw [hs, r.stored ho]
    exact exists_congr fun st => by rw [List.mem_cons, or_iff_right (hst st).symm]
  · exact r.error st ((List.mem_cons.mp hm).resolve_left (hst st).symm)
  · rw [hs]
    exact r.swapped ((List.mem_cons.mp hm).resolve_left hsw.symm)
  · rw [hc, ht]
    exact r.count (fun h => hm (List.mem_cons_of_mem _ h)) c
      ((List.mem_cons.mp hm').resolve_left (hi c).symm)

/-- A successful update. -/
theorem Recorded.applied (r : Recorded S h s) (ho : s.owner ≠ none) {u : ℤ} (hu : 0 ≤ u)
    (v : ℤ) (hc : s'.count = s.count + -u) (hs : s'.status = s.status)
    (ho' : s'.owner = s.owner) : Recorded S (.applied S u v :: h) s' := by
  refine ⟨fun hn => absurd (ho' ▸ hn) ho, fun hm => ?_, fun hm => ?_, fun _ => ?_, fun st hm => ?_,
    fun hm => ?_, fun hm c hm' => ?_⟩
  · have := r.signal (by simpa using hm)
    omega
  · simpa using r.finish (by simpa using hm)
  · rw [hs, r.stored ho]
    simp
  · exact r.error st (by simpa using hm)
  · rw [hs]
    exact r.swapped (by simpa using hm)
  · have := r.count (by simpa using hm) c (by simpa using hm')
    simp only [total, if_pos]
    omega

/-- An error update's status store. -/
theorem Recorded.store (r : Recorded S h s) (ho : s.owner ≠ none) {st : ℤ} (hst : st ≠ 0)
    (hc : s'.count = s.count) (hs : s'.status = st) (ho' : s'.owner = s.owner) :
    Recorded S (.stored S st :: h) s' := by
  refine ⟨fun hn => absurd (ho' ▸ hn) ho, fun hm => ?_, fun hm => ?_, fun _ => ?_, fun st' hm => ?_,
    fun _ => ?_, fun hm c hm' => ?_⟩
  · rw [hc]
    exact r.signal (by simpa using hm)
  · simpa using r.finish (by simpa using hm)
  · exact ⟨fun _ => ⟨st, by simp⟩, fun _ => hs ▸ hst⟩
  · rcases List.mem_cons.mp hm with hm | hm
    · cases hm; exact hst
    · exact r.error st' hm
  · exact hs ▸ hst
  · rw [hc]
    exact r.count (by simpa using hm) c (by simpa using hm')

/-- An error update's swap, its status stored before. -/
theorem Recorded.swap (r : Recorded S h s) (ho : s.owner ≠ none) (hst : s.status ≠ 0)
    (hc : s'.count = 0) (hs : s'.status = s.status) (ho' : s'.owner = s.owner) :
    Recorded S (.swapped S :: h) s' := by
  refine ⟨fun hn => absurd (ho' ▸ hn) ho, fun _ => hc.le, fun hm => ?_, fun _ => ?_,
    fun st hm => ?_, fun _ => hs ▸ hst, fun hm => absurd (by simp) hm⟩
  · simpa using r.finish (by simpa using hm)
  · rw [hs, r.stored ho]
    simp
  · exact r.error st (by simpa using hm)

end Recorded

/-! ## The update in flight -/

/-- The lines of an update that has brought the count to zero. -/
def UpdatePc.zeroed : UpdatePc → Bool
  | .l52 | .l53 | .l54 | .l55 => true
  | _ => false

/-- The lines of an update that has signalled. -/
def UpdatePc.signalled : UpdatePc → Bool
  | .l54 | .l55 => true
  | _ => false

/-- **What an update in flight knows** of its sync and of what it has done so far. -/
structure InFlight (h : List Event) (s : Sync) (S : Sid) (u st : ℤ) (pc : UpdatePc) : Prop where
  nonneg : 0 ≤ u
  zeroed : pc.zeroed = true → s.count ≤ 0
  signalled : pc.signalled = true → .sigSignal S ∈ h
  error : pc = .l116 → st ≠ 0
  stored : pc = .l118 → s.status ≠ 0

/-- …of every update a thread is in. -/
def Updating (h : List Event) (m : Mem) (th : Thread) : Prop :=
  ∀ S u st pc, th.call.updating = some (S, u, st, pc) → InFlight h (m.sync S) S u st pc

theorem InFlight.start {h : List Event} {s : Sync} {S : Sid} {u st : ℤ} (hu : 0 ≤ u) :
    InFlight h s S u st .l110 :=
  ⟨hu, by simp [UpdatePc.zeroed], by simp [UpdatePc.signalled], by simp, by simp⟩

/-- A count at zero stays there, and a stored status stays stored. -/
structure Settles (m m' : Mem) : Prop where
  count : ∀ S, (m.sync S).owner ≠ none → (m.sync S).count ≤ 0 → (m'.sync S).count ≤ 0
  status : ∀ S, (m.sync S).owner ≠ none → (m.sync S).status ≠ 0 → (m'.sync S).status ≠ 0

theorem InFlight.stable {h : List Event} {m m' : Mem} {S : Sid} {u st : ℤ} {pc : UpdatePc}
    (i : InFlight h (m.sync S) S u st pc) (hs : Settles m m') (ho : (m.sync S).owner ≠ none)
    (e : Event) : InFlight (e :: h) (m'.sync S) S u st pc :=
  ⟨i.nonneg, fun hp => hs.count S ho (i.zeroed hp),
    fun hp => List.mem_cons_of_mem _ (i.signalled hp), i.error,
    fun hp => hs.status S ho (i.stored hp)⟩

section Line

variable {t : Tid} {h : List Event} {m m' : Mem} {S : Sid} {u st : ℤ} {pc : UpdatePc}
  {pc' : Option UpdatePc} {e : Event}

/-- **One line of an update**, on the record of its own sync. -/
theorem waitSyncUpdate_recorded_self (i : InFlight h (m.sync S) S u st pc)
    (ho : (m.sync S).owner ≠ none) (r : Recorded S h (m.sync S))
    (hl : waitSyncUpdate t S u st m pc = some (pc', m', e)) : Recorded S (e :: h) (m'.sync S) := by
  cases pc <;> simp only [waitSyncUpdate, Option.ite_none_right_eq_some, Option.some.injEq,
    Prod.mk.injEq] at hl
  case l110 =>
    obtain ⟨-, rfl, rfl⟩ := hl
    exact r.skip (by simp [Event.tallied]) rfl (fun _ => rfl) fun _ => rfl
  case l111 =>
    obtain ⟨-, rfl, rfl⟩ := hl
    exact r.applied ho i.nonneg _ (by simp [Mem.setCount]) (by simp [Mem.setCount])
      (by simp [Mem.setCount])
  case l116 =>
    obtain ⟨-, rfl, rfl⟩ := hl
    exact r.store ho (i.error rfl) (by simp [Mem.setStatus]) (by simp [Mem.setStatus])
      (by simp [Mem.setStatus])
  case l118 =>
    obtain ⟨-, rfl, rfl⟩ := hl
    exact r.swap ho (i.stored rfl) (by simp [Mem.setCount]) (by simp [Mem.setCount])
      (by simp [Mem.setCount])
  case l52 =>
    obtain ⟨-, -, rfl, rfl⟩ := hl
    exact r.pass ho rfl (by simp [Mem.lock]) (by simp [Mem.lock]) (by simp [Mem.lock])
      (by simp) (by simp) (by simp)
  case l53 =>
    obtain ⟨-, rfl, rfl⟩ := hl
    exact r.pass ho rfl (by simp [Mem.signal]) (by simp [Mem.signal]) (by simp [Mem.signal])
      (fun _ => i.zeroed rfl) (by simp) (by simp)
  case l54 =>
    obtain ⟨-, rfl, rfl⟩ := hl
    exact r.pass ho rfl (by simp [Mem.unlock]) (by simp [Mem.unlock]) (by simp [Mem.unlock])
      (by simp) (fun _ => i.signalled rfl) (by simp)
  case l55 =>
    obtain ⟨-, rfl, rfl⟩ := hl
    exact r.pass ho rfl (by simp [Mem.clearSignaling]) (by simp [Mem.clearSignaling])
      (by simp [Mem.clearSignaling]) (by simp) (fun _ => i.signalled rfl) (by simp)

/-- …and on every other record. -/
theorem waitSyncUpdate_recorded (i : InFlight h (m.sync S) S u st pc)
    (ho : (m.sync S).owner ≠ none) (r : ∀ X, Recorded X h (m.sync X))
    (hl : waitSyncUpdate t S u st m pc = some (pc', m', e)) (X : Sid) :
    Recorded X (e :: h) (m'.sync X) := by
  by_cases hX : X = S
  · subst hX
    exact waitSyncUpdate_recorded_self i ho (r X) hl
  · rw [(waitSyncUpdate_frame hl).2.2.2.2 X hX]
    refine (r X).skip ?_ rfl (fun _ => rfl) fun _ => rfl
    rcases (waitSyncUpdate_event hl).2 with he | he <;> simp [he, Ne.symm hX]

/-- **The next line knows what this one has done.** -/
theorem waitSyncUpdate_inFlight (i : InFlight h (m.sync S) S u st pc)
    (hl : waitSyncUpdate t S u st m pc = some (pc', m', e)) :
    ∀ p, pc' = some p → InFlight (e :: h) (m'.sync S) S u st p := by
  rintro p rfl
  cases pc <;> simp only [waitSyncUpdate, Option.ite_none_right_eq_some, Option.some.injEq,
    Prod.mk.injEq, reduceCtorEq, false_and] at hl
  case l110 =>
    obtain ⟨rfl, rfl, rfl⟩ := hl
    split
    · exact ⟨i.nonneg, by simp [UpdatePc.zeroed], by simp [UpdatePc.signalled], by simp, by simp⟩
    · exact ⟨i.nonneg, by simp [UpdatePc.zeroed], by simp [UpdatePc.signalled],
        fun _ h => ‹¬ SUCCESS = st› h.symm, by simp⟩
  case l111 =>
    obtain ⟨hp, rfl, rfl⟩ := hl
    split at hp
    · cases hp
    · cases hp
      exact ⟨i.nonneg, fun _ => by simp_all [Mem.setCount], by simp [UpdatePc.signalled], by simp,
        by simp⟩
  case l116 =>
    obtain ⟨rfl, rfl, rfl⟩ := hl
    exact ⟨i.nonneg, by simp [UpdatePc.zeroed], by simp [UpdatePc.signalled], by simp,
      fun _ => by simpa [Mem.setStatus] using i.error rfl⟩
  case l118 =>
    obtain ⟨rfl, rfl, rfl⟩ := hl
    exact ⟨i.nonneg, fun _ => by simp [Mem.setCount], by simp [UpdatePc.signalled], by simp,
      by simp⟩
  case l52 =>
    obtain ⟨-, rfl, rfl, rfl⟩ := hl
    exact ⟨i.nonneg, fun _ => by simpa [Mem.lock] using i.zeroed rfl,
      by simp [UpdatePc.signalled], by simp, by simp⟩
  case l53 =>
    obtain ⟨rfl, rfl, rfl⟩ := hl
    exact ⟨i.nonneg, fun _ => by simpa [Mem.signal] using i.zeroed rfl, fun _ => by simp,
      by simp, by simp⟩
  case l54 =>
    obtain ⟨rfl, rfl, rfl⟩ := hl
    exact ⟨i.nonneg, fun _ => by simpa [Mem.unlock] using i.zeroed rfl,
      fun _ => List.mem_cons_of_mem _ (i.signalled rfl), by simp, by simp⟩

/-- **What is settled stays settled**, whichever line runs. -/
theorem waitSyncUpdate_settles (i : InFlight h (m.sync S) S u st pc)
    (hl : waitSyncUpdate t S u st m pc = some (pc', m', e)) : Settles m m' := by
  have hu := i.nonneg
  suffices ((m.sync S).count ≤ 0 → (m'.sync S).count ≤ 0) ∧
      ((m.sync S).status ≠ 0 → (m'.sync S).status ≠ 0) by
    refine ⟨fun X _ hX => ?_, fun X _ hX => ?_⟩ <;> by_cases hS : X = S
    · subst hS; exact this.1 hX
    · rwa [(waitSyncUpdate_frame hl).2.2.2.2 X hS]
    · subst hS; exact this.2 hX
    · rwa [(waitSyncUpdate_frame hl).2.2.2.2 X hS]
  cases pc <;> simp only [waitSyncUpdate, Option.ite_none_right_eq_some, Option.some.injEq,
    Prod.mk.injEq] at hl
  case l110 => obtain ⟨-, rfl, -⟩ := hl; exact ⟨id, id⟩
  case l111 =>
    obtain ⟨-, rfl, -⟩ := hl
    refine ⟨fun hc => ?_, by simp [Mem.setCount]⟩
    simp only [Mem.setCount, Mem.sync_modify, if_pos]
    omega
  case l116 =>
    obtain ⟨-, rfl, -⟩ := hl
    exact ⟨by simp [Mem.setStatus], fun _ => by simpa [Mem.setStatus] using i.error rfl⟩
  case l118 => obtain ⟨-, rfl, -⟩ := hl; exact ⟨by simp [Mem.setCount], by simp [Mem.setCount]⟩
  case l52 => obtain ⟨-, -, rfl, -⟩ := hl; exact ⟨by simp [Mem.lock], by simp [Mem.lock]⟩
  case l53 => obtain ⟨-, rfl, -⟩ := hl; exact ⟨by simp [Mem.signal], by simp [Mem.signal]⟩
  case l54 => obtain ⟨-, rfl, -⟩ := hl; exact ⟨by simp [Mem.unlock], by simp [Mem.unlock]⟩
  case l55 =>
    obtain ⟨-, rfl, -⟩ := hl
    exact ⟨by simp [Mem.clearSignaling], by simp [Mem.clearSignaling]⟩

end Line

/-! ## The history of every run -/

/-- **The history invariant.** -/
structure Tally (h : List Event) (s : St) : Prop where
  recorded : ∀ S, Recorded S h (s.mem.sync S)
  updating : ∀ t, Updating h s.mem (s.loc t)

/-- **What is settled stays settled**, whatever step is taken. -/
theorem moves_settles {max : ℤ} {t : Tid} {a : Act} {h : List Event} {th th' : Thread} {m m' : Mem}
    {e : Event} (hu : Updating h m th) (hm : Moves max t a th m th' m' e) : Settles m m' := by
  rcases moves_update_or_quiet hm with ⟨S, u, st, pc, pc', hc, hl, -, -⟩ |
      ⟨S, c, -, -, ho, rfl, -⟩ | hq
  · exact waitSyncUpdate_settles (hu S u st pc hc) hl
  · constructor <;> intro X hX <;>
      simp [Mem.waitSyncInit, show X ≠ S from fun h => hX (h ▸ ho)]
  · exact ⟨fun S _ => by rw [hq.count]; exact id, fun S _ => by rw [hq.status]; exact id⟩

theorem start_tally : Tally [] start where
  recorded S := ⟨by simp, by simp, by simp, fun h => absurd rfl h, by simp, by simp, by simp⟩
  updating _ _ _ _ _ h := by cases h

/-- **One step keeps the history invariant.** -/
theorem Tally.step {max : ℤ} {h : List Event} {s : St} {t : Tid} {a : Act} {l : Thread} {m : Mem}
    {e : Event} (hs : Locked s) (i : Tally h s) (hE : NonNeg s t a)
    (hm : Moves max t a (s.loc t) s.mem l m e) : Tally (e :: h) (s.move t l m) := by
  have settles := moves_settles (i.updating t) hm
  have others : ∀ t', t' ≠ t → Updating (e :: h) m (s.loc t') := fun t' _ S u st pc hc =>
    (i.updating t' S u st pc hc).stable settles
      ((hs.held t').target S (Call.target_of_updating hc)) e
  rcases moves_update_or_quiet hm with ⟨S, u, st, pc, pc', hc, hl, -, hc'⟩ |
      ⟨S, c, -, rfl, ho, rfl, rfl⟩ | hq
  · have hi := i.updating t S u st pc hc
    have ho := (hs.held t).target S (Call.target_of_updating hc)
    refine ⟨waitSyncUpdate_recorded hi ho i.recorded hl, ?_⟩
    refine (State.forall_move s t l m (A := fun _ th => Updating (e :: h) m th)).mpr
      ⟨fun S' u' st' p hp => ?_, others⟩
    rw [hc', Option.map_eq_some_iff] at hp
    obtain ⟨p', hp', hq⟩ := hp
    cases hq
    exact waitSyncUpdate_inFlight hi hl _ hp'
  · refine ⟨fun X => ?_, ?_⟩
    · by_cases hX : X = S
      · subst hX
        exact (i.recorded X).init ho (by simp [Mem.waitSyncInit]) (by simp [Mem.waitSyncInit])
          (by simp [Mem.waitSyncInit])
      · refine (i.recorded X).skip (by simp [Event.tallied, Ne.symm hX]) ?_ ?_ ?_ <;>
          simp [Mem.waitSyncInit, hX]
    · exact (State.forall_move s t _ _ (A := fun _ th => Updating _ _ th)).mpr
        ⟨fun _ _ _ _ h => (by cases h), others⟩
  · refine ⟨fun S => (i.recorded S).skip (by simp [hq.event]) (hq.owner S) (fun _ => hq.count S)
      fun _ => hq.status S, ?_⟩
    refine (State.forall_move s t l m (A := fun _ th => Updating (e :: h) m th)).mpr
      ⟨fun S u st p hp => ?_, others⟩
    obtain ⟨rfl, hu⟩ := hq.after S u st p hp
    refine .start ?_
    rcases hu with rfl | rfl
    exacts [le_rfl, hE]

/-- **A run keeps the history invariant.** -/
theorem tally_of_path {max : ℤ} {s : St} {π : List (Transition Tid Thread Mem Act Event)}
    (hp : (waitSync max).Path start π s) (hE : Allowed NonNeg π) : Tally (events π) s :=
  (hp.invariant (fun h s => Locked s ∧ Tally h s) NonNeg
    (fun _ _ _ _ _ _ _ hi he hx => ⟨hi.1.step (moves_of_exec hx),
      hi.2.step hi.1 he (moves_of_exec hx)⟩) hE ⟨start_locked, start_tally⟩).2

end Libult.WaitSync
