import Libult.WaitSync.Deadlock
import Libult.WaitSync.SweepSt

/-!
# WaitSync/Sweep — the global wakeup reaches every registered sync exactly once, and ends

On the ring that `ompi_sync_wait_mt` has built the walk executes at most nine lines a sync, and only
`sync->lock` can hold it up: whoever holds the lock of a registered sync needs nothing else and
gives it back within four lines.  None of this asks anything of the counts, which are `int32_t`s;
that they are down when it returns does.

    91 ─▸ 82 ─▸ 82n ─▸ 83, or 98          53 ─▸ 54
-/

namespace Libult.WaitSync

open Interleaving Program Links

/-! ## What a run keeps -/

/-- **What the walk relies on**, whatever the counts are. -/
structure Sound (h : List Event) (s : St) : Prop where
  locked : Locked s
  ordered : Ordered h s

section Sound

variable {max : ℤ} {h : List Event} {s s' : St} {t t' : Tid} {a : Act} {th : Thread}
  {m : Mem} {e : Event} {S : Sid} {st : ℤ} {π : List (Transition Tid Thread Mem Act Event)}

/-- **One step keeps it**… -/
theorem Sound.step (i : Sound h s) (hm : Moves max t a (s.loc t) s.mem th m e) :
    Sound (e :: h) (s.move t th m.ints) :=
  ⟨(i.locked.step hm).ints, (i.ordered.step i.locked hm).ints⟩

/-- …and a run, from any state of one on… -/
theorem Sound.path (i : Sound h s) (hp : (intWaitSync max).Path s π s') :
    Sound (events π ++ h) s' := by
  refine hp.invariant_from Sound (fun _ _ _ => True) ?_ (fun _ _ => trivial) i
  rintro h s t a th m e i - hexec
  obtain ⟨m₁, hexec₁, rfl⟩ := stored_exec.mp hexec
  exact i.step (moves_of_exec hexec₁)

/-- …hence every run. -/
theorem sound_of_path (hp : (intWaitSync max).Path start π s) : Sound (events π) s :=
  List.append_nil (events π) ▸ Sound.path ⟨start_locked, start_ordered⟩ hp

/-! ## What the walk needs of it -/

/-- The list is laid out for whoever walks it… -/
theorem Sound.laid (i : Sound h s) (hc : (s.loc t).call.sweeping st = true) :
    Laid s.mem.next s.mem.waitSyncList (pending h) := by
  obtain ⟨pc, hpc, hl⟩ := Call.sweeping_iff.mp hc
  obtain ⟨hw, -⟩ := (i.ordered.view t).call (by rw [hpc]; exact hl)
  rw [hw.head]
  exact hw.ring.laid

/-- …its syncs are initialised… -/
theorem Sound.owner (i : Sound h s) (hS : S ∈ pending h) : (s.mem.sync S).owner ≠ none :=
  Ordered.owner i.locked i.ordered hS

/-- …and whoever waits on one has registered it. -/
theorem Sound.registered (i : Sound h s) (hS : S ∈ pending h) {pc : WaitPc}
    (hf : (s.loc t).frame = .wait S pc) : pc.registered = true := by
  have hr := (Ordered.mem_own i.locked i.ordered (by rw [hf]; rfl)).mp hS
  obtain ⟨pc', hf', hp⟩ := Frame.registered_eq_some.mp hr
  cases hf.symm.trans hf'
  exact hp

/-- **What is listed stays listed** until the walk is over. -/
theorem Sound.list_eq (i : Sound h s) (hc : (s.loc t).call.sweeping st = true)
    (hm : Moves max t' a (s.loc t') s.mem th m e) : pending (e :: h) = pending h := by
  rcases moves_registered hm with ⟨-, he⟩ | ⟨hl, he⟩
  · exact he _
  · have hlock := (i.locked.held t').list.mpr hl
    rw [i.locked.lock_of_sweeping hc] at hlock
    obtain rfl := Option.some.inj hlock
    obtain ⟨pc, hpc, -⟩ := Call.sweeping_iff.mp hc
    obtain ⟨-, pc', h', -⟩ := moves_wakeup hpc hm
    exact Event.pend_of_own (globalWakeupMt_event h') _

/-! ## Whoever holds the lock of a listed sync gives it back -/

/-- The lines of an update after this one, up to the unlock. -/
def UpdatePc.toUnlock : UpdatePc → ℕ
  | .l53 => 1
  | _ => 0

/-- The lines of the wait of a registered sync after this one, up to the unlock or the sleep. -/
def WaitPc.toUnlock : WaitPc → ℕ
  | .l91 => 3
  | .l82 => 2
  | .l82n => 1
  | _ => 0

def Thread.toUnlock (th : Thread) : ℕ :=
  match th.call, th.frame with
  | .update _ _ _ pc, _ => pc.toUnlock
  | _, .wait _ pc => pc.toUnlock
  | _, _ => 0

theorem Thread.toUnlock_le (th : Thread) : th.toUnlock ≤ 3 := by
  have update : ∀ pc : UpdatePc, pc.toUnlock ≤ 3 := fun pc => by cases pc <;> decide
  have wait : ∀ pc : WaitPc, pc.toUnlock ≤ 3 := fun pc => by cases pc <;> decide
  unfold Thread.toUnlock
  split
  exacts [update _, wait _, Nat.zero_le 3]

/-- A frame that holds a lock is in no call. -/
theorem Frame.mayCall_of_holds {f : Frame} {head : Option Sid} (h : f.holds head S) :
    f.mayCall = false := by
  cases f with
  | wait S' pc =>
    cases pc with
    | l103 => rcases h with ⟨hp, -⟩ | ⟨hp, -⟩ <;> cases hp
    | _ => rfl
  | release => rfl
  | _ => exact h.elim

/-- `t` alone gives back the lock of `S` within `n` lines. -/
def Frees (max : ℤ) (n : ℕ) (t : Tid) (S : Sid) (s : St) : Prop :=
  ∃ π s', (intWaitSync max).Path s π s' ∧ π.length ≤ n ∧ (∀ x ∈ π, x.tid = t ∧ x.act = .run) ∧
    (s'.mem.sync S).lock = none

/-- **One line of a holder** gives the lock back, or brings it nearer to that. -/
theorem Held.nearer (max : ℤ) (hh : Held t th m) (hl : th.listLocked = false)
    (hr : ∀ pc, th.frame = .wait S pc → pc.registered = true) (hS : (m.sync S).lock = some t) :
    ∃ th' m' e, runLine max t m th = some (th', m', e) ∧
      ((m'.sync S).lock = none ∨ (m'.sync S).lock = some t ∧ th'.toUnlock < th.toUnlock) := by
  obtain ⟨f, c⟩ := th
  obtain ⟨hlf, hlc⟩ := Bool.or_eq_false_iff.mp hl
  rcases (hh.lock S).mp hS with hf | hc
  · obtain rfl : c = .idle := by
      by_contra hc
      exact absurd (hh.nested hc) (by simp [Frame.mayCall_of_holds hf])
    cases f <;> simp only [Frame.holds] at hf
    rename_i S' pc
    rcases hf with ⟨hp, rfl⟩ | ⟨hp, -⟩
    · have hreg := hr pc rfl
      cases pc <;> first | (cases hp; done) | (cases hreg; done) | (cases hlf; done) | skip
      case l82 =>
        refine ⟨_, _, _, rfl, .inr ⟨hS, ?_⟩⟩
        split
        · exact (by decide : WaitPc.l82n.toUnlock < WaitPc.l82.toUnlock)
        · exact (by decide : WaitPc.l98.toUnlock < WaitPc.l82.toUnlock)
      case l82n =>
        refine ⟨_, _, _, rfl, .inr ⟨hS, ?_⟩⟩
        split
        · exact (by decide : WaitPc.l83.toUnlock < WaitPc.l82n.toUnlock)
        · exact (by decide : WaitPc.l98.toUnlock < WaitPc.l82n.toUnlock)
      case l91 =>
        refine ⟨_, _, _, rfl, .inr ⟨hS, ?_⟩⟩
        split
        · exact (by decide : WaitPc.l92.toUnlock < WaitPc.l91.toUnlock)
        · exact (by decide : WaitPc.l82.toUnlock < WaitPc.l91.toUnlock)
      case l83 => exact ⟨_, _, _, rfl, .inl (by simp [Mem.sleep])⟩
      case l92 | l98 => exact ⟨_, _, _, rfl, .inl (by simp [Mem.unlock])⟩
    · exact absurd (pc.listLocked_of_passing hp) (by simpa [Frame.listLocked] using hlf)
  · cases c with
    | idle => exact hc.elim
    | wakeup st pc =>
      cases pc with
      | l24 => cases hlc
      | _ => exact hc.elim
    | update S' u st pc =>
      obtain ⟨hp, rfl⟩ := hc
      cases pc <;> first | (cases hp; done) | skip
      case l53 =>
        refine ⟨_, _, _, rfl, .inr ⟨by simpa [Mem.signal] using hS, ?_⟩⟩
        exact (by decide : UpdatePc.l54.toUnlock < UpdatePc.l53.toUnlock)
      case l54 => exact ⟨_, _, _, rfl, .inl (by simp [Mem.unlock])⟩

/-- **Whoever holds the lock of a listed sync** needs no other to give it back. -/
theorem Sound.frees (max : ℤ) (i : Sound h s) (hc : (s.loc t).call.sweeping st = true)
    (hS : S ∈ pending h) (hne : t' ≠ t) (hl : (s.mem.sync S).lock = some t') :
    Frees max 4 t' S s := by
  suffices ∀ n h s, Sound h s → (s.loc t).call.sweeping st = true → S ∈ pending h →
      (s.mem.sync S).lock = some t' → (s.loc t').toUnlock = n → Frees max (n + 1) t' S s by
    obtain ⟨π, s', hp, hlen, hπ⟩ := this _ h s i hc hS hl rfl
    exact ⟨π, s', hp, hlen.trans (Nat.succ_le_succ (s.loc t').toUnlock_le), hπ⟩
  intro n
  induction n using Nat.strong_induction_on with
  | _ n ih =>
    intro h s i hc hS hl hn
    have hout : (s.loc t').listLocked = false := by
      refine Bool.not_eq_true _ ▸ fun hl' => ?_
      have := ((i.locked.held t').list.mpr hl').symm.trans (i.locked.lock_of_sweeping hc)
      exact hne (Option.some.inj this)
    obtain ⟨th', m', e, hrun, hnext⟩ :=
      (i.locked.held t').nearer max hout (fun pc => i.registered hS) hl
    have hm : Moves max t' .run (s.loc t') s.mem th' m' e := moves_of_exec hrun
    have hstep : (intWaitSync max).step s t' .run = some (s.move t' th' m'.ints, e) :=
      step_eq_some.mpr ⟨th', m'.ints, stored_exec.mpr ⟨m', hrun, rfl⟩, rfl⟩
    have hpath : (intWaitSync max).Path s [⟨s, t', .run, e⟩] (s.move t' th' m'.ints) :=
      .snoc (.nil s) hstep
    rcases hnext with hfree | ⟨hl', hlt⟩
    · exact ⟨_, _, hpath, by simp, by simp, hfree⟩
    · obtain ⟨π, s', hp, hlen, hπ, hfree⟩ := ih th'.toUnlock (hn ▸ hlt) (e :: h)
        (s.move t' th' m'.ints) (i.step hm)
        (by rw [State.move_loc_of_ne _ _ _ _ hne.symm]; exact hc)
        (by rw [i.list_eq hc hm]; exact hS) hl' (by rw [State.move_loc_self])
      refine ⟨π ++ [⟨s, t', .run, e⟩], s', hpath.append hp, ?_, fun x hx => ?_, hfree⟩
      · rw [List.length_append, List.length_singleton]
        omega
      · rcases List.mem_append.mp hx with hx | hx
        · exact hπ x hx
        · obtain rfl := List.mem_singleton.mp hx
          exact ⟨rfl, rfl⟩

/-! ## The walk, from line 18 to its return -/

/-- A status is what was stored last. -/
theorem moves_status (hm : Moves max t a (s.loc t) s.mem th m e)
    (ho : (s.mem.sync S).owner ≠ none) :
    (m.sync S).status = (s.mem.sync S).status ∧ (∀ st, e ≠ .stored S st) ∨
      ∃ st, e = .stored S st ∧ (m.sync S).status = st := by
  rcases moves_update_or_quiet hm with ⟨X, u, st, pc, pc', -, hl, -, -⟩ |
      ⟨X, c, -, -, hX, rfl, rfl⟩ | hq
  · by_cases hX : S = X
    · subst hX
      cases pc <;> simp only [waitSyncUpdate, Option.ite_none_right_eq_some, Option.some.injEq,
        Prod.mk.injEq] at hl
      case l116 => obtain ⟨-, rfl, rfl⟩ := hl; exact .inr ⟨st, rfl, by simp [Mem.setStatus]⟩
      case l52 => obtain ⟨-, -, rfl, rfl⟩ := hl; exact .inl ⟨by simp [Mem.lock], by simp⟩
      all_goals
        obtain ⟨-, rfl, rfl⟩ := hl
        exact .inl ⟨by simp [Mem.setCount, Mem.signal, Mem.unlock, Mem.clearSignaling], by simp⟩
    · refine .inl ⟨by rw [(waitSyncUpdate_frame hl).2.2.2.2 S hX], fun st' he => ?_⟩
      rcases (waitSyncUpdate_event hl).2 with h | h <;> rw [he] at h <;> cases h
      exact hX rfl
  · have : S ≠ X := fun hS => ho (hS ▸ hX)
    exact .inl ⟨by simp [Mem.waitSyncInit, this], by simp⟩
  · refine .inl ⟨hq.status S, fun st he => ?_⟩
    have := hq.event
    rw [he] at this
    cases this

/-- **A status is one that has been stored**, once any has. -/
theorem Locked.status_of_path {P : ℤ → Prop} (hs : Locked s) (ho : (s.mem.sync S).owner ≠ none)
    (hp : (intWaitSync max).Path s π s') (hP : ∀ st', .stored S st' ∈ events π → P st')
    (hst : .stored S st ∈ events π) : P (s'.mem.sync S).status := by
  have key := hp.invariant (fun h s => Locked s ∧ (s.mem.sync S).owner ≠ none ∧
    ((∀ st', .stored S st' ∈ h → P st') → ∀ st, .stored S st ∈ h → P (s.mem.sync S).status))
    (fun _ _ _ => True) ?_ (fun _ _ => trivial) ⟨hs, ho, fun _ _ hm => absurd hm (by simp)⟩
  · exact key.2.2 hP st hst
  · rintro h s t a th m e ⟨hs, ho, hi⟩ - hexec
    obtain ⟨m₁, hexec₁, rfl⟩ := stored_exec.mp hexec
    have hm := moves_of_exec hexec₁
    have hg := moves_guarantee hs.owner_of_lock (hs.held t) hm
    refine ⟨(hs.step hm).ints, (hg.owner S ho).symm ▸ ho, fun hP st hmem => ?_⟩
    change P (m₁.sync S).status
    rcases moves_status hm ho with ⟨hsame, hne⟩ | ⟨st', rfl, hst'⟩
    · rw [hsame]
      exact hi (fun st' hm => hP st' (List.mem_cons_of_mem _ hm)) st
        ((List.mem_cons.mp hmem).resolve_left fun he => hne st he.symm)
    · rw [hst']
      exact hP st' (List.mem_cons_self ..)

/-! ### Only an error is stored -/

/-- **Whatever is stored is an error's**, and so is what is about to be. -/
structure Erring (h : List Event) (s : St) : Prop where
  storing : ∀ t S u st, (s.loc t).call.updating = some (S, u, st, .l116) → st ≠ SUCCESS
  stored : ∀ S st, .stored S st ∈ h → st ≠ SUCCESS

/-- The line before the store tests the status. -/
theorem waitSyncUpdate_erring {X : Sid} {u : ℤ} {m m' : Mem} {pc : UpdatePc}
    {pc' : Option UpdatePc} (hpc : pc = .l116 → st ≠ SUCCESS)
    (h : waitSyncUpdate t X u st m pc = some (pc', m', e)) :
    (pc' = some .l116 → st ≠ SUCCESS) ∧ ∀ Y st', e = .stored Y st' → st' ≠ SUCCESS := by
  cases pc <;> simp only [waitSyncUpdate, Option.ite_none_right_eq_some, Option.some.injEq,
    Prod.mk.injEq] at h
  case l110 =>
    obtain ⟨rfl, -, rfl⟩ := h
    refine ⟨fun hnext => ?_, by simp⟩
    split at hnext
    · cases hnext
    · exact Ne.symm ‹_›
  case l111 =>
    obtain ⟨rfl, -, rfl⟩ := h
    refine ⟨fun hnext => ?_, by simp⟩
    split at hnext <;> cases hnext
  case l116 =>
    obtain ⟨rfl, -, rfl⟩ := h
    exact ⟨by simp, fun Y st' he => (by cases he; exact hpc rfl)⟩
  case l52 => obtain ⟨-, rfl, -, rfl⟩ := h; exact ⟨by simp, by simp⟩
  all_goals obtain ⟨rfl, -, rfl⟩ := h; exact ⟨by simp, by simp⟩

/-- **One step keeps it**… -/
theorem Erring.step (i : Erring h s) (hm : Moves max t a (s.loc t) s.mem th m e) (m' : Mem) :
    Erring (e :: h) (s.move t th m') := by
  suffices (∀ S u st, th.call.updating = some (S, u, st, .l116) → st ≠ SUCCESS) ∧
      ∀ S st, e = .stored S st → st ≠ SUCCESS by
    refine ⟨(State.forall_move s t th m' (A := fun _ th => ∀ S u st,
      th.call.updating = some (S, u, st, .l116) → st ≠ SUCCESS)).mpr
      ⟨this.1, fun t' _ => i.storing t'⟩, fun S st hmem => ?_⟩
    rcases List.mem_cons.mp hmem with he | hmem
    exacts [this.2 S st he.symm, i.stored S st hmem]
  rcases moves_update_or_quiet hm with ⟨S, u, st, pc, pc', hc, hl, -, hc'⟩ |
      ⟨S, c, -, rfl, -, -, rfl⟩ | hq
  · obtain ⟨hnext, he⟩ := waitSyncUpdate_erring (fun hpc => i.storing t S u st (hpc ▸ hc)) hl
    refine ⟨fun S' u' st' hu => ?_, he⟩
    rw [hc', Option.map_eq_some_iff] at hu
    obtain ⟨p, hp, hq⟩ := hu
    cases hq
    exact hnext hp
  · exact ⟨fun _ _ _ hu => (by cases hu), by simp⟩
  · refine ⟨fun S u st hu => ?_, fun S st he => ?_⟩
    · cases (hq.after S u st _ hu).1
    · have := hq.event
      rw [he] at this
      cases this

/-- …and so does a run. -/
theorem Erring.path (i : Erring h s) (hp : (intWaitSync max).Path s π s') :
    Erring (events π ++ h) s' := by
  refine hp.invariant_from Erring (fun _ _ _ => True) ?_ (fun _ _ => trivial) i
  rintro h s t a th m e i - hexec
  obtain ⟨m₁, hexec₁, rfl⟩ := stored_exec.mp hexec
  exact i.step (moves_of_exec hexec₁) _

/-! ### The walk -/

/-- What is listed stays listed along the walk. -/
theorem Sound.list_of_path (i : Sound h s) (hp : (intWaitSync max).Path s π s')
    (hin : ∀ x ∈ π, (x.pre.loc t).call.sweeping st = true) :
    pending (events π ++ h) = pending h := by
  induction hp with
  | nil => rfl
  | @snoc s₁ _ π t' a e hp hstep ih =>
    obtain ⟨hc, hin⟩ := List.forall_mem_cons.mp hin
    obtain ⟨th, m, hexec, rfl⟩ := step_eq_some.mp hstep
    obtain ⟨m₁, hexec₁, rfl⟩ := stored_exec.mp hexec
    exact ((i.path hp).list_eq hc (moves_of_exec hexec₁)).trans (ih hin)

variable {ρ : List (Transition Tid Thread Mem Act Event)}

/-- **How far the walk is**, and what still holds there. -/
theorem Sound.walked (i : Sound h s) (ht : (s.loc t).call = .wakeup st .l18)
    (hp : (intWaitSync max).Path s ρ s')
    (hin : ∀ x ∈ ρ, (x.pre.loc t).call.sweeping st = true) :
    Sound (events ρ ++ h) s' ∧ SameList (pending h) s.mem s'.mem ∧
      ∃ pc, (s'.loc t).call = pc.elim .idle (.wakeup st) ∧
        Walked (pending h) st (lines t ρ) s'.mem pc := by
  have hc : (s.loc t).call.sweeping st = true := by simp [ht, Call.sweeping, WakeupPc.listLocked]
  exact ⟨i.path hp, (walked_of_path i.locked (i.laid hc) (fun S => i.owner) ht hp hin).2⟩

/-- When it is over it has been everywhere. -/
theorem Sound.walked_idle (i : Sound h s) (ht : (s.loc t).call = .wakeup st .l18)
    (hp : (intWaitSync max).Path s ρ s') (hin : ∀ x ∈ ρ, (x.pre.loc t).call.sweeping st = true)
    (hidle : (s'.loc t).call = .idle) : Walked (pending h) st (lines t ρ) s'.mem none := by
  obtain ⟨-, -, pc, hpc, w⟩ := i.walked ht hp hin
  cases pc with
  | none => exact w
  | some pc => rw [hpc] at hidle; cases hidle

/-- **The next line of the walk** can be executed, unless another thread holds the lock that line 52
is acquiring. -/
theorem Sound.next_line (max : ℤ) (i : Sound h s) {pc : WakeupPc}
    (hpc : (s.loc t).call = .wakeup st pc) (hl : pc.listLocked = true) :
    (∃ r, (intWaitSync max).step s t .run = some r) ∨
      ∃ S, pc = .l24 S .l52 ∧ ∃ t', t' ≠ t ∧ (s.mem.sync S).lock = some t' := by
  cases hg : globalWakeupMt t st s.mem pc with
  | some r =>
    obtain ⟨pc', m', e⟩ := r
    have hrun : runLine max t s.mem (s.loc t) =
        some (⟨(s.loc t).frame, pc'.elim .idle (.wakeup st)⟩, m', e) := by
      rw [show s.loc t = ⟨(s.loc t).frame, .wakeup st pc⟩ by rw [← hpc]]
      simp only [runLine, hg, Option.map_some]
    exact .inl ⟨_, step_eq_some.mpr ⟨_, _, stored_exec.mpr ⟨m', hrun, rfl⟩, rfl⟩⟩
  | none =>
    obtain ⟨κ, hκ, hholder⟩ := globalWakeupMt_eq_none.mp hg
    cases pc with
    | l17 => cases hl
    | l24 S upc =>
      have hupc : upc = .l52 ∧ κ = .lock S := by
        cases upc <;> simp_all [WakeupPc.wants, UpdatePc.wants]
      obtain ⟨rfl, rfl⟩ := hupc
      obtain ⟨t', ht'⟩ := Option.ne_none_iff_exists'.mp hholder
      refine .inr ⟨S, rfl, t', ?_, ht'⟩
      rintro rfl
      have hh := i.locked.held t'
      rcases (hh.lock S).mp ht' with hf | hc
      · have := hh.nested (by simp [hpc])
        simp [Frame.mayCall_of_holds hf] at this
      · rw [hpc] at hc
        exact absurd hc.1 (by decide)
    | _ => cases hκ

/-- **The other threads can clear the way** for the walk's next line: whoever holds the lock it is
acquiring gives it back first. -/
theorem Sound.clears (max : ℤ) (i : Sound h s) {pc : WakeupPc}
    (hpc : (s.loc t).call = .wakeup st pc) (hl : pc.listLocked = true)
    (hS : ∀ S upc, pc = .l24 S upc → S ∈ pending h) :
    ∃ ρ s', (intWaitSync max).Path s ρ s' ∧ (∀ x ∈ ρ, x.tid ≠ t ∧ x.act = .run) ∧
      ∃ r, (intWaitSync max).step s' t .run = some r := by
  rcases i.next_line max hpc hl with hstep | ⟨S, rfl, t', hne, ht'⟩
  · exact ⟨[], s, .nil s, by simp, hstep⟩
  have hc : (s.loc t).call.sweeping st = true := Call.sweeping_iff.mpr ⟨_, hpc, hl⟩
  obtain ⟨ρ, s', hp, -, hρ, hfree⟩ := i.frees max hc (hS S _ rfl) hne ht'
  have hρ' : ∀ x ∈ ρ, x.tid ≠ t ∧ x.act = .run := fun x hx => ⟨(hρ x hx).1 ▸ hne, (hρ x hx).2⟩
  have i' := i.path hp
  have hpc' : (s'.loc t).call = .wakeup st (.l24 S .l52) := by
    rw [(hp.untouched (A := (· ≠ t)) fun x hx => (hρ' x hx).1).1 t (by simp), hpc]
  refine ⟨ρ, s', hp, hρ', (i'.next_line max hpc' rfl).resolve_right ?_⟩
  rintro ⟨S', hS', t'', -, ht''⟩
  cases hS'
  simp [hfree] at ht''

/-- **The walk can be run to its return**, from wherever it is. -/
theorem Sound.returns (i : Sound h s) (ht : (s.loc t).call = .wakeup st .l18)
    (hp : (intWaitSync max).Path s ρ s')
    (hin : ∀ x ∈ ρ, (x.pre.loc t).call.sweeping st = true) :
    ∃ ρ' s'', (intWaitSync max).Path s' ρ' s'' ∧
      (∀ x ∈ ρ', x.act = .run ∧ (x.pre.loc t).call.sweeping st = true) ∧
      (s''.loc t).call = .idle := by
  -- on the lines the walk has left
  generalize hn : 9 * (pending h).length + 2 - (lines t ρ).length = n
  induction n using Nat.strong_induction_on generalizing ρ s' with
  | _ n ih =>
    obtain ⟨i', -, pc, hpc, w⟩ := i.walked ht hp hin
    cases pc with
    | none => exact ⟨[], s', .nil s', by simp, hpc⟩
    | some pc =>
      have hc : (s'.loc t).call.sweeping st = true :=
        Call.sweeping_iff.mpr ⟨pc, hpc, w.listLocked⟩
      have hlines : (lines t ρ).length < 9 * (pending h).length + 2 := by
        have hv := (WakeupPc.prefix_of_swept w.swept).length_le
        have hleft := w.left
        have := pc.left_pos
        omega
      obtain ⟨ρ₁, s₁, hp₁, hρ₁, ⟨s₂, e⟩, hstep⟩ := i'.clears max hpc w.listLocked fun S upc hS => by
        subst hS
        obtain ⟨l₁, l₂, hl, -⟩ := w.swept
        rw [i.list_of_path hp hin, hl]
        simp
      have hstay := hp₁.untouched (A := (· ≠ t)) fun x hx => (hρ₁ x hx).1
      have hin₁ : ∀ x ∈ ρ₁, x.act = .run ∧ (x.pre.loc t).call.sweeping st = true := fun x hx =>
        ⟨(hρ₁ x hx).2, by rw [hstay.2 x hx t (by simp)]; exact hc⟩
      have hin₂ : ∀ x ∈ (⟨s₁, t, .run, e⟩ :: ρ₁ : List (Transition Tid Thread Mem Act Event)),
          x.act = .run ∧ (x.pre.loc t).call.sweeping st = true :=
        List.forall_mem_cons.mpr ⟨⟨rfl, by rw [hstay.1 t (by simp)]; exact hc⟩, hin₁⟩
      have hp₂ : (intWaitSync max).Path s' (⟨s₁, t, .run, e⟩ :: ρ₁) s₂ := hp₁.snoc hstep
      have hl₂ : lines t (⟨s₁, t, .run, e⟩ :: ρ₁ ++ ρ) = e :: lines t ρ := by
        rw [lines_append, lines_cons, if_pos rfl, lines_eq_nil fun x hx => (hρ₁ x hx).1]
        rfl
      obtain ⟨ρ', s'', hp', hρ', hend⟩ := ih (9 * (pending h).length + 2 - (e :: lines t ρ).length)
        (by rw [List.length_cons]; omega) (hp.append hp₂)
        (fun x hx => (List.mem_append.mp hx).elim (fun hx => (hin₂ x hx).2) (hin x)) (by rw [hl₂])
      exact ⟨_, s'', hp₂.append hp', fun x hx => (List.mem_append.mp hx).elim (hρ' x) (hin₂ x),
        hend⟩

end Sound

/-! ## The theorem -/

/-- **The error condition is triggered** on `S`, by thread `t` with status `st` in the run `ρ`. -/
structure Triggered (t : Tid) (st : ℤ) (ρ : List (Transition Tid Thread Mem Act Event)) (s' : St)
    (S : Sid) : Prop where
  status : (s'.mem.sync S).status ≠ 0
  /-- The status is the one given, if no other thread stores one meanwhile. -/
  given : (∀ x ∈ ρ, x.tid ≠ t → ∀ st', x.ev ≠ .stored S st') → (s'.mem.sync S).status = st
  signalled : .sigSignal S ∈ lines t ρ

/-- **What a global wakeup does** to the list `l` from line 18, in `s`, up to any state `s'` of the
run `ρ` in which it has not yet returned or has just done so. -/
structure Sweeps (max : ℤ) (t : Tid) (st : ℤ) (l : List Sid) (s : St)
    (ρ : List (Transition Tid Thread Mem Act Event)) (s' : St) : Prop where
  nodup : l.Nodup
  visited : visits (lines t ρ) <+: l
  /-- It executes no more lines than this… -/
  bounded : (lines t ρ).length ≤ 9 * l.length + 2
  /-- …it can always execute the next one, unless line 52 finds the lock of its sync held, by a
  thread that gives it back in four lines of its own… -/
  next_line : (s'.loc t).call = .idle ∨ (∃ r, (intWaitSync max).step s' t .run = some r) ∨
    ∃ S ∈ l, (s'.loc t).call = .wakeup st (.l24 S .l52) ∧
      ∃ t', t' ≠ t ∧ (s'.mem.sync S).lock = some t' ∧ Frees max 4 t' S s'
  /-- …and so it can be run to its return. -/
  returns : ∃ ρ' s'', (intWaitSync max).Path s' ρ' s'' ∧
    (∀ x ∈ ρ', x.act = .run ∧ (x.pre.loc t).call.sweeping st = true) ∧ (s''.loc t).call = .idle
  /-- The links of the listed syncs and the head are as they were. -/
  same : SameList l s.mem s'.mem
  returned : (s'.loc t).call = .idle → visits (lines t ρ) = l ∧
    (st ≠ SUCCESS → ∀ S ∈ l, Triggered t st ρ s' S)

/-- **The syncs are completed**, their counts down and nobody asleep in their conditions. -/
def Completed (l : List Sid) (s : St) : Prop :=
  ∀ S ∈ l, (s.mem.sync S).count ≤ 0 ∧ ∀ t, ¬ Asleep t S (s.loc t).frame s.mem

/-- The callers' side: no update has a negative size, and no decrement wraps. -/
def Decreasing (s : St) (t : Tid) (a : Act) : Prop := NonNeg s t a ∧ Fits s t a

instance (s : St) (t : Tid) (a : Act) : Decidable (Decreasing s t a) :=
  inferInstanceAs (Decidable (_ ∧ _))

section Walk

variable {max : ℤ} {s s' : St} {π ρ : List (Transition Tid Thread Mem Act Event)} {t : Tid} {st : ℤ}

/-- **A walk that is over has triggered** the error condition on every sync of the list. -/
theorem triggered_of_path (hp : (intWaitSync max).Path start π s)
    (ht : (s.loc t).call = .wakeup st .l18) (hp' : (intWaitSync max).Path s ρ s')
    (hin : ∀ x ∈ ρ, (x.pre.loc t).call.sweeping st = true) (hidle : (s'.loc t).call = .idle)
    (hne : st ≠ SUCCESS) {S : Sid} (hS : S ∈ pending (events π)) : Triggered t st ρ s' S := by
  have i := sound_of_path hp
  have w := i.walked_idle ht hp' hin hidle
  obtain ⟨-, stored, -, signalled⟩ := w.reported hne S (w.swept ▸ hS)
  have hstored : .stored S st ∈ events ρ :=
    mem_events_of_lines (stored (by simp [WakeupPc.at]) (by simp [WakeupPc.at]))
  have erring : Erring (events ρ ++ events π) s' :=
    (List.append_nil (events π) ▸ Erring.path ⟨by simp [start, Call.updating], by simp⟩ hp :
      Erring (events π) s).path hp'
  refine ⟨i.locked.status_of_path (P := (· ≠ 0)) (i.owner hS) hp'
    (fun st' hm => erring.stored S st' (List.mem_append_left _ hm)) hstored, fun hq => ?_,
    signalled rfl⟩
  refine i.locked.status_of_path (P := (· = st)) (i.owner hS) hp' (fun st' hm => ?_) hstored
  obtain ⟨x, hx, hxe⟩ := List.mem_map.mp hm
  by_cases hxt : x.tid = t
  · refine w.status S st' (List.mem_map.mpr ⟨x, List.mem_filter.mpr ⟨hx, ?_⟩, hxe⟩)
    simpa using hxt
  · exact absurd hxe (hq x hx hxt st')

/-- **…and completed them**, if the others only count down. -/
theorem completed_of_path (hp : (intWaitSync max).Path start π s)
    (ht : (s.loc t).call = .wakeup st .l18) (hp' : (intWaitSync max).Path s ρ s')
    (hin : ∀ x ∈ ρ, (x.pre.loc t).call.sweeping st = true) (hidle : (s'.loc t).call = .idle)
    (hne : st ≠ SUCCESS) (hE : Allowed Decreasing (ρ ++ π)) :
    Completed (pending (events π)) s' := by
  intro S hS
  have signalled := (triggered_of_path hp ht hp' hin hidle hne hS).signalled
  have hmem : .sigSignal S ∈ events (ρ ++ π) := by
    rw [events_append]
    exact List.mem_append_left _ (mem_events_of_lines signalled)
  have hint := path_of_intWaitSync (hp.append hp') (hE.mono fun _ _ _ h => h.2)
  have hnonneg := hE.mono fun _ _ _ h => h.1
  exact ⟨((tally_of_path hint hnonneg).recorded S).signal hmem, fun t' ha =>
    (roused_of_path hint hnonneg).undone t' S (.inr ha) hmem⟩

/-- **On the ring**, whatever the others do meanwhile. -/
theorem sweeps_of_path (hp : (intWaitSync max).Path start π s)
    (ht : (s.loc t).call = .wakeup st .l18) (hp' : (intWaitSync max).Path s ρ s')
    (hin : ∀ x ∈ ρ, (x.pre.loc t).call.sweeping st = true) :
    Sweeps max t st (pending (events π)) s ρ s' := by
  have i := sound_of_path hp
  have hc : (s.loc t).call.sweeping st = true := by simp [ht, Call.sweeping, WakeupPc.listLocked]
  obtain ⟨i', same, pc, hpc, w⟩ := i.walked ht hp' hin
  have hv := WakeupPc.prefix_of_swept w.swept
  refine ⟨(i.laid hc).nodup, hv, ?_, ?_, i.returns ht hp' hin, same, fun hidle =>
    ⟨(i.walked_idle ht hp' hin hidle).swept, fun hne S hS =>
      triggered_of_path hp ht hp' hin hidle hne hS⟩⟩
  · have := hv.length_le
    have := w.left
    omega
  · cases pc with
    | none => exact .inl hpc
    | some pc =>
      refine .inr ((i'.next_line max hpc w.listLocked).imp_right ?_)
      rintro ⟨S, rfl, t', hne, ht'⟩
      obtain ⟨l₁, l₂, hl, -⟩ := w.swept
      have hS : S ∈ pending (events π) := by simp [hl]
      have hc := Call.sweeping_iff.mpr ⟨_, hpc, rfl⟩
      refine ⟨S, hS, hpc, t', hne, ht', i'.frees max hc ?_ hne ht'⟩
      rwa [i.list_of_path hp' hin]

end Walk

/-- **The global wakeup reaches every registered sync exactly once, in order, and ends**, whatever
the others do and whether the list comes back to its head or ends; with an error it leaves every one
of them with a status, its owner signalled, and completed if the others only count down. -/
theorem global_wakeup_sweeps (max : ℤ) (t : Tid) (st : ℤ) :
    (∀ s π s' ρ, (intWaitSync max).Path start π s → (s.loc t).call = .wakeup st .l18 →
      (intWaitSync max).Path s ρ s' → (∀ x ∈ ρ, (x.pre.loc t).call.sweeping st = true) →
      Sweeps max t st (pending (events π)) s ρ s' ∧
        ((s'.loc t).call = .idle → st ≠ SUCCESS → Allowed Decreasing (ρ ++ π) →
          Completed (pending (events π)) s')) ∧
    ∀ m S c s π, m.waitSyncLock = none → intWaitSyncSt.Path (startSt m t S c) π s →
      (∀ x ∈ π, x.tid = t) → (s.loc t).call = .wakeup st .l17 →
      ∃ n s' ρ, intWaitSyncSt.run s [] (List.replicate n (t, .run)) = some (s', ρ) ∧
        SweepsSt t S st s ρ s' :=
  ⟨fun _ _ _ _ hp ht hp' hin =>
    ⟨sweeps_of_path hp ht hp' hin, completed_of_path hp ht hp' hin⟩,
    fun _ _ _ _ _ hm hp ht hc => (soundSt_of_path hm hp ht).sweeps hc⟩

/-- Thread 0 registers and makes progress, thread 1 registers behind it and sleeps, and thread 2 is
about to walk the ring of the two. -/
def wakeUp : List (Tid × Act) := sleepBehind ++ [(2, Act.wakeup 7), (2, Act.run)]

/-- Of the ring of two syncs, one with a sleeper, and of the list of a `sync_wait_st`. -/
theorem global_wakeup_sweeps_behind :
    (∃ s π s' ρ, (intWaitSync 1).Path start π s ∧ (intWaitSync 1).Path s ρ s' ∧
      pending (events π) = [0, 1] ∧ Asleep 1 1 (s.loc 1).frame s.mem ∧
      visits (lines 2 ρ) = [0, 1] ∧ (s'.mem.sync 1).status = 7 ∧
      Completed [0, 1] s' ∧ ¬ Asleep 1 1 (s'.loc 1).frame s'.mem) ∧
    ∃ s s' n ρ, intWaitSyncSt.run s [] (List.replicate n (0, .run)) = some (s', ρ) ∧
      (s.mem.sync 4).count = 3 ∧ visits (events ρ) = [4] ∧ (s'.mem.sync 4).count ≤ 0 ∧
      (s'.mem.sync 4).status = 7 := by
  constructor
  · obtain ⟨s, π, s', ρ, hp, hp', ⟨ht, hl, ha⟩, hE, hin, hidle, hq⟩ := exists_paths_of_run
      (p := intWaitSync 1) (s := start) wakeUp (List.replicate 19 (2, .run))
      (P := fun s π s' ρ => ((s.loc 2).call = .wakeup 7 .l18 ∧ pending (events π) = [0, 1] ∧
          Asleep 1 1 (s.loc 1).frame s.mem) ∧ Allowed Decreasing (ρ ++ π) ∧
        (∀ x ∈ ρ, (x.pre.loc 2).call.sweeping 7 = true) ∧ (s'.loc 2).call = .idle ∧
        ∀ x ∈ ρ, x.tid = 2) (by decide +kernel)
    obtain ⟨sweeps, completed⟩ := (global_wakeup_sweeps 1 2 7).1 s π s' ρ hp ht hp' hin
    have h := sweeps.returned hidle
    have hS := h.2 (by decide) 1 (by rw [hl]; simp)
    have hc := completed hidle (by decide) hE
    rw [hl] at hc
    exact ⟨s, π, s', ρ, hp, hp', hl, ha, h.1.trans hl,
      hS.given fun x hx hne => absurd (hq x hx) hne, hc, (hc 1 (by simp)).2 1⟩
  · obtain ⟨s, π, hp, ht, hc, hcount⟩ := exists_path_of_run (p := intWaitSyncSt)
      (s := startSt Mem.init 0 4 3) (List.replicate 4 (0, .run) ++ [(0, .wakeup 7)])
      (P := fun s π => (∀ x ∈ π, x.tid = 0) ∧ (s.loc 0).call = .wakeup 7 .l17 ∧
        (s.mem.sync 4).count = 3) (by decide +kernel)
    obtain ⟨n, s', ρ, hrun, h⟩ := (global_wakeup_sweeps 1 0 7).2 Mem.init 4 3 s π rfl hp ht hc
    obtain ⟨hdown, hstatus⟩ := h.woken (by decide)
    exact ⟨s, s', n, ρ, hrun, hcount, h.visited, hdown, hstatus⟩

/-- Thread 0 registers and is in `progress()`; thread 1 is about to walk the ring. -/
def wakeOne : List (Tid × Act) :=
  [(0, .init 0 1), (0, .wait)] ++ List.replicate 13 (0, .run) ++ [(1, .wakeup 7), (1, .run)]

/-- **An update of size -3 while the walk is on leaves the count at 3** when it returns, and two of
2³¹ - 1 leave it at 2. -/
theorem not_completed :
    (∃ s π s' ρ, (intWaitSync 1).Path start π s ∧ (intWaitSync 1).Path s ρ s' ∧
      (s.loc 1).call = .wakeup 7 .l18 ∧ pending (events π) = [0] ∧
      (∀ x ∈ ρ, (x.pre.loc 1).call.sweeping 7 = true) ∧ (s'.loc 1).call = .idle ∧
      (s'.mem.sync 0).count = 3) ∧
    ∃ s π s' ρ, (intWaitSync 1).Path start π s ∧ (intWaitSync 1).Path s ρ s' ∧
      (s.loc 1).call = .wakeup 7 .l18 ∧ pending (events π) = [0] ∧
      (∀ x ∈ ρ, (x.pre.loc 1).call.sweeping 7 = true) ∧ (s'.loc 1).call = .idle ∧
      Allowed NonNeg (ρ ++ π) ∧ (s'.mem.sync 0).count = 2 :=
  ⟨exists_paths_of_run (p := intWaitSync 1) (s := start) wakeOne
      (List.replicate 4 (1, .run) ++ [(2, .update 0 (-3) 0)] ++ List.replicate 2 (2, .run) ++
        List.replicate 6 (1, .run)) (by decide +kernel),
    exists_paths_of_run (p := intWaitSync 1) (s := start) wakeOne
      (List.replicate 4 (1, .run) ++
        [(2, .update 0 2147483647 0), (2, .run), (2, .run), (2, .update 0 2147483647 0), (2, .run),
          (2, .run)] ++ List.replicate 6 (1, .run)) (by decide +kernel)⟩

end Libult.WaitSync
