import Libult.WaitSync.Pending

/-!
# WaitSync/Ints — the counts in `int32_t`s, and what does not depend on them

Who holds which lock, and what the list looks like, is nothing the counts have a part in: a run with
the counts in `int32_t`s keeps the locks and the list as a run in integers does, whatever wraps.  A
run in which nothing wraps is one in integers.
-/

namespace Libult.WaitSync

open Interleaving Program

/-! ## What is kept whatever wraps -/

section Ints

variable {loc : Tid → Thread} {m : Mem} {h : List Event} {t : Tid} {th : Thread}

theorem Named.ints (n : Named m) : Named m.ints := ⟨n.list, n.next, n.prev⟩

theorem Held.ints (hh : Held t th m) : Held t th m.ints :=
  ⟨hh.nested, hh.own, hh.target, hh.list, hh.lock, hh.sleep⟩

theorem Locked.ints (hs : Locked ⟨loc, m⟩) : Locked ⟨loc, m.ints⟩ :=
  ⟨hs.named.ints, fun t => (hs.held t).ints⟩

theorem WaitPc.shape_ints {pc : WaitPc} {S : Sid} {l : List Sid} (hs : pc.shape S l m) :
    pc.shape S l m.ints := by
  have whole : Whole l m → Whole l m.ints := fun hw => hw.congr rfl (fun _ _ => rfl) fun _ _ => rfl
  cases pc <;> first | exact hs | exact whole hs | exact ⟨whole hs.1, hs.2⟩

theorem View.ints {l : List Sid} (v : View l m th) : View l m.ints th :=
  ⟨fun S pc hf hl => WaitPc.shape_ints (v.frame S pc hf hl), fun hl =>
    ⟨(v.call hl).1.congr rfl (fun _ _ => rfl) fun _ _ => rfl, (v.call hl).2⟩⟩

theorem Ordered.ints (o : Ordered h ⟨loc, m⟩) : Ordered h ⟨loc, m.ints⟩ :=
  ⟨o.nodup, o.mem, fun hf => (o.free hf).congr rfl (fun _ _ => rfl) fun _ _ => rfl,
    fun t => (o.view t).ints⟩

end Ints

/-! ## A run in which nothing wraps -/

/-- **Nothing wraps**: a count that is initialised or decremented comes to an `int32_t`. -/
def Fits (s : St) (t : Tid) (a : Act) : Prop :=
  match a, (s.loc t).call.updating with
  | .init _ c, _ => -2 ^ 31 ≤ c ∧ c < 2 ^ 31
  | .run, some (S, u, _, .l111) =>
      -2 ^ 31 ≤ (s.mem.sync S).count + -u ∧ (s.mem.sync S).count + -u < 2 ^ 31
  | _, _ => True

instance (s : St) (t : Tid) (a : Act) : Decidable (Fits s t a) := by
  unfold Fits
  split <;> infer_instance

section Fits

variable {max : ℤ} {s s' : St} {t : Tid} {a : Act} {th : Thread} {m : Mem} {e : Event}
  {π : List (Transition Tid Thread Mem Act Event)}

/-- An update writes one count. -/
theorem Mem.Ints.modify {S : Sid} {f : Sync → Sync} (hi : m.Ints)
    (hc : int32 (f (m.sync S)).count = (f (m.sync S)).count) : (m.modify S f).Ints := fun X => by
  by_cases hX : X = S
  · simpa [hX] using hc
  · simpa [hX] using hi X

theorem waitSyncUpdate_ints {S : Sid} {u st : ℤ} {m' : Mem} {pc : UpdatePc} {pc' : Option UpdatePc}
    (hi : m.Ints)
    (hf : pc = .l111 → -2 ^ 31 ≤ (m.sync S).count + -u ∧ (m.sync S).count + -u < 2 ^ 31)
    (h : waitSyncUpdate t S u st m pc = some (pc', m', e)) : m'.Ints := by
  cases pc <;> simp only [waitSyncUpdate, Option.ite_none_right_eq_some, Option.some.injEq,
    Prod.mk.injEq] at h
  case l110 => obtain ⟨-, rfl, -⟩ := h; exact hi
  case l111 => obtain ⟨-, rfl, -⟩ := h; exact hi.modify (int32_of_mem (hf rfl).1 (hf rfl).2)
  case l118 => obtain ⟨-, rfl, -⟩ := h; exact hi.modify int32_zero
  case l52 => obtain ⟨-, -, rfl, -⟩ := h; exact hi.modify (hi S)
  all_goals obtain ⟨-, rfl, -⟩ := h; exact hi.modify (hi S)

/-- **One step keeps the counts**, if nothing wraps. -/
theorem Mem.Ints.step (hi : s.mem.Ints) (hf : Fits s t a)
    (hm : Moves max t a (s.loc t) s.mem th m e) : m.Ints := by
  unfold Fits at hf
  generalize s.loc t = th₀ at hm hf
  cases hm with
  | init => exact hi.modify (int32_of_mem hf.1 hf.2)
  | callWait | callRelease | callUpdate | callWakeup => exact hi
  | spurious => exact hi.modify (hi _)
  | update h =>
    refine waitSyncUpdate_ints hi ?_ h
    rintro rfl
    exact hf
  | @wakeup _ _ f st pc pc' _ h =>
    cases pc with
    | l24 S upc =>
      obtain ⟨⟨upc', m₁, e₁⟩, hu, hr⟩ := Option.map_eq_some_iff.mp h
      obtain ⟨-, rfl, -⟩ : _ = pc' ∧ _ = m ∧ _ = e := by simpa using hr
      refine waitSyncUpdate_ints hi ?_ hu
      rintro rfl
      exact hf
    | l17 =>
      simp only [globalWakeupMt, Option.ite_none_right_eq_some, Option.some.injEq,
        Prod.mk.injEq] at h
      obtain ⟨-, -, rfl, -⟩ := h
      exact hi
    | l18 | l18n | l25 | l29 =>
      simp only [globalWakeupMt, Option.some.injEq, Prod.mk.injEq] at h
      obtain ⟨-, rfl, -⟩ := h
      exact hi
  | wait h => exact hi.of_count (ompiSyncWaitMt_quiet h).count
  | release h => rw [waitSyncRelease_mem h]; exact hi

/-- **Where nothing wraps, a run with `int32_t`s is a run in integers.** -/
theorem path_of_intWaitSync (hp : (intWaitSync max).Path start π s) (hf : Allowed Fits π) :
    (waitSync max).Path start π s := by
  refine hp.of_stored hf fun π s' t a l m e hπ hE hx hexec => ?_
  have hi : s'.mem.Ints := hπ.invariant (fun _ s => s.mem.Ints) Fits
    (fun _ _ _ _ _ _ _ hi hx hexec => hi.step hx (moves_of_exec hexec)) hE fun _ => int32_zero
  exact (hi.step hx (moves_of_exec hexec)).ints_eq

end Fits

end Libult.WaitSync
