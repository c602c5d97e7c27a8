import Libult.Links.Chain
import Libult.WaitSync.Pending
import Libult.WaitSync.Single

/-!
# WaitSync/Walk — the global wakeup without threads

`threads_base_wait_sync_global_wakeup_st` walks the list to its `NULL`.  What `sync_wait_st` leaves
there has one; the ring that `ompi_sync_wait_mt` keeps has none, and the walk does not know the case
that the variant with threads has for it.

    l9 sync = list ─▸ l9t sync != NULL ─▸ l10 wait_sync_update ─▸ l9n sync = sync->next
                       ╰─ NULL ─▸ return  ╰──────────────◂────────────────────╯
-/

namespace Libult.WaitSync

open Interleaving Program Links

/-! ## The function -/

/-- Locations of `threads_base_wait_sync_global_wakeup_st`. -/
inductive WakeupStPc
  | l9 -- for (sync = threads_base_wait_sync_list;
  | l9t (sync : Option Sid) -- sync != NULL;
  | l10 (sync : Sid) (pc : UpdateStPc) -- wait_sync_update(sync, 0, status);
  | l9n (sync : Sid) -- sync = sync->next)
  deriving DecidableEq, Repr

/-- `threads_base_wait_sync_global_wakeup_st(status)`; `none` for the next location is its
return. -/
def globalWakeupSt (status : ℤ) (m : Mem) : WakeupStPc → Option WakeupStPc × Mem
  | .l9 => (some (.l9t m.waitSyncList), m)
  | .l9t none => (none, m)
  | .l9t (some S) => (some (.l10 S .l110), m)
  | .l10 S pc =>
      (some ((waitSyncUpdateSt S 0 status m pc).1.elim (.l9n S) (.l10 S)),
        (waitSyncUpdateSt S 0 status m pc).2)
  | .l9n S => (some (.l9t (m.sync S).next), m)

/-- `n` lines of it. -/
def walkSt (status : ℤ) : ℕ → Option WakeupStPc × Mem → Option WakeupStPc × Mem
  | 0, q => q
  | _ + 1, (none, m) => (none, m)
  | n + 1, (some pc, m) => walkSt status n (globalWakeupSt status m pc)

/-- What one `wait_sync_update(sync, 0, status)` leaves. -/
def Mem.wakeSt (status : ℤ) (m : Mem) (S : Sid) : Mem :=
  if SUCCESS = status then m.setCount S ((m.sync S).count + -0)
  else (m.setStatus S status).setCount S 0

section Walk

variable {status : ℤ} {m m' : Mem} {S : Sid} {o : Option Sid} {L : List Sid} {n : ℕ}

theorem Mem.next_wakeSt (status : ℤ) (m : Mem) (S : Sid) : (m.wakeSt status S).next = m.next := by
  funext X
  by_cases hX : X = S <;> unfold wakeSt <;> split <;>
    simp [next, setCount, setStatus, hX]

/-- How many lines a turn of the loop takes. -/
def turnSt (status : ℤ) : ℕ := if SUCCESS = status then 4 else 5

/-- **One turn of the loop.** -/
theorem walkSt_turn : walkSt status (turnSt status + n) (some (.l9t (some S)), m) =
    walkSt status n (some (.l9t (m.next S)), m.wakeSt status S) := by
  unfold turnSt
  split
  next h =>
    have hw : m.wakeSt status S = m.setCount S ((m.sync S).count + -0) := if_pos h
    rw [Nat.add_comm, ← Mem.next_wakeSt status m S, hw]
    simp [walkSt, globalWakeupSt, waitSyncUpdateSt, h, Mem.next]
  next h =>
    have hw : m.wakeSt status S = (m.setStatus S status).setCount S 0 := if_neg h
    rw [Nat.add_comm, ← Mem.next_wakeSt status m S, hw]
    simp [walkSt, globalWakeupSt, waitSyncUpdateSt, h, Mem.next]

theorem walkSt_done : walkSt status n (none, m) = (none, m) := by
  cases n <;> rfl

/-- A walk that has not ended goes on with its next line. -/
theorem walkSt_ends {pc : WakeupStPc} (h : walkSt status n (some pc, m) = (none, m')) :
    ∃ k, n = k + 1 ∧ walkSt status k (globalWakeupSt status m pc) = (none, m') := by
  cases n with
  | zero => cases h
  | succ k => exact ⟨k, rfl, h⟩

/-- A walk that ends takes its turns whole. -/
theorem walkSt_turn_ends (h : walkSt status n (some (.l9t (some S)), m) = (none, m')) :
    ∃ k, n = turnSt status + k ∧
      walkSt status k (some (.l9t (m.next S)), m.wakeSt status S) = (none, m') := by
  have hle : turnSt status ≤ n := by
    obtain ⟨k₁, rfl, h₁⟩ := walkSt_ends h
    obtain ⟨k₂, rfl, h₂⟩ := walkSt_ends h₁
    by_cases hs : SUCCESS = status
    · rw [turnSt, if_pos hs]
      simp only [globalWakeupSt, waitSyncUpdateSt, if_pos hs, Option.elim_some] at h₂
      obtain ⟨k₃, rfl, h₃⟩ := walkSt_ends h₂
      obtain ⟨k₄, rfl, -⟩ := walkSt_ends h₃
      omega
    · rw [turnSt, if_neg hs]
      simp only [globalWakeupSt, waitSyncUpdateSt, if_neg hs, Option.elim_some] at h₂
      obtain ⟨k₃, rfl, h₃⟩ := walkSt_ends h₂
      obtain ⟨k₄, rfl, h₄⟩ := walkSt_ends h₃
      obtain ⟨k₅, rfl, -⟩ := walkSt_ends h₄
      omega
  obtain ⟨k, rfl⟩ := Nat.exists_eq_add_of_le hle
  exact ⟨k, rfl, walkSt_turn.symm.trans h⟩

/-- **Along a list that ends the walk ends**, and has updated each sync of it. -/
theorem walkSt_of_chain (status : ℤ) (h : Chain m.next o L) :
    ∃ n, walkSt status n (some (.l9t o), m) = (none, L.foldl (Mem.wakeSt status) m) := by
  induction L generalizing o m with
  | nil =>
    obtain rfl : o = none := h
    exact ⟨1, rfl⟩
  | cons S L ih =>
    obtain ⟨rfl, h⟩ := h
    have hnext := Mem.next_wakeSt status m S
    obtain ⟨n, hn⟩ := ih (m := m.wakeSt status S) (o := m.next S) (by rwa [hnext])
    exact ⟨turnSt status + n, walkSt_turn.trans hn⟩

/-- **A walk that ends has gone along such a list.** -/
theorem chain_of_walkSt (h : walkSt status n (some (.l9t o), m) = (none, m')) :
    ∃ L, Chain m.next o L := by
  induction n using Nat.strongRecOn generalizing o m with
  | ind n ih =>
    cases o with
    | none => exact ⟨[], rfl⟩
    | some S =>
      obtain ⟨k, rfl, hk⟩ := walkSt_turn_ends h
      have hpos : 0 < turnSt status := by
        unfold turnSt
        split <;> omega
      obtain ⟨L, hL⟩ := ih k (by omega) hk
      rw [Mem.next_wakeSt] at hL
      exact ⟨S :: L, rfl, hL⟩

/-- How a walk ends does not depend on when it is looked at. -/
theorem walkSt_unique {n' : ℕ} {q : Option WakeupStPc × Mem} {m₁ m₂ : Mem}
    (h₁ : walkSt status n q = (none, m₁)) (h₂ : walkSt status n' q = (none, m₂)) : m₁ = m₂ := by
  induction n generalizing q n' with
  | zero =>
    obtain rfl : q = (none, m₁) := h₁
    rw [walkSt_done] at h₂
    exact (Prod.mk.inj h₂).2
  | succ n ih =>
    obtain ⟨_ | pc, m⟩ := q
    · rw [walkSt_done] at h₁ h₂
      exact (Prod.mk.inj h₁).2.symm.trans (Prod.mk.inj h₂).2
    · obtain ⟨k, rfl, hk⟩ := walkSt_ends h₂
      exact ih h₁ hk

/-- **What the walk leaves**: an error completes every sync on its way, and `SUCCESS` changes
nothing. -/
theorem sync_foldl_wakeSt (X : Sid) : (L.foldl (Mem.wakeSt status) m).sync X =
    if X ∈ L ∧ SUCCESS ≠ status then { m.sync X with count := 0, status := status }
    else m.sync X := by
  induction L generalizing m with
  | nil => simp
  | cons S L ih =>
    rw [List.foldl_cons, ih]
    by_cases hs : SUCCESS = status
    · have hw : m.wakeSt status S = m.setCount S ((m.sync S).count + -0) := if_pos hs
      rw [hw]
      by_cases hX : X = S <;> simp [hs, hX, Mem.setCount]
    · have hw : m.wakeSt status S = (m.setStatus S status).setCount S 0 := if_neg hs
      rw [hw]
      by_cases hX : X = S
      · subst hX
        by_cases hL : X ∈ L <;> simp [hs, hL, Mem.setCount, Mem.setStatus]
      · by_cases hL : X ∈ L <;> simp [hs, hX, hL, Mem.setCount, Mem.setStatus]

end Walk

/-- **The wakeup without threads returns iff the list ends**, whatever is in memory; then it has
completed every sync of the list with the error, or with `SUCCESS` changed nothing, and no other. -/
theorem wakeup_st_iff (m : Mem) (status : ℤ) :
    ((∃ n m', walkSt status n (some .l9, m) = (none, m')) ↔
      ∃ L, Chain m.next m.waitSyncList L) ∧
    ∀ L n m', Chain m.next m.waitSyncList L → walkSt status n (some .l9, m) = (none, m') →
      ∀ X, m'.sync X = if X ∈ L ∧ SUCCESS ≠ status then
        { m.sync X with count := 0, status := status } else m.sync X := by
  have first : ∀ n, walkSt status (n + 1) (some .l9, m) =
      walkSt status n (some (.l9t m.waitSyncList), m) := fun _ => rfl
  refine ⟨⟨?_, fun ⟨L, hL⟩ => ?_⟩, fun L n m' hL hn X => ?_⟩
  · rintro ⟨n, m', h⟩
    obtain ⟨k, rfl, hk⟩ := walkSt_ends h
    exact chain_of_walkSt hk
  · obtain ⟨n, hn⟩ := walkSt_of_chain status hL
    exact ⟨n + 1, _, (first n).trans hn⟩
  · obtain ⟨k, hk⟩ := walkSt_of_chain status hL
    rw [walkSt_unique hn ((first k).trans hk)]
    exact sync_foldl_wakeSt X

/-! ## On the ring -/

/-- From a node of a ring the list does not end. -/
theorem not_chain_of_ring {next prev : Sid → Option Sid} {l L : List Sid} {S : Sid}
    (hr : Ring next prev l) (hS : S ∈ l) : ¬ Chain next (some S) L := by
  intro h
  induction L generalizing S with
  | nil => cases h
  | cons a L ih =>
    obtain ⟨ha, hc⟩ := h
    obtain rfl := Option.some.inj ha
    obtain ⟨y, hy, hl⟩ := hr.exists_next hS
    exact ih hy (hl.next ▸ hc)

/-- **On the list of `ompi_sync_wait_mt` the wakeup without threads returns only where nobody
waits**: at any point of any run where the list is not being rewritten, the call ends iff no sync is
pending. -/
theorem wakeup_st_returns_iff {max : ℤ} {s : St} {π : List (Transition Tid Thread Mem Act Event)}
    (hp : (waitSync max).Path start π s) (hfree : s.mem.waitSyncLock = none) (status : ℤ) :
    (∃ n m', walkSt status n (some .l9, s.mem) = (none, m')) ↔ ∀ S, ¬ Waiting s S := by
  have o := ordered_of_path hp
  obtain ⟨head, ring⟩ := o.free hfree
  have hmem : ∀ S, S ∈ pending (events π) ↔ Waiting s S := fun S => o.mem_iff_waiting
  constructor
  · rintro ⟨n, m', h⟩ S hS
    obtain ⟨k, rfl, hk⟩ := walkSt_ends h
    obtain ⟨L, hL⟩ := chain_of_walkSt hk
    cases hl : pending (events π) with
    | nil => simp [← hmem, hl] at hS
    | cons a l =>
      rw [head, hl] at hL
      exact not_chain_of_ring ring (hl ▸ List.mem_cons_self) hL
  · intro hnone
    have hnil : pending (events π) = [] :=
      List.eq_nil_iff_forall_not_mem.mpr fun S hS => hnone S ((hmem S).mp hS)
    have hlist : s.mem.waitSyncList = none := by rw [head, hnil]; rfl
    obtain ⟨n, hn⟩ := walkSt_of_chain status (m := s.mem) (L := []) hlist
    exact ⟨n + 1, _, hn⟩

/-- Two threads wait: the call goes round. -/
theorem wakeup_st_returns_iff_behind :
    ∃ s π, (waitSync 1).Path start π s ∧ Waiting s 1 ∧
      ¬ ∃ n m', walkSt (-1) n (some .l9, s.mem) = (none, m') := by
  obtain ⟨s, π, hp, hpending, hfree⟩ := exists_path_of_run (p := waitSync 1) (s := start)
    sleepBehind (P := fun s π => pending (events π) = [0, 1] ∧ s.mem.waitSyncLock = none)
    (by decide)
  have hw : Waiting s 1 := (ordered_of_path hp).mem_iff_waiting.mp (by simp [hpending])
  exact ⟨s, π, hp, hw, fun h => (wakeup_st_returns_iff hp hfree (-1)).mp h 1 hw⟩

end Libult.WaitSync
