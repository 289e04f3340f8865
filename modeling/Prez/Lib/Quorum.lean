import Mathlib.Data.Fintype.Card
import Mathlib.Data.List.FinRange
import Mathlib.Order.Basic
import Mathlib.Data.Finset.Card
import Mathlib.Tactic.Common

/-!
# `Lib.Quorum` — majorities

Sets of more than half of a finite type, and the one fact consensus rests on: two of them meet. The value that
a majority has reached is read off a descending list.
-/

namespace Lib

variable {N : Type*} [Fintype N]

/-- More than half of all nodes. -/
def IsQuorum (Q : Finset N) : Prop := Fintype.card N < 2 * Q.card

/-- **Quorums intersect.** -/
theorem IsQuorum.inter [DecidableEq N] {P Q : Finset N} (hP : IsQuorum P) (hQ : IsQuorum Q) :
    ∃ v, v ∈ P ∧ v ∈ Q := by
  by_contra hno
  have hdisj : Disjoint P Q := by
    rw [Finset.disjoint_left]
    intro v hv hv'
    exact hno ⟨v, hv, hv'⟩
  have hcard : (P ∪ Q).card = P.card + Q.card := Finset.card_union_of_disjoint hdisj
  have hle : (P ∪ Q).card ≤ Fintype.card N := Finset.card_le_univ _
  unfold IsQuorum at hP hQ
  omega

theorem IsQuorum.nonempty {Q : Finset N} (hQ : IsQuorum Q) : ∃ v, v ∈ Q := by
  have : 0 < Q.card := by
    unfold IsQuorum at hQ
    omega
  exact Finset.card_pos.mp this

theorem IsQuorum.mono {P Q : Finset N} (hP : IsQuorum P) (hPQ : P ⊆ Q) : IsQuorum Q := by
  have := Finset.card_le_card hPQ
  unfold IsQuorum at *
  omega

/-! ## Reached values -/

variable {α : Type*} {k : Nat}

/-- In a descending list, everything before a value has reached it. -/
theorem le_countP_of_descending [Preorder α] [DecidableLE α] {l : List α} (hl : l.Pairwise (· ≥ ·)) {c : α}
    (hk : l[k]? = some c) : k + 1 ≤ l.countP (fun x => c ≤ x) := by
  obtain ⟨hlt, rfl⟩ := List.getElem?_eq_some_iff.mp hk
  -- the first `k + 1` values are enough of them
  have hall : ∀ x ∈ l.take (k + 1), l[k] ≤ x := by
    intro x hx
    obtain ⟨j, hj, rfl⟩ := List.mem_iff_getElem.mp hx
    rw [List.length_take] at hj
    rw [List.getElem_take]
    rcases Nat.lt_or_ge j k with hjk | hjk
    · exact List.pairwise_iff_getElem.mp hl j k _ hlt hjk
    · have : j = k := by omega
      subst this
      exact le_rfl
  calc k + 1 = (l.take (k + 1)).length := by rw [List.length_take]; omega
    _ = (l.take (k + 1)).countP (fun x => l[k] ≤ x) := by
        rw [eq_comm, List.countP_eq_length]
        exact fun x hx => decide_eq_true (hall x hx)
    _ ≤ l.countP (fun x => l[k] ≤ x) := (List.take_sublist ..).countP_le

/-- In a descending list, only what stands before a value is above it. -/
theorem countP_above_of_descending [Preorder α] [DecidableLT α] {l : List α} (hl : l.Pairwise (· ≥ ·)) {c : α}
    (hk : l[k]? = some c) : l.countP (fun x => c < x) ≤ k := by
  obtain ⟨hlt, rfl⟩ := List.getElem?_eq_some_iff.mp hk
  have hnone : (l.drop k).countP (fun x => l[k] < x) = 0 := by
    rw [List.countP_eq_zero]
    intro x hx
    obtain ⟨j, hj, rfl⟩ := List.mem_iff_getElem.mp hx
    rw [List.getElem_drop]
    rcases Nat.eq_zero_or_pos j with rfl | hpos
    · simp
    · have := List.pairwise_iff_getElem.mp hl k (k + j) hlt (by rw [List.length_drop] at hj; omega) (by omega)
      simpa using this.not_gt
  calc l.countP (fun x => l[k] < x)
      = (l.take k).countP (fun x => l[k] < x) + (l.drop k).countP (fun x => l[k] < x) := by
        rw [← List.countP_append, List.take_append_drop]
    _ ≤ k := by
        rw [hnone, Nat.add_zero]
        exact List.countP_le_length.trans (List.length_take_le ..)

/-- The `k`-th largest of a list of values. -/
structure KthLargest {α : Type*} [LinearOrder α] (l : List α) (k : Nat) (c : α) : Prop where
  mem : c ∈ l
  reached : k ≤ l.countP (fun x => c ≤ x)
  above : l.countP (fun x => c < x) < k

theorem KthLargest.of_descending [LinearOrder α] {l r : List α} (hp : r.Perm l) (hr : r.Pairwise (· ≥ ·)) {c : α}
    (hk : r[k]? = some c) : KthLargest l (k + 1) c where
  mem := hp.mem_iff.mp (List.mem_of_getElem? hk)
  reached := by
    rw [← hp.countP_eq]
    exact le_countP_of_descending hr hk
  above := by
    rw [← hp.countP_eq]
    exact Nat.lt_succ_of_le (countP_above_of_descending hr hk)

/-- The `k`-th largest value is the greatest that `k` values have reached. -/
theorem KthLargest.reached_iff [LinearOrder α] {l : List α} {c : α} (h : KthLargest l k c) (a : α) :
    k ≤ l.countP (fun x => a ≤ x) ↔ a ≤ c := by
  constructor
  · intro hk
    by_contra hlt
    have hmono : l.countP (fun x => a ≤ x) ≤ l.countP (fun x => c < x) :=
      List.countP_mono_left fun x _ hx => decide_eq_true ((not_le.mp hlt).trans_le (of_decide_eq_true hx))
    have habove := h.above
    omega
  · intro hle
    exact h.reached.trans
      (List.countP_mono_left fun x _ hx => decide_eq_true (hle.trans (of_decide_eq_true hx)))

/-- There is one `k`-th largest value. -/
theorem KthLargest.unique [LinearOrder α] {l : List α} {c d : α} (hc : KthLargest l k c) (hd : KthLargest l k d) :
    c = d :=
  le_antisymm ((hd.reached_iff c).mp hc.reached) ((hc.reached_iff d).mp hd.reached)

/-- Counting the nodes is counting their values. -/
theorem card_filter_ofFn {n : Nat} (f : Fin n → α) (p : α → Prop) [DecidablePred p] :
    (Finset.univ.filter fun v => p (f v)).card = (List.ofFn f).countP (fun x => p x) := by
  rw [List.ofFn_eq_map, List.countP_map, List.countP_eq_length_filter,
    ← List.toFinset_card_of_nodup ((List.nodup_finRange n).filter _)]
  congr 1
  ext v
  simp

end Lib
