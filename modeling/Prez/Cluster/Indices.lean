import Prez.Cluster.Protocol
import Prez.Lib.Quorum

/-!
# `Prez.Cluster.Indices` — the index that a quorum has reached

`clusterUpdateCommitIndex` sorts the match indices with `qsort`, reverses the array in place and reads the entry
`quorumSize-1`. The comparison subtracts two `long long`s and returns the difference as an `int`, so it orders a pair only if
the lower half of the difference has its sign. `qsort` is known to sort when the comparison orders every pair; what it does
otherwise is left open, apart from that it permutes the array (`Qsorted`).

`quorum_selection` says that the entry is the right one, whatever `qsort` does, exactly if every pair is ordered. With pairs
that are not ordered some permutation puts another index there.
-/

namespace Prez

open Lib

/-! ## Sorting -/

/-- `compareIndices(a, b)`, with the overflow of the subtraction as `none`. -/
def compareIndicesLong (a b : Int) : Option Int := if LongLong (a - b) then some (compareIndices a b) else none

/-- The comparison has the sign of the difference. -/
def Orders (a b : Int) : Prop := ∃ c ∈ compareIndicesLong a b, (c < 0 ↔ a < b) ∧ (c = 0 ↔ a = b)

/-- What `qsort` with `compareIndices` may make of an array. -/
def Qsorted (l r : List Int) : Prop := r.Perm l ∧ ((∀ a ∈ l, ∀ b ∈ l, Orders a b) → r.Pairwise (· ≤ ·))

/-- The loop of `reverseIndices`, with `todo` turns to go. -/
def reverseLoop : (todo i j : Nat) → List Int → Option (List Int)
  | 0, _, _, indices => some indices
  | todo + 1, i, j, indices => do
    let temp ← indices[j]?
    let indices := indices.set j (← indices[i]?)
    reverseLoop todo (i + 1) (j - 1) (indices.set i temp)

/-- `reverseIndices(indices, size)`; `size` is an `int`. -/
def reverseIndices (indices : List Int) (size : Int) : Option (List Int) :=
  reverseLoop (size / 2).toNat 0 (size - 1).toNat indices

/-- `log_indices[quorumSize-1]` after `reverseIndices`. -/
def quorumIndex (sorted : List Int) : Option Int :=
  (reverseIndices sorted (toInt32 sorted.length)).bind fun indices => indices[quorumSize sorted.length - 1]?

/-! ## Reversing in place -/

/-- One swap. -/
theorem swap_get {l : List Int} {i j : Nat} (hi : i < l.length) (hj : j < l.length) (k : Nat) :
    ((l.set j l[i]).set i l[j])[k]? = if k = i then l[j]? else if k = j then l[i]? else l[k]? := by
  rw [List.getElem?_set, List.getElem?_set, List.length_set, List.getElem?_eq_getElem hi, List.getElem?_eq_getElem hj]
  by_cases hki : k = i
  · rw [if_pos hki.symm, if_pos hi, if_pos hki]
  rw [if_neg (Ne.symm hki), if_neg hki]
  by_cases hkj : k = j
  · rw [if_pos hkj.symm, if_pos hj, if_pos hkj]
  · rw [if_neg (Ne.symm hkj), if_neg hkj]

/-- What the loop leaves at each place. The two ends that it has swapped do not meet. -/
theorem reverseLoop_get : ∀ {todo i j : Nat} {l : List Int}, i + 2 * todo ≤ j + 1 → j < l.length →
    ∃ r, reverseLoop todo i j l = some r ∧
      ∀ k, r[k]? = if (i ≤ k ∧ k < i + todo) ∨ (j < k + todo ∧ k ≤ j) then l[i + j - k]? else l[k]? := by
  intro todo
  induction todo with
  | zero =>
    intro i j l _ _
    refine ⟨l, rfl, fun k => ?_⟩
    rw [if_neg (by omega)]
  | succ todo ih =>
    intro i j l hij hj
    have hi : i < l.length := by omega
    obtain ⟨r, hr, hget⟩ := @ih (i + 1) (j - 1) ((l.set j l[i]).set i l[j]) (by omega) (by
      rw [List.length_set, List.length_set]
      omega)
    refine ⟨r, ?_, fun k => ?_⟩
    · rw [reverseLoop, List.getElem?_eq_getElem hj, List.getElem?_eq_getElem hi]
      exact hr
    · have hsum : i + 1 + (j - 1) - k = i + j - k := by omega
      rw [hget k, hsum, swap_get hi hj, swap_get hi hj]
      by_cases hinner : (i + 1 ≤ k ∧ k < i + 1 + todo) ∨ (j - 1 < k + todo ∧ k ≤ j - 1)
      · rw [if_pos hinner, if_neg (by omega), if_neg (by omega), if_pos (by omega)]
      · rw [if_neg hinner]
        by_cases hki : k = i
        · rw [if_pos hki, if_pos (by omega), hki, Nat.add_sub_cancel_left]
        · rw [if_neg hki]
          by_cases hkj : k = j
          · rw [if_pos hkj, if_pos (by omega), hkj, Nat.add_sub_cancel]
          · rw [if_neg hkj, if_neg (by omega)]

/-- **`reverseIndices` reverses**, for an even and for an odd number of entries. -/
theorem reverseIndices_eq {l : List Int} (hlen : l.length < 2 ^ 31) :
    reverseIndices l (toInt32 l.length) = some l.reverse := by
  have hint : toInt32 (l.length : Int) = l.length := by
    unfold toInt32
    omega
  rw [reverseIndices, hint]
  rcases Nat.eq_zero_or_pos l.length with h0 | hpos
  · rw [List.length_eq_zero_iff.mp h0]
    rfl
  · have htodo : ((l.length : Int) / 2).toNat = l.length / 2 := by omega
    have hlast : ((l.length : Int) - 1).toNat = l.length - 1 := by omega
    rw [htodo, hlast]
    obtain ⟨r, hr, hget⟩ := @reverseLoop_get (l.length / 2) 0 (l.length - 1) l (by omega) (by omega)
    rw [hr]
    refine congrArg some (List.ext_getElem? fun k => ?_)
    rw [hget k]
    rcases Nat.lt_or_ge k l.length with hk | hk
    · rw [List.getElem?_reverse hk]
      by_cases hends : (0 ≤ k ∧ k < 0 + l.length / 2) ∨ (l.length - 1 < k + l.length / 2 ∧ k ≤ l.length - 1)
      · rw [if_pos hends, Nat.zero_add]
      · -- the entry in the middle
        have hmid : l.length - 1 - k = k := by omega
        rw [if_neg hends, hmid]
    · rw [if_neg (by omega), List.getElem?_eq_none hk, List.getElem?_eq_none (by rw [List.length_reverse]; exact hk)]

/-! ## The comparison -/

theorem Orders.refl (a : Int) : Orders a a := by
  have hcmp : compareIndicesLong a a = some 0 := by
    rw [compareIndicesLong, compareIndices, Int.sub_self, if_pos (by decide)]
    rfl
  exact ⟨0, hcmp, by omega, by omega⟩

/-- A pair whose difference is an `int` is ordered. -/
theorem Orders.of_int {a b : Int} (h1 : -(2 ^ 31) ≤ a - b) (h2 : a - b < 2 ^ 31) : Orders a b := by
  have hlong : LongLong (a - b) := by
    unfold LongLong
    omega
  have hcmp : compareIndices a b = a - b := by
    unfold compareIndices toInt32
    omega
  refine ⟨a - b, by rw [compareIndicesLong, if_pos hlong, hcmp]; rfl, ?_, ?_⟩ <;> omega

/-- The sort of `clusterUpdateCommitIndex` is one that `qsort` may make. -/
theorem sortIndices_qsorted (l : List Int) : Qsorted l (sortIndices l) := by
  refine ⟨List.perm_insertionSort .., fun hord => ?_⟩
  have hmap := List.map_insertionSort (fun a b => compareIndices a b ≤ 0) (· ≤ ·) id l (by
    intro a ha b hb
    obtain ⟨c, hc, hlt, heq⟩ := hord a ha b hb
    have hcmp : compareIndices a b = c := by
      unfold compareIndicesLong at hc
      split at hc
      · exact Option.some.inj hc
      · cases hc
    rw [hcmp]
    dsimp only [id]
    omega)
  rw [List.map_id, List.map_id] at hmap
  rw [sortIndices, hmap]
  exact List.pairwise_insertionSort ..

/-! ## The entry that is read -/

theorem quorumIndex_eq {l : List Int} (hlen : l.length < 2 ^ 31) :
    quorumIndex l = l.reverse[quorumSize l.length - 1]? := by
  rw [quorumIndex, reverseIndices_eq hlen, Option.bind_some]

/-- What may stand at the entry that is read: the `quorumSize`-th largest index if the comparison orders every pair,
    else any of them. -/
def MayRead (l : List Int) (c : Int) : Prop :=
  c ∈ l ∧ ((∀ a ∈ l, ∀ b ∈ l, Orders a b) → KthLargest l (quorumSize l.length) c)

/-- There is an entry to read as soon as there is a node. -/
theorem Qsorted.read {l r : List Int} (hr : Qsorted l r) (hne : l ≠ []) :
    ∃ c, r.reverse[quorumSize l.length - 1]? = some c := by
  have hpos : 0 < l.length := List.length_pos_of_ne_nil hne
  refine ⟨_, List.getElem?_eq_getElem ?_⟩
  rw [List.length_reverse, hr.1.length_eq]
  unfold quorumSize
  omega

theorem Qsorted.mayRead {l r : List Int} (hr : Qsorted l r) {c : Int}
    (hc : r.reverse[quorumSize l.length - 1]? = some c) : MayRead l c := by
  have hp : r.reverse.Perm l := (List.reverse_perm r).trans hr.1
  exact ⟨hp.mem_iff.mp (List.mem_of_getElem? hc), fun hall =>
    KthLargest.of_descending hp (List.pairwise_reverse.mpr (hr.2 hall)) hc⟩

/-- Any index can be put where the entry is read. -/
theorem exists_perm_read {l : List Int} {a : Int} (ha : a ∈ l) :
    ∃ r : List Int, r.Perm l ∧ r.reverse[quorumSize l.length - 1]? = some a := by
  obtain ⟨l', hl'⟩ : ∃ l', l.Perm (a :: l') := ⟨l.erase a, List.perm_cons_erase ha⟩
  have hlength : l.length = l'.length + 1 := hl'.length_eq
  -- `a` goes to the place from which the reversal takes it
  let k := l.length - quorumSize l.length
  have hperm : (l'.take k ++ a :: l'.drop k).Perm l := by
    refine List.perm_middle.trans ?_
    rw [List.take_append_drop]
    exact hl'.symm
  refine ⟨_, hperm, ?_⟩
  have hk : k ≤ l'.length := by
    show l.length - quorumSize l.length ≤ l'.length
    unfold quorumSize
    omega
  have hplace : l.length - 1 - (quorumSize l.length - 1) = k := by
    show _ = l.length - quorumSize l.length
    unfold quorumSize
    omega
  rw [List.getElem?_reverse (by
    rw [hperm.length_eq]
    unfold quorumSize
    omega), hperm.length_eq, hplace, List.getElem?_append_right (List.length_take_le ..), List.length_take,
    Nat.min_eq_left hk, Nat.sub_self]
  rfl

/-- **The entries that may be read** are those that some run of `qsort` leads to. -/
theorem mayRead_iff {l : List Int} {c : Int} :
    MayRead l c ↔ ∃ r, Qsorted l r ∧ r.reverse[quorumSize l.length - 1]? = some c := by
  constructor
  · rintro ⟨hmem, hkth⟩
    by_cases hall : ∀ a ∈ l, ∀ b ∈ l, Orders a b
    · obtain ⟨d, hd⟩ := (sortIndices_qsorted l).read (List.ne_nil_of_mem hmem)
      have heq : d = c := (((sortIndices_qsorted l).mayRead hd).2 hall).unique (hkth hall)
      exact ⟨_, sortIndices_qsorted l, heq ▸ hd⟩
    · obtain ⟨r, hp, hread⟩ := exists_perm_read hmem
      exact ⟨r, ⟨hp, fun h => absurd h hall⟩, hread⟩
  · rintro ⟨r, hr, hread⟩
    exact hr.mayRead hread

/-- **Quorum selection.** Whatever `qsort` does with the match indices of fewer than 2³¹ nodes, the entry that
    `clusterUpdateCommitIndex` reads is the `quorumSize`-th largest of them, if and only if there is a node and the comparison
    orders every pair. -/
theorem quorum_selection (l : List Int) (hlen : l.length < 2 ^ 31) :
    (∀ r, Qsorted l r → ∃ c, quorumIndex r = some c ∧ KthLargest l (quorumSize l.length) c) ↔
      l ≠ [] ∧ ∀ a ∈ l, ∀ b ∈ l, Orders a b := by
  have hread : ∀ {r}, Qsorted l r → quorumIndex r = r.reverse[quorumSize l.length - 1]? := by
    intro r hr
    rw [quorumIndex_eq (by rw [hr.1.length_eq]; exact hlen), hr.1.length_eq]
  constructor
  · intro h
    constructor
    · rintro rfl
      obtain ⟨c, -, hc⟩ := h [] ⟨.refl _, fun _ => .nil⟩
      exact absurd hc.mem List.not_mem_nil
    · intro a ha b hb
      by_contra hno
      -- no order is promised, so `a` and `b` can both be the entry that is read
      have hany : ∀ {c}, c ∈ l → KthLargest l (quorumSize l.length) c := by
        intro c hc
        obtain ⟨r, hr, hc'⟩ := mayRead_iff.mp ⟨hc, fun hall => absurd (hall a ha b hb) hno⟩
        obtain ⟨d, hd, hkth⟩ := h r hr
        cases (hread hr ▸ hd).symm.trans hc'
        exact hkth
      have hab : a = b := (hany ha).unique (hany hb)
      rw [hab] at hno
      exact hno (.refl b)
  · rintro ⟨hne, hall⟩ r hr
    obtain ⟨c, hc⟩ := hr.read hne
    exact ⟨c, (hread hr).trans hc, (hr.mayRead hc).2 hall⟩

/-- The hypotheses at work: the sort that is modelled, on three indices. -/
theorem quorum_selection_three : KthLargest ([5, 9, 7] : List Int) (quorumSize 3) 7 := by
  have hall : ∀ a ∈ ([5, 9, 7] : List Int), ∀ b ∈ ([5, 9, 7] : List Int), Orders a b := by
    intro a ha b hb
    have hbound : ∀ c ∈ ([5, 9, 7] : List Int), 0 ≤ c ∧ c ≤ 9 := by decide
    have ha' := hbound a ha
    have hb' := hbound b hb
    exact .of_int (by omega) (by omega)
  obtain ⟨c, hc, hkth⟩ := (quorum_selection [5, 9, 7] (by decide)).mpr ⟨by decide, hall⟩ _ (sortIndices_qsorted _)
  have hseven : quorumIndex (sortIndices [5, 9, 7]) = some 7 := by decide +kernel
  cases hseven.symm.trans hc
  exact hkth

/-- One of three nodes is 2³² entries ahead. The comparison finds it equal to the others, a sort that keeps their order is
    one that `qsort` may make, and the entry that is read is the index of that node alone. -/
theorem quorum_selection_truncated :
    Qsorted [0, 2 ^ 32, 0] (sortIndices [0, 2 ^ 32, 0]) ∧ quorumIndex (sortIndices [0, 2 ^ 32, 0]) = some (2 ^ 32) ∧
      ([0, 2 ^ 32, 0] : List Int).countP (fun x => 2 ^ 32 ≤ x) < quorumSize 3 :=
  ⟨sortIndices_qsorted _, by decide +kernel, by decide⟩

/-! ## The commit index -/

section

variable {n : Nat} {x : ClusterState n}

/-- The match index of every node, as the array has them. -/
def matchIndices (x : ClusterState n) : List Int := List.ofFn fun j => (x.nodes j).matchIndex

/-- `clusterUpdateCommitIndex()`, with the array as `qsort` leaves it. -/
def updateCommitIndexFrom (x : ClusterState n) (sorted : List Int) : ClusterState n :=
  match sorted.reverse[quorumSize n - 1]? with
  | some commitIndex =>
    if commitIndex > x.commitIndex ∧ x.currentTerm = logGetTerm x.log commitIndex then { x with commitIndex }
    else x
  | none => x

theorem clusterUpdateCommitIndex_from (x : ClusterState n) :
    clusterUpdateCommitIndex x = updateCommitIndexFrom x (sortIndices (matchIndices x)) := rfl

theorem length_matchIndices (x : ClusterState n) : (matchIndices x).length = n := List.length_ofFn

/-- What is done with the index that is read. -/
theorem updateCommitIndexFrom_commitIndex {sorted : List Int} {c : Int}
    (hc : sorted.reverse[quorumSize n - 1]? = some c) : (updateCommitIndexFrom x sorted).commitIndex =
      if c > x.commitIndex ∧ x.currentTerm = logGetTerm x.log c then c else x.commitIndex := by
  unfold updateCommitIndexFrom
  rw [hc]
  dsimp only
  split <;> rfl

/-- If the comparison orders every pair, the index that is read is the greatest that a quorum of nodes has reached. -/
theorem MayRead.reached_iff {c : Int} (hc : MayRead (matchIndices x) c)
    (hall : ∀ a ∈ matchIndices x, ∀ b ∈ matchIndices x, Orders a b) (a : Int) :
    quorumSize n ≤ (Finset.univ.filter fun j => a ≤ (x.nodes j).matchIndex).card ↔ a ≤ c := by
  have hreached := (hc.2 hall).reached_iff a
  rw [length_matchIndices] at hreached
  rw [card_filter_ofFn (fun j => (x.nodes j).matchIndex) (a ≤ ·)]
  exact hreached

end

end Prez
