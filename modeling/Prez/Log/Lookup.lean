import Prez.Log.Replicate
import Prez.Log.Recovery

/-!
# `Prez.Log.Lookup` — positional lookup in 64 bits

`getLogNode` computes `index-1-logLength` and hands it to `listIndex`. The first subtraction is one of `long long`s, the second
is unsigned because `logLength` is, and the parameter of `listIndex` is a `long` again. `Prez.Log.State` has the difference as
an integer. Here it is computed as the machine does, and `none` is an overflow of a signed type: for `LLONG_MIN` in the first
subtraction, for a difference of `LONG_MIN` in the negation of `listIndex`.

`getLogNodeLong_eq` says where the two differ: not at all for an index that a log can have.
-/

namespace Prez

open Lib

/-! ## The functions in 64 bits -/

/-- An `unsigned long` converted to a `long`. -/
def toLong (x : Int) : Int := (x + 2 ^ 63) % 2 ^ 64 - 2 ^ 63

/-- `getLogNode(index)`. -/
def getLogNodeLong (s : LogState) (index : Int) : Option (Option Nat) :=
  if LongLong (index - 1) then listIndexLong (logLength s) (toLong (index - 1 - logLength s)) else none

/-- `getLogEntry(index)`. -/
def getLogEntryLong (s : LogState) (index : Int) : Option (Option LogEntryNode) :=
  (getLogNodeLong s index).map fun node => node.bind fun pos => s.logEntries[pos]?

/-- `logGetTerm(index)`. -/
def logGetTermLong (s : LogState) (index : Int) : Option Int :=
  (getLogEntryLong s index).map fun entry =>
    match entry with
    | some en => en.logEntry.term
    | none => 0

/-- `logVerifyAppend(index, term)`. -/
def logVerifyAppendLong (s : LogState) (index term : Int) : Option Bool :=
  if index = 0 then some true
  else if toULong index > logLength s then some false
  else
    -- `entry->log_entry.term` with no check for NULL
    (getLogEntryLong s index).bind fun entry => entry.map fun en => en.logEntry.term == term

/-! ## The position -/

section

variable {s : LogState} {i : Int}

/-- The length of a log whose entries have their positions as indices is a `long long`. -/
theorem logLength_lt (hc : Contiguous s.list) (hr : ∀ e ∈ s.list, e.InRange) : (logLength s : Int) < 2 ^ 63 := by
  rcases Nat.eq_zero_or_pos (logLength s) with h0 | hpos
  · rw [h0]
    decide
  · have hlt : logLength s - 1 < s.list.length := by
      rw [LogState.length_list]
      omega
    have hlast : s.list[logLength s - 1]? = some s.list[logLength s - 1] := List.getElem?_eq_getElem hlt
    have hindex := hc _ _ hlast
    have hlong : LongLong _ := (hr _ (List.getElem_mem hlt)).1
    unfold LongLong at hlong
    omega

/-- The difference is the integer one, unless it is below `LONG_MIN`. -/
theorem toLong_of_le {x : Int} (h1 : -(2 ^ 63) ≤ x) (h2 : x < 2 ^ 63) : toLong x = x := by
  unfold toLong
  omega

theorem toLong_of_lt {x : Int} (h1 : -(2 ^ 64) < x) (h2 : x < -(2 ^ 63)) : toLong x = x + 2 ^ 64 := by
  unfold toLong
  omega

/-- The index is one of a difference that does not wrap. -/
theorem getLogNodeLong_eq (hlen : (logLength s : Int) < 2 ^ 63) (hi : LongLong i) (hlow : -(2 ^ 63) + 1 + logLength s < i) :
    getLogNodeLong s i = some (getLogNode s i) := by
  unfold LongLong at hi
  have hsub : LongLong (i - 1) := by
    unfold LongLong
    omega
  rw [getLogNodeLong, if_pos hsub, toLong_of_le (by omega) (by omega), listIndexLong, if_neg (by omega), getLogNode]

/-- An index far below zero wraps to a position from the head. -/
theorem getLogNodeLong_wrap (hlen : (logLength s : Int) < 2 ^ 63) (hi : LongLong i) (hmin : i ≠ -(2 ^ 63))
    (hlow : i < -(2 ^ 63) + 1 + logLength s) :
    getLogNodeLong s i = some (if i + 2 ^ 64 ≤ 2 * logLength s then some (i - 1 - logLength s + 2 ^ 64).toNat else none) := by
  unfold LongLong at hi
  have hsub : LongLong (i - 1) := by
    unfold LongLong
    omega
  rw [getLogNodeLong, if_pos hsub, toLong_of_lt (by omega) (by omega), listIndexLong, if_neg (by omega), listIndex,
    if_neg (by omega)]
  congr 1
  by_cases hin : i + 2 ^ 64 ≤ 2 * logLength s
  · rw [if_pos hin, if_pos (by omega)]
  · rw [if_neg hin, if_neg (by omega)]

theorem getLogNodeLong_min : getLogNodeLong s (-(2 ^ 63)) = none := by
  rw [getLogNodeLong, if_neg (by decide)]

theorem getLogNodeLong_negation (hlen : (logLength s : Int) < 2 ^ 63) (heq : i = -(2 ^ 63) + 1 + logLength s) :
    getLogNodeLong s i = none := by
  have hsub : LongLong (i - 1) := by
    unfold LongLong
    omega
  have hdiff : toLong (i - 1 - logLength s) = -(2 ^ 63) := by
    unfold toLong
    omega
  rw [getLogNodeLong, if_pos hsub, hdiff, listIndexLong, if_pos rfl]

/-! ## Lookup and the consistency check -/

/-- The node with index `i`, if the log has one, and its term. -/
def LooksUp (s : LogState) (i : Int) (node : Option Nat) (term : Int) : Prop :=
  if 1 ≤ i ∧ i ≤ logLength s then
    ∃ pos en, node = some pos ∧ s.logEntries[pos]? = some en ∧ en.logEntry.index = i ∧ term = en.logEntry.term
  else node = none ∧ term = 0

/-- The indices that `getLogNode` gets right: the difference is no position from the head, and nothing overflows. -/
def LookupExact (len : Nat) (i : Int) : Prop :=
  ¬(len < i ∧ i ≤ 2 * len) ∧ i ≠ -(2 ^ 63) ∧ i ≠ -(2 ^ 63) + 1 + len ∧ ¬(i < -(2 ^ 63) + 1 + len ∧ i + 2 ^ 64 ≤ 2 * len)

theorem entry_at (hc : Contiguous s.list) (h1 : 1 ≤ i) (h2 : i ≤ logLength s) :
    ∃ en, s.logEntries[(i - 1).toNat]? = some en ∧ en.logEntry.index = i := by
  have hlt : (i - 1).toNat < s.logEntries.length := by
    unfold logLength at h2
    omega
  have hen : s.logEntries[(i - 1).toNat]? = some s.logEntries[(i - 1).toNat] := List.getElem?_eq_getElem hlt
  refine ⟨_, hen, ?_⟩
  have hlist : s.list[(i - 1).toNat]? = some (s.logEntries[(i - 1).toNat]).logEntry := by
    rw [LogState.list, List.getElem?_map, hen, Option.map_some]
  rw [hc _ _ hlist]
  omega

theorem logGetTermLong_eq {node : Option Nat} (h : getLogNodeLong s i = some node) :
    logGetTermLong s i = some ((node.bind fun pos => s.logEntries[pos]?).elim 0 fun en => en.logEntry.term) := by
  rw [logGetTermLong, getLogEntryLong, h, Option.map_some, Option.map_some]
  cases node.bind fun pos => s.logEntries[pos]? <;> rfl

/-- An index that is not in the log is looked up right if the result is NULL. -/
theorem LooksUp.absent {node : Option Nat} {term : Int} (h : LooksUp s i node term) (hout : ¬(1 ≤ i ∧ i ≤ logLength s)) :
    node = none := by
  rw [LooksUp, if_neg hout] at h
  exact h.1

theorem LookupExact.of_looksUp (hlen : (logLength s : Int) < 2 ^ 63) (hi : LongLong i) {node : Option Nat} {term : Int}
    (hnode : getLogNodeLong s i = some node) (h : LooksUp s i node term) : LookupExact (logLength s) i := by
  have hi' := hi
  unfold LongLong at hi'
  refine ⟨fun hhead => ?_, fun hmin => ?_, fun hneg => ?_, fun hwrap => ?_⟩
  · rw [getLogNodeLong_eq hlen hi (by omega), getLogNode_eq, if_neg (by omega), if_pos hhead] at hnode
    cases hnode
    exact absurd (h.absent (by omega)) (Option.some_ne_none _)
  · rw [hmin, getLogNodeLong_min] at hnode
    cases hnode
  · rw [getLogNodeLong_negation hlen hneg] at hnode
    cases hnode
  · by_cases hmin : i = -(2 ^ 63)
    · rw [hmin, getLogNodeLong_min] at hnode
      cases hnode
    · rw [getLogNodeLong_wrap hlen hi hmin hwrap.1, if_pos hwrap.2] at hnode
      cases hnode
      exact absurd (h.absent (by omega)) (Option.some_ne_none _)

theorem LookupExact.looksUp (hc : Contiguous s.list) (hlen : (logLength s : Int) < 2 ^ 63) (hi : LongLong i)
    (h : LookupExact (logLength s) i) :
    ∃ node term, getLogNodeLong s i = some node ∧ logGetTermLong s i = some term ∧ LooksUp s i node term := by
  obtain ⟨hhead, hmin, hneg, hwrap⟩ := h
  by_cases hin : 1 ≤ i ∧ i ≤ logLength s
  · obtain ⟨en, hen, hindex⟩ := entry_at hc hin.1 hin.2
    have hnode : getLogNodeLong s i = some (some (i - 1).toNat) := by
      rw [getLogNodeLong_eq hlen hi (by omega), getLogNode_eq, if_pos hin]
    refine ⟨_, _, hnode, logGetTermLong_eq hnode, ?_⟩
    rw [LooksUp, if_pos hin, Option.bind_some, hen]
    exact ⟨_, en, rfl, hen, hindex, rfl⟩
  · have hnode : getLogNodeLong s i = some none := by
      rcases lt_or_gt_of_ne hneg with hlow | hhigh
      · rw [getLogNodeLong_wrap hlen hi hmin hlow, if_neg fun hle => hwrap ⟨hlow, hle⟩]
      · rw [getLogNodeLong_eq hlen hi hhigh, getLogNode_eq, if_neg hin, if_neg hhead]
    refine ⟨_, _, hnode, logGetTermLong_eq hnode, ?_⟩
    rw [LooksUp, if_neg hin]
    exact ⟨rfl, rfl⟩

/-- **Positional lookup.** In a log whose entries have their positions as indices, `getLogNode` finds the node of an index,
    and NULL for an index that is not there, and `logGetTerm` its term, exactly for the indices of `LookupExact`. -/
theorem positional_lookup (s : LogState) (hc : Contiguous s.list) (hr : ∀ e ∈ s.list, e.InRange) (i : Int)
    (hi : LongLong i) :
    (∃ node term, getLogNodeLong s i = some node ∧ logGetTermLong s i = some term ∧ LooksUp s i node term) ↔
      LookupExact (logLength s) i := by
  have hlen := logLength_lt hc hr
  constructor
  · rintro ⟨node, term, hnode, -, h⟩
    exact .of_looksUp hlen hi hnode h
  · exact fun h => h.looksUp hc hlen hi

end

/-- A log of three entries, of two terms. -/
def threeEntryLog : LogState := [setA 1 6, setA 2 6, setA 3 7].foldl logAppend .empty

theorem threeEntryLog_contiguous : Contiguous threeEntryLog.list := contiguous_nil.append (by decide)

theorem threeEntryLog_inRange : ∀ e ∈ threeEntryLog.list, e.InRange := by decide

/-- The second entry, an index far behind the end, and the one right behind the end. -/
theorem positional_lookup_three :
    (∃ node term, getLogNodeLong threeEntryLog 2 = some node ∧ logGetTermLong threeEntryLog 2 = some term ∧
      LooksUp threeEntryLog 2 node term) ∧
    (∃ node term, getLogNodeLong threeEntryLog 7 = some node ∧ logGetTermLong threeEntryLog 7 = some term ∧
      LooksUp threeEntryLog 7 node term) ∧
    ¬ ∃ node term, getLogNodeLong threeEntryLog 4 = some node ∧ logGetTermLong threeEntryLog 4 = some term ∧
      LooksUp threeEntryLog 4 node term := by
  have hlookup := positional_lookup threeEntryLog threeEntryLog_contiguous threeEntryLog_inRange
  refine ⟨(hlookup 2 (by decide)).mpr ?_, (hlookup 7 (by decide)).mpr ?_, mt (hlookup 4 (by decide)).mp ?_⟩ <;>
  · unfold LookupExact
    decide

/-- A log of one entry. -/
def oneEntryLog : LogState := logAppend .empty (setA 1 7)

/-- Index 2 of a log of one entry: the lookup comes back to the head and finds the entry with index 1. -/
theorem lookup_past_end :
    (getLogNodeLong oneEntryLog 2, (getLogEntryLong oneEntryLog 2).map (·.map (·.logEntry.index)),
      logGetTermLong oneEntryLog 2) = (some (some 0), some (some 1), some 7) := by
  decide

/-- **The consistency check.** In a log whose entries have their positions as indices, `logVerifyAppend` accepts index 0 and
    the indices of entries with that term, and no others. No entry that it reads is missing. -/
theorem consistency_check (s : LogState) (hc : Contiguous s.list) (hr : ∀ e ∈ s.list, e.InRange) (index term : Int)
    (hi : LongLong index) :
    ∃ ok, logVerifyAppendLong s index term = some ok ∧
      (ok = true ↔ index = 0 ∨ 1 ≤ index ∧ index ≤ logLength s ∧
        ∃ en, s.logEntries[(index - 1).toNat]? = some en ∧ en.logEntry.index = index ∧ en.logEntry.term = term) := by
  have hlen := logLength_lt hc hr
  unfold LongLong at hi
  rw [logVerifyAppendLong]
  by_cases h0 : index = 0
  · rw [if_pos h0]
    exact ⟨true, rfl, fun _ => .inl h0, fun _ => rfl⟩
  rw [if_neg h0]
  by_cases hin : 1 ≤ index ∧ index ≤ logLength s
  · obtain ⟨en, hen, hindex⟩ := entry_at hc hin.1 hin.2
    have hsmall : ¬ toULong index > logLength s := by
      unfold toULong
      omega
    have hentry : getLogEntryLong s index = some (some en) := by
      rw [getLogEntryLong, getLogNodeLong_eq hlen hi (by omega), getLogNode_eq, if_pos hin, Option.map_some, Option.bind_some,
        hen]
    rw [if_neg hsmall, hentry]
    refine ⟨_, rfl, fun hok => .inr ⟨hin.1, hin.2, en, hen, hindex, beq_iff_eq.mp hok⟩, fun h => ?_⟩
    rcases h with h | ⟨-, -, en', hen', -, hterm⟩
    · exact absurd h h0
    · cases hen.symm.trans hen'
      exact beq_iff_eq.mpr hterm
  · -- a negative index is converted to a number above every length
    have hbig : toULong index > logLength s := by
      unfold toULong
      split <;> omega
    rw [if_pos hbig]
    refine ⟨false, rfl, fun h => absurd h Bool.false_ne_true, fun h => ?_⟩
    rcases h with h | ⟨h1, h2, -⟩
    · exact absurd h h0
    · exact absurd ⟨h1, h2⟩ hin

/-- The term of the second entry is found there, the term of the third is not; behind the end nothing is. -/
theorem consistency_check_three :
    logVerifyAppendLong threeEntryLog 2 6 = some true ∧ logVerifyAppendLong threeEntryLog 2 7 = some false ∧
      logVerifyAppendLong threeEntryLog 4 6 = some false := by
  have hcheck := consistency_check threeEntryLog threeEntryLog_contiguous threeEntryLog_inRange
  obtain ⟨ok₁, hok₁, hiff₁⟩ := hcheck 2 6 (by decide)
  obtain ⟨ok₂, hok₂, hiff₂⟩ := hcheck 2 7 (by decide)
  obtain ⟨ok₃, hok₃, hiff₃⟩ := hcheck 4 6 (by decide)
  rw [hok₁, hok₂, hok₃, hiff₁.mpr (.inr ⟨by decide, by decide, _, rfl, rfl, rfl⟩)]
  refine ⟨rfl, congrArg some (Bool.eq_false_iff.mpr fun h => ?_), congrArg some (Bool.eq_false_iff.mpr fun h => ?_)⟩
  · rcases hiff₂.mp h with h | ⟨-, -, en, hen, -, hterm⟩
    · exact absurd h (by decide)
    · cases hen
      exact absurd hterm (by decide)
  · rcases hiff₃.mp h with h | ⟨-, h, -⟩
    · exact absurd h (by decide)
    · exact absurd h (by decide)

end Prez
