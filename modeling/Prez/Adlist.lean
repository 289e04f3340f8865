import Mathlib.Algebra.Ring.Int.Defs
import Mathlib.Data.List.Basic
import Mathlib.Tactic.Common

/-!
# `Prez.Adlist` — positions in the generic list of `adlist.c`

A `listNode *` into a list is represented by the position of the node, `NULL` by `none`. `listIndex`
counts from the head for a non-negative argument and from the tail for a negative one; this switch is what
the log's positional lookup runs into for an index past the end (`Log.State`).
-/

namespace Prez

/-- `listIndex(list, index)` on a list of `len` nodes: the position of the node returned. -/
def listIndex (len : Nat) (index : Int) : Option Nat :=
  if index < 0 then
    -- from the tail: `index = (-index)-1` steps along `prev`
    let steps := (-index - 1).toNat
    if steps < len then some (len - 1 - steps) else none
  else if index.toNat < len then some index.toNat else none

/-- The same with the argument as the `long` that it is: `-index` overflows for `LONG_MIN`, and the result is `none`. -/
def listIndexLong (len : Nat) (index : Int) : Option (Option Nat) :=
  if index = -(2 ^ 63) then none else some (listIndex len index)

/-- The last node. -/
theorem listIndex_last (len : Nat) : listIndex len (-1) = if 0 < len then some (len - 1) else none := by
  simp [listIndex]

end Prez
