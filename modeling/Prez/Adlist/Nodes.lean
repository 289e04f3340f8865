import Prez.Adlist
import Prez.Lib.Chain

/-!
# `Prez.Adlist.Nodes` — the generic list of `adlist.c`

Nodes are cells of a heap (`Lib.Chain`), and a `listNode *` is an address or NULL. The functions read and write the cells as
the source does; the result `none` is a pointer that is dereferenced although it is NULL or dangling. `zmalloc` does not
return without memory, so the addresses that it returns are arguments. The functions of the caller that `list->free` and
`list->match` point to do not change the list; `list->dup` may return NULL.
-/

namespace Prez

open Lib

variable {A V : Type} [DecidableEq A]

/-- `list`. -/
structure AdList (A V : Type) where
  head : Option A
  tail : Option A
  len : Nat
  dup : Option (V → Option V)

/-- `listCreate()`, and `listSetDupMethod`. -/
def listCreate (dup : Option (V → Option V)) : AdList A V := ⟨none, none, 0, dup⟩

/-! ## Adding nodes -/

/-- `listAddNodeHead(list, value)`. -/
def listAddNodeHead (h : Cells A V) (list : AdList A V) (node : A) (value : V) : Option (Cells A V × AdList A V) :=
  if list.len = 0 then
    some (Function.update h node (some ⟨none, none, value⟩),
      { list with head := some node, tail := some node, len := list.len + 1 })
  else do
    let h := Function.update h node (some ⟨none, list.head, value⟩)
    -- `list->head->prev = node`
    let head ← list.head
    let h ← setPrev h head (some node)
    some (h, { list with head := some node, len := list.len + 1 })

/-- `listAddNodeTail(list, value)`. -/
def listAddNodeTail (h : Cells A V) (list : AdList A V) (node : A) (value : V) : Option (Cells A V × AdList A V) :=
  if list.len = 0 then
    some (Function.update h node (some ⟨none, none, value⟩),
      { list with head := some node, tail := some node, len := list.len + 1 })
  else do
    let h := Function.update h node (some ⟨list.tail, none, value⟩)
    -- `list->tail->next = node`
    let tail ← list.tail
    let h ← setNext h tail (some node)
    some (h, { list with tail := some node, len := list.len + 1 })

/-- The end of `listInsertNode`: the neighbours of the new node are linked with it. -/
def listLinkNode (h : Cells A V) (list : AdList A V) (node : A) (cell : Cell A V) : Option (Cells A V × AdList A V) := do
  let h ← linkNext (Function.update h node (some cell)) cell.prev (some node)
  let cell ← h node
  let h ← linkPrev h cell.next (some node)
  some (h, { list with len := list.len + 1 })

/-- `listInsertNode(list, old_node, value, after)`. -/
def listInsertNode (h : Cells A V) (list : AdList A V) (oldNode node : A) (value : V) (after : Bool) :
    Option (Cells A V × AdList A V) := do
  let old ← h oldNode
  if after then
    let list := if list.tail = some oldNode then { list with tail := some node } else list
    listLinkNode h list node ⟨some oldNode, old.next, value⟩
  else
    let list := if list.head = some oldNode then { list with head := some node } else list
    listLinkNode h list node ⟨old.prev, some oldNode, value⟩

/-! ## Removing and moving nodes -/

/-- `listDelNode(list, node)`. -/
def listDelNode (h : Cells A V) (list : AdList A V) (node : A) : Option (Cells A V × AdList A V) := do
  let cell ← h node
  let h ← linkNext h cell.prev cell.next
  let list := if cell.prev = none then { list with head := cell.next } else list
  let cell ← h node
  let h ← linkPrev h cell.next cell.prev
  let list := if cell.next = none then { list with tail := cell.prev } else list
  some (Function.update h node none, { list with len := list.len - 1 })

/-- `listRotate(list)`. -/
def listRotate (h : Cells A V) (list : AdList A V) : Option (Cells A V × AdList A V) :=
  if list.len ≤ 1 then some (h, list)
  else do
    let tail ← list.tail
    let cell ← h tail
    let list := { list with tail := cell.prev }
    let newTail ← list.tail
    let h ← setNext h newTail none
    let head ← list.head
    let h ← setPrev h head (some tail)
    let h ← setPrev h tail none
    let h ← setNext h tail list.head
    some (h, { list with head := some tail })

/-- The loop of `listRelease`. -/
def listReleaseLoop : Nat → Cells A V → Option A → Option (Cells A V)
  | 0, h, _ => some h
  | len + 1, h, current => do
    let a ← current
    let cell ← h a
    listReleaseLoop len (Function.update h a none) cell.next

/-- `listRelease(list)`. -/
def listRelease (h : Cells A V) (list : AdList A V) : Option (Cells A V) := listReleaseLoop list.len h list.head

/-! ## Iterators -/

/-- `AL_START_HEAD`, `AL_START_TAIL`. -/
inductive Direction where
  | startHead
  | startTail
deriving DecidableEq

/-- `listIter`. -/
structure ListIter (A : Type) where
  next : Option A
  direction : Direction

/-- `listRewind(list, li)`. -/
def listRewind (list : AdList A V) : ListIter A := ⟨list.head, .startHead⟩

/-- The pointer that an iterator follows. -/
def Direction.field : Direction → Cell A V → Option A
  | .startHead => Cell.next
  | .startTail => Cell.prev

/-- `listNext(iter)`. -/
def listNext (h : Cells A V) (iter : ListIter A) : Option (Option A × ListIter A) :=
  match iter.next with
  | none => some (none, iter)
  | some current => (h current).map fun cell => (some current, { iter with next := iter.direction.field cell })

/-- The value that `listDup` stores in the copy; `list->dup` may fail. -/
def AdList.dupValue (list : AdList A V) (value : V) : Option V :=
  match list.dup with
  | some dup => dup value
  | none => some value

/-- The loop of `listDup`, with the addresses that `zmalloc` returns. A `dup` that fails gives up the copy. -/
def listDupLoop : List A → Cells A V → ListIter A → AdList A V → Option (Cells A V × Option (AdList A V))
  | nodes, h, iter, copy => do
    let (node, iter) ← listNext h iter
    match node with
    | none => some (h, some copy)
    | some node =>
      let cell ← h node
      match copy.dupValue cell.value with
      | none => (listRelease h copy).map fun h => (h, none)
      | some value =>
        match nodes with
        | [] => none
        | a :: nodes =>
          let (h, copy) ← listAddNodeTail h copy a value
          listDupLoop nodes h iter copy

/-- `listDup(orig)`; the second result is the copy, or NULL. -/
def listDup (h : Cells A V) (orig : AdList A V) (nodes : List A) : Option (Cells A V × Option (AdList A V)) :=
  listDupLoop nodes h ⟨orig.head, .startHead⟩ (listCreate orig.dup)

/-- `while ((ln = listNext(&li)) != NULL)`: in each turn the node is deleted or not, and after the last one of `drops` the loop
    is left. -/
def listDeleteLoop : List Bool → Cells A V → AdList A V → ListIter A → Option (Cells A V × AdList A V)
  | [], h, list, _ => some (h, list)
  | drop :: drops, h, list, iter => do
    let (node, iter) ← listNext h iter
    match node with
    | none => some (h, list)
    | some node =>
      if drop then
        let (h, list) ← listDelNode h list node
        listDeleteLoop drops h list iter
      else listDeleteLoop drops h list iter

/-! ## Positions -/

/-- `listIndex(list, index)`; `-index` overflows for `LONG_MIN`. -/
def listIndexNode (h : Cells A V) (list : AdList A V) (index : Int) : Option (Option A) :=
  if index < 0 then
    if index = -(2 ^ 63) then none else walk h Cell.prev (-index - 1).toNat list.tail
  else walk h Cell.next index.toNat list.head

end Prez
