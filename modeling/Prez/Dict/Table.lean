import Prez.Lib.Assoc
import Prez.Lib.Bytes
import Mathlib.Logic.Function.Basic

/-!
# `Prez.Dict.Table` — the hash table of `dict.c`

A dictionary is two tables of chained entries. While `rehashidx` is not -1 the entries move from the first
table to the second, one bucket per step, and every lookup or update takes such a step.

A table is the block `zcalloc` returned together with the counters of `dictht`. `slots` is the number of
pointers that fit the block, which is what the *wrapped* product `realsize*sizeof(dictEntry*)` gives, and a
bucket outside it cannot be read or written: such an access has no result (`none`). So has a failed
assertion, a `NULL` entry that is dereferenced and an `int` that overflows.
-/

namespace Prez

open Lib

variable {K V : Type}

/-! ## Tables -/

/-- The part of `dictType` that the table uses: the hash is an `unsigned int`. -/
structure DictType (K : Type) where
  hashFunction : K → UInt32
  keyCompare : K → K → Bool

/-- The comparison is an equivalence and the hash respects it. -/
structure DictType.Lawful (T : DictType K) : Prop where
  keyEq : KeyEq T.keyCompare
  hash_eq : ∀ {a b}, T.keyCompare a b = true → T.hashFunction a = T.hashFunction b

/-- `dictht`: the chains of the buckets, the pointers that fit the allocated block (`none` for `NULL`) and
    the counters. -/
structure Dictht (K V : Type) where
  table : Nat → List (K × V)
  slots : Option Nat
  size : Nat
  sizemask : Nat
  used : Nat

/-- `_dictReset`. -/
def dictReset : Dictht K V := ⟨fun _ => [], none, 0, 0, 0⟩

/-- `dict`, with its two tables. -/
structure Dict (K V : Type) where
  ht0 : Dictht K V
  ht1 : Dictht K V
  rehashidx : Int
  iterators : Int

/-- Which of the two tables. -/
inductive DictSide where
  | old | new
deriving DecidableEq, Repr

/-- `d->ht[table]`. -/
def Dict.ht (d : Dict K V) : DictSide → Dictht K V
  | .old => d.ht0
  | .new => d.ht1

/-- One of the tables replaced. -/
def Dict.setHt (d : Dict K V) (side : DictSide) (h : Dictht K V) : Dict K V :=
  match side with
  | .old => { d with ht0 := h }
  | .new => { d with ht1 := h }

/-- `dictCreate`. -/
def dictCreate : Dict K V := ⟨dictReset, dictReset, -1, 0⟩

/-- `dictIsRehashing`. -/
def dictIsRehashing (d : Dict K V) : Bool := d.rehashidx != -1

/-- `dictSize`. -/
def dictSize (d : Dict K V) : Nat := d.ht0.used + d.ht1.used

namespace Dictht

/-- `ht->table[i]`. -/
def bucket (h : Dictht K V) (i : Nat) : Option (List (K × V)) :=
  match h.slots with
  | none => none
  | some n => if i < n then some (h.table i) else none

/-- The chain of bucket `i` replaced. -/
def setBucket (h : Dictht K V) (i : Nat) (b : List (K × V)) : Dictht K V :=
  { h with table := Function.update h.table i b }

/-- A new entry at the head of bucket `i`. -/
def push (h : Dictht K V) (i : Nat) (e : K × V) : Option (Dictht K V) :=
  (h.bucket i).map fun b => { h.setBucket i (e :: b) with used := h.used + 1 }

end Dictht

/-- `dictHashKey(d, key) & ht.sizemask`. -/
def dictSlot (T : DictType K) (h : Dictht K V) (key : K) : Nat := (T.hashFunction key).toNat &&& h.sizemask

/-! ## Resizing -/

/-- `LONG_MAX`. -/
def longMax : Nat := 2 ^ 63 - 1

/-- The doubling loop of `_dictNextPower`. A size below `LONG_MAX` is reached from 4 within 62 turns. -/
def nextPowerLoop : Nat → Nat → Nat → Nat
  | 0, i, _ => i
  | fuel + 1, i, size => if i ≥ size then i else nextPowerLoop fuel (i * 2) size

/-- `_dictNextPower(size)`. -/
def dictNextPower (size : Nat) : Nat := if size ≥ longMax then longMax else nextPowerLoop 62 4 size

/-- The table `dictExpand` allocates: `zcalloc(realsize*sizeof(dictEntry*))`, a `size_t` product. -/
def dictAlloc (realsize : Nat) : Dictht K V :=
  { table := fun _ => [], slots := some (realsize * 8 % 2 ^ 64 / 8), size := realsize,
    sizemask := realsize - 1, used := 0 }

/-- `dictExpand(d, size)`: the dictionary and whether the call returned `DICT_OK`. -/
def dictExpand (d : Dict K V) (size : Nat) : Dict K V × Bool :=
  if dictIsRehashing d || decide (d.ht0.used > size) then (d, false)
  else
    let n := dictAlloc (dictNextPower size)
    -- the first table only has to be installed, there is nothing to rehash
    if d.ht0.slots.isNone then ({ d with ht0 := n }, true)
    else ({ d with ht1 := n, rehashidx := 0 }, true)

/-- `dictResize(d)`: `minimal` is an `int`, converted back to `unsigned long` for `dictExpand`. -/
def dictResize (canResize : Bool) (d : Dict K V) : Dict K V × Bool :=
  if !canResize || dictIsRehashing d then (d, false)
  else
    let minimal := toInt32 d.ht0.used
    dictExpand d (if minimal < 4 then 4 else minimal.toNat)

/-- `while(d->ht[0].table[d->rehashidx] == NULL) d->rehashidx++`, with the number of buckets from `i` on as
    the bound of the recursion. -/
def nextBucket (h : Dictht K V) : Nat → Nat → Option (Nat × List (K × V))
  | 0, _ => none
  | fuel + 1, i =>
    match h.bucket i with
    | none => none
    | some [] => nextBucket h fuel (i + 1)
    | some b => some (i, b)

/-- The entries of one bucket, moved to the heads of their buckets in the new table. -/
def moveEntries (T : DictType K) : List (K × V) → Dictht K V → Option (Dictht K V)
  | [], h => some h
  | e :: b, h => (h.push (dictSlot T h e.1) e).bind fun h => moveEntries T b h

/-- One turn of the loop of `dictRehash` with entries left in the first table. -/
def rehashBucket (T : DictType K) (d : Dict K V) : Option (Dict K V) :=
  if d.rehashidx < 0 ∨ (d.ht0.size : Int) ≤ d.rehashidx then none
  else
    (nextBucket d.ht0 (d.ht0.size - d.rehashidx.toNat) d.rehashidx.toNat).bind fun ib =>
    if 2 ^ 31 ≤ ib.1 + 1 then none
    else
      (moveEntries T ib.2 d.ht1).map fun ht1 =>
        { d with ht0 := { d.ht0.setBucket ib.1 [] with used := d.ht0.used - ib.2.length }, ht1 := ht1,
                 rehashidx := ib.1 + 1 }

/-- The loop of `dictRehash`. -/
def rehashLoop (T : DictType K) : Nat → Dict K V → Option (Dict K V × Bool)
  | 0, d => some (d, true)
  | n + 1, d =>
    if d.ht0.used = 0 then some ({ d with ht0 := d.ht1, ht1 := dictReset, rehashidx := -1 }, false)
    else (rehashBucket T d).bind fun d => rehashLoop T n d

/-- `dictRehash(d, n)`: the loop is `while(n--)` on an `int`, so a negative `n` counts down through the
    whole range. -/
def dictRehash (T : DictType K) (d : Dict K V) (n : Int) : Option (Dict K V × Bool) :=
  if !dictIsRehashing d then some (d, false) else rehashLoop T (n % 2 ^ 32).toNat d

/-- `if (dictIsRehashing(d)) _dictRehashStep(d)`: a step only while no safe iterator is open. -/
def dictRehashStep (T : DictType K) (d : Dict K V) : Option (Dict K V) :=
  if dictIsRehashing d && d.iterators == 0 then (dictRehash T d 1).map Prod.fst else some d

/-! ## Operations -/

/-- Will `_dictExpandIfNeeded` double the table? `dict_force_resize_ratio` is 5. -/
def dictIsFull (canResize : Bool) (d : Dict K V) : Bool :=
  decide (d.ht0.used ≥ d.ht0.size) && (canResize || decide (d.ht0.used / d.ht0.size > 5))

/-- `_dictExpandIfNeeded(d)`. -/
def dictExpandIfNeeded (canResize : Bool) (d : Dict K V) : Dict K V × Bool :=
  if dictIsRehashing d then (d, true)
  else if d.ht0.size = 0 then dictExpand d 4
  else if dictIsFull canResize d then dictExpand d (d.ht0.used * 2)
  else (d, true)

/-- The entry of `key` in one table. -/
def dictSearch (T : DictType K) (h : Dictht K V) (key : K) : Option (Option (K × V)) :=
  (h.bucket (dictSlot T h key)).map fun b => b.find? fun e => T.keyCompare key e.1

/-- `_dictKeyIndex(d, key)` after the expansion: -1 for a key that is there, otherwise the bucket for it, as
    an `int`. -/
def dictKeyIndex (T : DictType K) (d : Dict K V) (key : K) : Option Int :=
  (dictSearch T d.ht0 key).bind fun found =>
  if found.isSome then some (-1)
  else if !dictIsRehashing d then some (toInt32 (dictSlot T d.ht0 key))
  else (dictSearch T d.ht1 key).map fun found =>
    if found.isSome then -1 else toInt32 (dictSlot T d.ht1 key)

/-- `dictAddRaw` followed by `dictSetVal`: `dictAdd(d, key, val)`, with whether it returned `DICT_OK`. -/
def dictAdd (T : DictType K) (canResize : Bool) (d : Dict K V) (key : K) (val : V) : Option (Dict K V × Bool) :=
  (dictRehashStep T d).bind fun d =>
  let (d, ok) := dictExpandIfNeeded canResize d
  if !ok then some (d, false)
  else (dictKeyIndex T d key).bind fun index =>
    if index = -1 then some (d, false)
    else if index < 0 then none
    else
      -- a new entry goes to the new table while there is one
      let side := if dictIsRehashing d then DictSide.new else .old
      ((d.ht side).push index.toNat (key, val)).map fun h => (d.setHt side h, true)

/-- The loop over the two tables of `dictFind` and `dictGenericDelete`. -/
def dictLocate (T : DictType K) (d : Dict K V) (key : K) : Option (Option (DictSide × (K × V))) :=
  (dictSearch T d.ht0 key).bind fun found =>
  match found with
  | some e => some (some (.old, e))
  | none =>
    if !dictIsRehashing d then some none
    else (dictSearch T d.ht1 key).map fun found => found.map fun e => (.new, e)

/-- `dictFind(d, key)`: the entry with the table it stands in. -/
def dictFind (T : DictType K) (d : Dict K V) (key : K) : Option (Dict K V × Option (DictSide × (K × V))) :=
  if d.ht0.size = 0 then some (d, none)
  else (dictRehashStep T d).bind fun d => (dictLocate T d key).map fun e => (d, e)

/-- The bucket of `key` in a table changed. -/
def dictUpdate (T : DictType K) (h : Dictht K V) (key : K) (f : List (K × V) → List (K × V)) : Dictht K V :=
  h.setBucket (dictSlot T h key) (f (h.table (dictSlot T h key)))

/-- `dictReplace(d, key, val)`: true when the key was added. The entry `dictFind` returns is dereferenced
    without a test. -/
def dictReplace (T : DictType K) (canResize : Bool) (d : Dict K V) (key : K) (val : V) :
    Option (Dict K V × Bool) :=
  (dictAdd T canResize d key val).bind fun (d, ok) =>
  if ok then some (d, true)
  else (dictFind T d key).bind fun (d, found) =>
    match found with
    | none => none
    | some (side, _) =>
      some (d.setHt side (dictUpdate T (d.ht side) key (Assoc.setFirst (T.keyCompare key) val)), false)

/-- `dictDelete(d, key)`: `dictGenericDelete`, with whether it returned `DICT_OK`. -/
def dictDelete (T : DictType K) (d : Dict K V) (key : K) : Option (Dict K V × Bool) :=
  if d.ht0.size = 0 then some (d, false)
  else (dictRehashStep T d).bind fun d => (dictLocate T d key).map fun found =>
    match found with
    | none => (d, false)
    | some (side, _) =>
      let h := dictUpdate T (d.ht side) key (List.eraseP fun e => T.keyCompare key e.1)
      (d.setHt side { h with used := h.used - 1 }, true)

/-- The loop of `_dictClear`: it ends with the table or with the last entry freed. -/
def dictClearLoop (h : Dictht K V) : Nat → Nat → Nat → Option Unit
  | 0, _, _ => some ()
  | fuel + 1, i, used =>
    if used = 0 then some ()
    else (h.bucket i).bind fun b => dictClearLoop h fuel (i + 1) (used - b.length)

/-- `_dictClear(d, ht)`. -/
def dictClear (h : Dictht K V) : Option (Dictht K V) :=
  (dictClearLoop h h.size 0 h.used).map fun _ => dictReset

/-- `dictEmpty(d)`. -/
def dictEmpty (d : Dict K V) : Option (Dict K V) :=
  (dictClear d.ht0).bind fun ht0 => (dictClear d.ht1).map fun ht1 => ⟨ht0, ht1, -1, 0⟩

/-- The calls on a dictionary. `canResize` is `dict_can_resize` at the time of the call; `iterOpen` and
    `iterClose` are the first `dictNext` and the `dictReleaseIterator` of a safe iterator. -/
inductive DictOp (K V : Type) where
  | add (canResize : Bool) (key : K) (val : V)
  | replace (canResize : Bool) (key : K) (val : V)
  | find (key : K)
  | delete (key : K)
  | expand (size : Nat)
  | resize (canResize : Bool)
  | rehash (n : Int)
  | empty
  | iterOpen
  | iterClose

/-- What a call returns: a status, the value found, or nothing. -/
inductive DictRes (V : Type) where
  | status (ok : Bool)
  | value (v : Option V)
  | unit

/-- The dictionary after a call and what the call returned. -/
def DictOp.run (T : DictType K) (d : Dict K V) : DictOp K V → Option (Dict K V × DictRes V)
  | .add canResize key val => (dictAdd T canResize d key val).map fun r => (r.1, .status r.2)
  | .replace canResize key val => (dictReplace T canResize d key val).map fun r => (r.1, .status r.2)
  | .find key => (dictFind T d key).map fun r => (r.1, .value (r.2.map fun e => e.2.2))
  | .delete key => (dictDelete T d key).map fun r => (r.1, .status r.2)
  | .expand size => some ((dictExpand d size).1, .status (dictExpand d size).2)
  | .resize canResize => some ((dictResize canResize d).1, .status (dictResize canResize d).2)
  | .rehash n => (dictRehash T d n).map fun r => (r.1, .status r.2)
  | .empty => (dictEmpty d).map fun d => (d, .unit)
  | .iterOpen => some ({ d with iterators := d.iterators + 1 }, .unit)
  | .iterClose => some ({ d with iterators := d.iterators - 1 }, .unit)

end Prez
