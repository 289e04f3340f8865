import Prez.Dict.Map
import Prez.Lib.Cursor
import Mathlib.Data.Prod.Lex

/-!
# `Prez.Dict.Iterate` — safe iterators

A safe iterator walks through the buckets of the first table and, if the dictionary is rehashing when it gets there, through
those of the second. It saves the successor of the entry that it returns. From its first `dictNext` on no entry is moved:
`_dictRehashStep` does nothing while a safe iterator is open.

The position of an iterator is a place in the list of all entries (`Dict.At`). `dictNext` returns the first entry ahead of
that place. `dictAdd` puts an entry at the head of a chain, which is behind the place or ahead of it, and the deletion of the
entry that was returned last takes one away behind it.
-/

namespace Prez

open Lib

variable {K V : Type}

/-! ## Iterators -/

/-- `dictIterator`, for a safe iterator. The pointers `entry` and `nextEntry` are the keys of the entries they lead to. -/
structure DictIterator (K : Type) where
  table : DictSide
  index : Int
  entry : Option K
  nextEntry : Option K

/-- `dictGetSafeIterator(d)`. -/
def dictGetSafeIterator : DictIterator K := ⟨.old, -1, none, none⟩

/-- The chain of a table from the entry of `key` on. -/
def Dictht.chainFrom (T : DictType K) (h : Dictht K V) (key : K) : List (K × V) :=
  (h.table (dictSlot T h key)).dropWhile fun e => !T.keyCompare key e.1

/-- The chain that a pointer to the entry of `key` leads to; there is none if the entry was freed. -/
def Dict.chainFrom (T : DictType K) (d : Dict K V) (key : K) : Option (List (K × V)) :=
  match d.ht0.chainFrom T key with
  | e :: c => some (e :: c)
  | [] =>
    match d.ht1.chainFrom T key with
    | e :: c => some (e :: c)
    | [] => none

/-- `if (iter->index == -1 && iter->table == 0) iter->d->iterators++`. -/
def dictIterOpen (d : Dict K V) (iter : DictIterator K) : Option (Dict K V) :=
  if iter.index = -1 ∧ iter.table = .old then
    if d.iterators + 1 < 2 ^ 31 then some { d with iterators := d.iterators + 1 } else none
  else some d

/-- One turn of the loop of `dictNext`, up to the value of `iter->entry`: the chain that starts there, or `none` after
    `break`. -/
def dictNextTurn (T : DictType K) (d : Dict K V) (iter : DictIterator K) :
    Option (Dict K V × DictIterator K × Option (List (K × V))) :=
  match iter.entry with
  | some _ =>
    match iter.nextEntry with
    | none => some (d, iter, some [])
    | some key => (d.chainFrom T key).map fun chain => (d, iter, some chain)
  | none =>
    (dictIterOpen d iter).bind fun d =>
    if 2 ^ 31 ≤ iter.index + 1 then none
    -- `(signed) ht->size` is an `int`
    else if iter.index + 1 ≥ toInt32 (d.ht iter.table).size then
      if dictIsRehashing d = true ∧ iter.table = .old then
        (d.ht1.bucket 0).map fun chain => (d, { iter with table := .new, index := 0 }, some chain)
      else some (d, { iter with index := iter.index + 1 }, none)
    else
      ((d.ht iter.table).bucket (iter.index + 1).toNat).map fun chain =>
        (d, { iter with index := iter.index + 1 }, some chain)

/-- The loop of `dictNext`. -/
def dictNextLoop (T : DictType K) : Nat → Dict K V → DictIterator K →
    Option (Dict K V × DictIterator K × Option (K × V))
  | 0, _, _ => none
  | fuel + 1, d, iter =>
    (dictNextTurn T d iter).bind fun (d, iter, chain) =>
    match chain with
    | none => some (d, iter, none)
    | some [] => dictNextLoop T fuel d { iter with entry := none }
    | some (e :: c) => some (d, { iter with entry := some e.1, nextEntry := c.head?.map Prod.fst }, some e)

/-- `dictNext(iter)`. There is a turn for each bucket, one for the end of the chain and one for the end of the table. -/
def dictNext (T : DictType K) (d : Dict K V) (iter : DictIterator K) :
    Option (Dict K V × DictIterator K × Option (K × V)) :=
  dictNextLoop T (d.ht0.size + d.ht1.size + 2) d iter

/-- `dictReleaseIterator(iter)`. -/
def dictReleaseIterator (d : Dict K V) (iter : DictIterator K) : Dict K V :=
  if ¬(iter.index = -1 ∧ iter.table = .old) then { d with iterators := d.iterators - 1 } else d

/-! ## Positions -/

namespace Dictht

variable {h : Dictht K V} {i j : Nat}

/-- The entries of the buckets below `i`. -/
def upto (h : Dictht K V) (i : Nat) : List (K × V) := (List.range i).flatMap h.table

/-- The entries of the buckets from `i` on. -/
def onward (h : Dictht K V) (i : Nat) : List (K × V) := (List.range' i (h.size - i)).flatMap h.table

theorem entries_split (hi : i ≤ h.size) : h.entries = h.upto i ++ h.onward i := by
  have hrange : List.range h.size = List.range i ++ List.range' i (h.size - i) := by
    rw [List.range_eq_range', List.range_eq_range']
    have happend : List.range' 0 i ++ List.range' (0 + i) (h.size - i) = List.range' 0 (i + (h.size - i)) :=
      List.range'_append_1
    rw [Nat.zero_add, Nat.add_sub_cancel' hi] at happend
    exact happend.symm
  rw [entries, hrange, List.flatMap_append, upto, onward]

theorem onward_of_lt (hi : i < h.size) : h.onward i = h.table i ++ h.onward (i + 1) := by
  have hsize : h.size - i = h.size - (i + 1) + 1 := by omega
  rw [onward, hsize, List.range'_succ, List.flatMap_cons, onward]

theorem onward_size : h.onward h.size = [] := by
  rw [onward, Nat.sub_self]
  rfl

theorem onward_zero : h.onward 0 = h.entries := by
  rw [entries_split (Nat.zero_le h.size)]
  rfl

/-- Buckets that are not in the list do not matter. -/
theorem flatMap_setBucket_of_notMem {l : List Nat} (hj : j ∉ l) (b : List (K × V)) :
    l.flatMap (h.setBucket j b).table = l.flatMap h.table := by
  refine List.flatMap_congr fun k hk => ?_
  have hne : k ≠ j := fun heq => hj (heq ▸ hk)
  exact Function.update_of_ne hne _ _

/-- A new entry at the head of a bucket. -/
theorem flatMap_push {l : List Nat} (hl : l.Nodup) (hj : j ∈ l) (e : K × V) :
    (l.flatMap (h.setBucket j (e :: h.table j)).table).Perm (e :: l.flatMap h.table) := by
  obtain ⟨l₁, l₂, rfl⟩ := List.append_of_mem hj
  have hdisj := List.perm_middle.nodup_iff.mp hl
  rw [List.nodup_cons, List.mem_append, not_or] at hdisj
  have hself : (h.setBucket j (e :: h.table j)).table j = e :: h.table j := Function.update_self ..
  rw [List.flatMap_append, List.flatMap_append, List.flatMap_cons, List.flatMap_cons, hself,
    flatMap_setBucket_of_notMem hdisj.1.1, flatMap_setBucket_of_notMem hdisj.1.2]
  exact List.perm_middle

end Dictht

/-- How many tables come after this one. -/
def DictSide.left : DictSide → Nat
  | .old => 1
  | .new => 0

namespace Dict

/-- The entries of the table that comes before `side`, and of the one that comes after it. -/
def front (d : Dict K V) : DictSide → List (K × V)
  | .old => []
  | .new => d.ht0.entries

def back (d : Dict K V) : DictSide → List (K × V)
  | .old => d.ht1.entries
  | .new => []

/-- An iterator has returned entries of bucket `i`; `c` is the rest of its chain. -/
structure At (d : Dict K V) (iter : DictIterator K) (i : Nat) (b c : List (K × V)) : Prop where
  index : iter.index = i
  inside : i < (d.ht iter.table).size
  entry : iter.entry.isSome = true
  next : iter.nextEntry = c.head?.map Prod.fst
  chain : (d.ht iter.table).table i = b ++ c

/-- The entries behind that place and ahead of it. -/
def behind (d : Dict K V) (side : DictSide) (i : Nat) (b : List (K × V)) : List (K × V) :=
  d.front side ++ (d.ht side).upto i ++ b

def ahead (d : Dict K V) (side : DictSide) (i : Nat) (c : List (K × V)) : List (K × V) :=
  c ++ (d.ht side).onward (i + 1) ++ d.back side

theorem entries_sides (d : Dict K V) (side : DictSide) :
    d.entries = d.front side ++ (d.ht side).entries ++ d.back side := by
  cases side with
  | old => rfl
  | new => exact (List.append_nil _).symm

/-- The entries are those behind the iterator and those ahead. -/
theorem At.entries {d : Dict K V} {iter : DictIterator K} {i : Nat} {b c : List (K × V)} (h : d.At iter i b c) :
    d.entries = d.behind iter.table i b ++ d.ahead iter.table i c := by
  rw [d.entries_sides iter.table, Dictht.entries_split h.inside.le, Dictht.onward_of_lt h.inside, h.chain, behind, ahead]
  simp only [List.append_assoc]

/-- What is left of an iteration: tables, buckets of the table, entries of the chain. -/
def rank (d : Dict K V) (side : DictSide) (i : Nat) (c : List (K × V)) : Nat ×ₗ Nat ×ₗ Nat :=
  toLex (side.left, toLex ((d.ht side).size - i, c.length))

end Dict

/-! ## `dictNext` -/

section

variable {T : DictType K} {d d₀ : Dict K V} {iter : DictIterator K} {i : Nat}

/-- The result of `dictNext` with the entries `p` ahead: it returns the first one, and stops behind it. -/
def Arrives (d : Dict K V) (p : List (K × V)) (bound : Nat ×ₗ Nat ×ₗ Nat)
    (r : Option (Dict K V × DictIterator K × Option (K × V))) : Prop :=
  match p with
  | [] => ∃ iter, r = some (d, iter, none) ∧ ¬(iter.index = -1 ∧ iter.table = .old)
  | e :: l => ∃ iter i b c, r = some (d, iter, some e) ∧ d.At iter i (b ++ [e]) c ∧ d.ahead iter.table i c = l ∧
      d.rank iter.table i c < bound

theorem Arrives.mono {p : List (K × V)} {x y : Nat ×ₗ Nat ×ₗ Nat} (hxy : x ≤ y)
    {r : Option (Dict K V × DictIterator K × Option (K × V))} (h : Arrives d p x r) : Arrives d p y r := by
  cases p with
  | nil => exact h
  | cons e l =>
    obtain ⟨iter, i, b, c, hr, hat, hl, hlt⟩ := h
    exact ⟨iter, i, b, c, hr, hat, hl, hlt.trans_le hxy⟩

theorem toInt32_size (hw : d.Wf T) (side : DictSide) : toInt32 (d.ht side).size = (d.ht side).size := by
  have hle := (hw.table side).size_le
  simp only [toInt32]
  omega

/-- The turn that reads bucket `i`. -/
theorem turn_bucket (hw : d.Wf T) (hopen : dictIterOpen d₀ iter = some d) (hentry : iter.entry = none)
    (hindex : iter.index + 1 = i) (hi : i < (d.ht iter.table).size) :
    dictNextTurn T d₀ iter = some (d, { iter with index := i }, some ((d.ht iter.table).table i)) := by
  have hle := (hw.table iter.table).size_le
  unfold dictNextTurn
  rw [hentry]
  dsimp only
  rw [hopen, Option.bind_some, hindex, toInt32_size hw, if_neg (by omega), if_neg (by omega), Int.toNat_natCast,
    (hw.table iter.table).bucket_eq hi]
  rfl

/-- The turn that goes on to the second table. -/
theorem turn_second (hw : d.Wf T) (hopen : dictIterOpen d₀ iter = some d) (hentry : iter.entry = none)
    (hindex : iter.index + 1 = (d.ht iter.table).size) (hr : dictIsRehashing d = true) (hold : iter.table = .old) :
    dictNextTurn T d₀ iter = some (d, { iter with table := .new, index := 0 }, some (d.ht1.table 0)) := by
  have hle := (hw.table iter.table).size_le
  have hpos : 0 < d.ht1.size := Nat.pos_of_ne_zero (hw.range (dictIsRehashing_eq.mp hr)).2.2.2
  unfold dictNextTurn
  rw [hentry]
  dsimp only
  rw [hopen, Option.bind_some, hindex, toInt32_size hw, if_neg (by omega), if_pos (by omega), if_pos ⟨hr, hold⟩,
    hw.new.bucket_eq hpos]
  rfl

/-- The turn behind the last bucket. -/
theorem turn_break (hw : d.Wf T) (hopen : dictIterOpen d₀ iter = some d) (hentry : iter.entry = none)
    (hindex : iter.index + 1 = (d.ht iter.table).size) (hlast : ¬(dictIsRehashing d = true ∧ iter.table = .old)) :
    dictNextTurn T d₀ iter = some (d, { iter with index := (d.ht iter.table).size }, none) := by
  have hle := (hw.table iter.table).size_le
  unfold dictNextTurn
  rw [hentry]
  dsimp only
  rw [hopen, Option.bind_some, hindex, toInt32_size hw, if_neg (by omega), if_pos (by omega), if_neg hlast]

/-- The rank of a place where bucket `i` is the next one. -/
def Dict.rankBefore (d : Dict K V) (side : DictSide) (i : Nat) : Nat ×ₗ Nat ×ₗ Nat :=
  toLex (side.left, toLex ((d.ht side).size - i + 1, 0))

/-- A turn that has read bucket `i` ends the call, or the next bucket is tried. -/
theorem arrives_bucket {fuel : Nat} (iter' : DictIterator K)
    (hturn : dictNextTurn T d₀ iter = some (d, iter', some ((d.ht iter'.table).table i))) (hindex : iter'.index = i)
    (hi : i < (d.ht iter'.table).size)
    (hnext : Arrives d ((d.ht iter'.table).onward (i + 1) ++ d.back iter'.table) (d.rankBefore iter'.table (i + 1))
      (dictNextLoop T fuel d { iter' with entry := none })) :
    Arrives d ((d.ht iter'.table).onward i ++ d.back iter'.table) (d.rankBefore iter'.table i)
      (dictNextLoop T (fuel + 1) d₀ iter) := by
  rw [dictNextLoop, hturn, Option.bind_some, Dictht.onward_of_lt hi]
  cases hchain : (d.ht iter'.table).table i with
  | nil =>
    refine hnext.mono ?_
    refine Prod.Lex.toLex_le_toLex.mpr (.inr ⟨rfl, Prod.Lex.toLex_le_toLex.mpr (.inl ?_)⟩)
    dsimp only
    omega
  | cons e c =>
    refine ⟨_, i, [], c, rfl, ⟨hindex, hi, rfl, rfl, hchain⟩, ?_, ?_⟩
    · rfl
    · exact Prod.Lex.toLex_lt_toLex.mpr (.inr ⟨rfl, Prod.Lex.toLex_lt_toLex.mpr (.inl (Nat.lt_succ_self _))⟩)

theorem iterOpen_self (h : ¬(iter.index = -1 ∧ iter.table = .old)) : dictIterOpen d iter = some d := if_neg h

/-- **The loop from bucket `i` on.** -/
theorem loop_arrives (hw : d.Wf T) (fuel : Nat) : ∀ {d₀ : Dict K V} {iter : DictIterator K} {i : Nat},
    dictIterOpen d₀ iter = some d → iter.entry = none → iter.index + 1 = i → i ≤ (d.ht iter.table).size →
    (d.ht iter.table).size - i + iter.table.left * d.ht1.size < fuel →
    Arrives d ((d.ht iter.table).onward i ++ d.back iter.table) (d.rankBefore iter.table i)
      (dictNextLoop T fuel d₀ iter) := by
  induction fuel with
  | zero => exact fun _ _ _ _ hfuel => absurd hfuel (Nat.not_lt_zero _)
  | succ fuel ih =>
    intro d₀ iter i hopen hentry hindex hi hfuel
    rcases Nat.lt_or_eq_of_le hi with hlt | heq
    · refine arrives_bucket { iter with index := i } (turn_bucket hw hopen hentry hindex hlt) rfl hlt ?_
      refine @ih d { iter with index := i, entry := none } (i + 1) (iterOpen_self fun h => ?_) rfl
        (Nat.cast_succ i).symm hlt ?_
      · have hnonneg : (i : Int) = -1 := h.1
        omega
      · dsimp only
        omega
    · subst heq
      rw [Dictht.onward_size]
      by_cases hsecond : dictIsRehashing d = true ∧ iter.table = .old
      · obtain ⟨hr, hold⟩ := hsecond
        have hpos : 0 < d.ht1.size := Nat.pos_of_ne_zero (hw.range (dictIsRehashing_eq.mp hr)).2.2.2
        have hleft : iter.table.left = 1 := congrArg DictSide.left hold
        have hback : [] ++ d.back iter.table = d.ht1.onward 0 ++ d.back .new := by
          rw [hold, Dictht.onward_zero]
          exact (List.append_nil _).symm
        rw [hback]
        have hnext := @ih d { iter with table := .new, index := 0, entry := none } 1
          (iterOpen_self fun h => by cases h.2) rfl rfl hpos (by
            show d.ht1.size - 1 + 0 * d.ht1.size < fuel
            rw [hleft] at hfuel
            omega)
        have hbucket := arrives_bucket { iter with table := .new, index := 0 } (turn_second hw hopen hentry hindex hr hold)
          (i := 0) rfl hpos hnext
        refine hbucket.mono (Prod.Lex.toLex_le_toLex.mpr (.inl ?_))
        rw [hleft]
        exact Nat.one_pos
      · have hnil : d.back iter.table = [] := by
          cases hside : iter.table with
          | new => rfl
          | old =>
            have hidle : d.rehashidx = -1 := by
              by_contra h
              exact hsecond ⟨dictIsRehashing_eq.mpr h, hside⟩
            exact hw.entries_new hidle
        rw [List.nil_append, hnil, dictNextLoop, turn_break hw hopen hentry hindex hsecond, Option.bind_some]
        refine ⟨_, rfl, fun h => ?_⟩
        have hnonneg : ((d.ht iter.table).size : Int) = -1 := h.1
        omega

/-- **The first `dictNext`.** -/
theorem dictNext_first (hw : d.Wf T) (hcount : d.iterators + 1 < 2 ^ 31) :
    Arrives { d with iterators := d.iterators + 1 } d.entries (toLex (2, toLex (0, 0)))
      (dictNext T d dictGetSafeIterator) := by
  have hw' : ({ d with iterators := d.iterators + 1 } : Dict K V).Wf T :=
    ⟨hw.table, hw.idle, hw.range, hw.moved, hw.distinct⟩
  have hopen : dictIterOpen d (dictGetSafeIterator : DictIterator K) = some { d with iterators := d.iterators + 1 } := by
    rw [dictIterOpen, if_pos ⟨rfl, rfl⟩, if_pos hcount]
  have hloop := loop_arrives hw' (d.ht0.size + d.ht1.size + 2) hopen rfl (i := 0) rfl (Nat.zero_le _) (by
    show d.ht0.size - 0 + 1 * d.ht1.size < _
    omega)
  have hall : d.ht0.onward 0 ++ d.ht1.entries = d.entries := by rw [Dictht.onward_zero, Dict.entries]
  exact hall ▸ hloop.mono (Prod.Lex.toLex_le_toLex.mpr (.inl Nat.one_lt_two))

end

/-! ### Inside a bucket -/

section

variable {T : DictType K} {d : Dict K V} {iter : DictIterator K} {i : Nat} {b c : List (K × V)}

theorem Dictht.Wf.mem_entries {h : Dictht K V} (hw : h.Wf T) {j : Nat} {e : K × V} (he : e ∈ h.table j) : e ∈ h.entries :=
  List.mem_flatMap.mpr ⟨j, List.mem_range.mpr (hw.placed j e he).1, he⟩

/-- Keys behind the iterator are not ahead of it. -/
theorem Dict.At.distinct (hw : d.Wf T) (h : d.At iter i b c) {a e : K × V} (ha : a ∈ d.behind iter.table i b)
    (he : e ∈ d.ahead iter.table i c) : T.keyCompare a.1 e.1 = false := by
  have hd := hw.distinct
  rw [h.entries] at hd
  exact (List.pairwise_append.mp hd).2.2 a ha e he

/-- The saved successor is where it was. -/
theorem Dict.At.chainFrom (hT : T.Lawful) (hw : d.Wf T) {e : K × V} (h : d.At iter i b (e :: c)) :
    d.chainFrom T e.1 = some (e :: c) := by
  have hmem : e ∈ (d.ht iter.table).table i := by
    rw [h.chain]
    exact List.mem_append_right _ List.mem_cons_self
  have hslot : dictSlot T (d.ht iter.table) e.1 = i := ((hw.table iter.table).placed i e hmem).2
  have hother : ∀ a ∈ d.behind iter.table i b, (!T.keyCompare e.1 a.1) = true := by
    intro a ha
    rw [hT.keyEq.comm, h.distinct hw ha List.mem_cons_self]
    rfl
  have hself : (d.ht iter.table).chainFrom T e.1 = e :: c := by
    have hb : ∀ a ∈ b, (!T.keyCompare e.1 a.1) = true := fun a ha => hother a (List.mem_append_right _ ha)
    rw [Dictht.chainFrom, hslot, h.chain, List.dropWhile_append_of_pos hb,
      List.dropWhile_cons_of_neg (by simp [hT.keyEq.refl])]
  unfold Dict.chainFrom
  cases hside : iter.table with
  | old =>
    rw [hside] at hself
    have hself₀ : d.ht0.chainFrom T e.1 = e :: c := hself
    rw [hself₀]
  | new =>
    rw [hside] at hself hother
    have hself₁ : d.ht1.chainFrom T e.1 = e :: c := hself
    have hnone : d.ht0.chainFrom T e.1 = [] := by
      refine List.dropWhile_eq_nil_iff.mpr fun a ha => hother a ?_
      exact List.mem_append_left _ (List.mem_append_left _ (hw.old.mem_entries ha))
    rw [hnone, hself₁]

/-- **`dictNext` from a place inside a bucket.** -/
theorem Dict.At.dictNext (hT : T.Lawful) (hw : d.Wf T) (h : d.At iter i b c) :
    Arrives d (d.ahead iter.table i c) (d.rank iter.table i c) (dictNext T d iter) := by
  obtain ⟨k, hk⟩ := Option.isSome_iff_exists.mp h.entry
  unfold Prez.dictNext
  rw [dictNextLoop]
  unfold dictNextTurn
  rw [hk, h.next]
  dsimp only
  cases c with
  | cons e c =>
    rw [List.head?_cons, Option.map_some]
    dsimp only
    rw [h.chainFrom hT hw, Option.map_some, Option.bind_some]
    refine ⟨_, i, b, c, rfl, ⟨h.index, h.inside, rfl, rfl, ?_⟩, rfl, ?_⟩
    · rw [List.append_assoc]
      exact h.chain
    · refine Prod.Lex.toLex_lt_toLex.mpr (.inr ⟨rfl, Prod.Lex.toLex_lt_toLex.mpr (.inr ⟨rfl, ?_⟩)⟩)
      exact Nat.lt_succ_self _
  | nil =>
    rw [List.head?_nil, Option.map_none]
    dsimp only
    rw [Option.bind_some]
    have hstarted : ¬(iter.index = -1 ∧ iter.table = .old) := by
      rw [h.index]
      omega
    have hloop := @loop_arrives K V T d hw (d.ht0.size + d.ht1.size + 1) d { iter with entry := none } (i + 1)
      (iterOpen_self hstarted) rfl (by rw [h.index]; exact (Nat.cast_succ i).symm) h.inside ?_
    · have hsize : (d.ht iter.table).size - (i + 1) + 1 = (d.ht iter.table).size - i := by
        have hi := h.inside
        omega
      have hrank : d.rankBefore iter.table (i + 1) = d.rank iter.table i [] := by
        rw [Dict.rankBefore, hsize]
        rfl
      rw [← hrank]
      exact hloop
    · have hi := h.inside
      dsimp only
      cases iter.table with
      | old =>
        show d.ht0.size - (i + 1) + 1 * d.ht1.size < _
        omega
      | new =>
        show d.ht1.size - (i + 1) + 0 * d.ht1.size < _
        omega

/-! ## Changes around an iterator -/

/-- While a safe iterator is open no entry is moved. -/
theorem rehashStep_frozen (hopen : d.iterators ≠ 0) : dictRehashStep T d = some d := by
  rw [dictRehashStep, if_neg]
  rw [Bool.and_eq_true, beq_iff_eq]
  exact fun h => hopen h.2

/-- An open iterator keeps a lookup from moving anything. -/
theorem dictFind_frozen (hT : T.Lawful) (hw : d.Wf T) (hopen : d.iterators ≠ 0) (key : K) :
    ∃ o, dictFind T d key = some (d, o) := by
  obtain ⟨d', o, hfind, -⟩ := dictFind_spec hT hw key
  rw [dictFind, rehashStep_frozen hopen] at hfind ⊢
  split
  · exact ⟨none, rfl⟩
  · rename_i h0
    rw [if_neg h0, Option.bind_some] at hfind
    obtain ⟨e, he, -⟩ := Option.map_eq_some_iff.mp hfind
    exact ⟨e, by rw [Option.bind_some, he, Option.map_some]⟩

/-- The iterator stays where it is while the dictionary changes. -/
structure KeepsPlace (d d' : Dict K V) (iter : DictIterator K) (i : Nat) (b' c : List (K × V)) : Prop where
  place : d'.At iter i b' c
  rank : d'.rank iter.table i c = d.rank iter.table i c
  iterators : d'.iterators = d.iterators

/-- A new entry is behind the iterator or ahead of it. -/
def Inserts (d d' : Dict K V) (iter : DictIterator K) (i : Nat) (b b' c : List (K × V)) (e : K × V) : Prop :=
  (d'.behind iter.table i b').Perm (e :: d.behind iter.table i b) ∧ d'.ahead iter.table i c = d.ahead iter.table i c ∨
  d'.behind iter.table i b' = d.behind iter.table i b ∧ (d'.ahead iter.table i c).Perm (e :: d.ahead iter.table i c)

section

variable {side : DictSide} {h' : Dictht K V} {j u : Nat} {x : List (K × V)}

theorem setHt_ht : (d.setHt side h').ht side = h' := by cases side <;> rfl

theorem setHt_front : (d.setHt side h').front side = d.front side := by cases side <;> rfl

theorem setHt_back : (d.setHt side h').back side = d.back side := by cases side <;> rfl

theorem setHt_iterators : (d.setHt side h').iterators = d.iterators := by cases side <;> rfl

/-- One bucket of the table of the iterator changes. -/
theorem behind_setBucket : (d.setHt side { (d.ht side).setBucket j x with used := u }).behind side i b =
    d.front side ++ (List.range i).flatMap ((d.ht side).setBucket j x).table ++ b := by
  rw [Dict.behind, setHt_front, setHt_ht]
  rfl

theorem ahead_setBucket : (d.setHt side { (d.ht side).setBucket j x with used := u }).ahead side i c =
    c ++ (List.range' (i + 1) ((d.ht side).size - (i + 1))).flatMap ((d.ht side).setBucket j x).table ++ d.back side := by
  rw [Dict.ahead, setHt_back, setHt_ht]
  rfl

/-- A change that keeps what is ahead in the chain leaves the place alone. -/
theorem keeps_setBucket (h : d.At iter i b c) {b' : List (K × V)}
    (hchain : ((d.ht iter.table).setBucket j x).table i = b' ++ c) :
    KeepsPlace d (d.setHt iter.table { (d.ht iter.table).setBucket j x with used := u }) iter i b' c where
  place := ⟨h.index, by rw [setHt_ht]; exact h.inside, h.entry, h.next, by rw [setHt_ht]; exact hchain⟩
  rank := by
    rw [Dict.rank, setHt_ht]
    rfl
  iterators := setHt_iterators

theorem behind_of_le (hj : i ≤ j) : (d.setHt side { (d.ht side).setBucket j x with used := u }).behind side i b =
    d.behind side i b := by
  have hnot : j ∉ List.range i := fun hmem => absurd (List.mem_range.mp hmem) (not_lt.mpr hj)
  rw [behind_setBucket, Dictht.flatMap_setBucket_of_notMem hnot]
  rfl

theorem ahead_of_le (hj : j ≤ i) : (d.setHt side { (d.ht side).setBucket j x with used := u }).ahead side i c =
    d.ahead side i c := by
  have hnot : j ∉ List.range' (i + 1) ((d.ht side).size - (i + 1)) := by
    rw [List.mem_range'_1]
    omega
  rw [ahead_setBucket, Dictht.flatMap_setBucket_of_notMem hnot]
  rfl

theorem setBucket_of_ne (hne : i ≠ j) (x : List (K × V)) (h : Dictht K V) : (h.setBucket j x).table i = h.table i :=
  Function.update_of_ne hne _ _

theorem setBucket_self (x : List (K × V)) (h : Dictht K V) : (h.setBucket j x).table j = x := Function.update_self ..

/-- A new entry in the table of the iterator. -/
theorem push_own (h : d.At iter i b c) (hj : j < (d.ht iter.table).size) (e : K × V) (u : Nat) :
    ∃ b', b ⊆ b' ∧
      KeepsPlace d (d.setHt iter.table { (d.ht iter.table).setBucket j (e :: (d.ht iter.table).table j) with used := u })
        iter i b' c ∧
      Inserts d (d.setHt iter.table { (d.ht iter.table).setBucket j (e :: (d.ht iter.table).table j) with used := u })
        iter i b b' c e := by
  rcases lt_trichotomy j i with hlt | rfl | hgt
  · refine ⟨b, List.Subset.refl b, keeps_setBucket h ?_, .inl ⟨?_, ahead_of_le hlt.le⟩⟩
    · rw [setBucket_of_ne hlt.ne']
      exact h.chain
    · rw [behind_setBucket, Dict.behind]
      refine .trans (.append_right b (.append_left _ (Dictht.flatMap_push List.nodup_range (List.mem_range.mpr hlt) e))) ?_
      exact List.perm_middle.append_right b
  · refine ⟨e :: b, List.subset_cons_self e b, keeps_setBucket h ?_, .inl ⟨?_, ahead_of_le le_rfl⟩⟩
    · rw [setBucket_self, h.chain]
      rfl
    · rw [behind_of_le le_rfl]
      exact List.perm_middle
  · refine ⟨b, List.Subset.refl b, keeps_setBucket h ?_, .inr ⟨behind_of_le hgt.le, ?_⟩⟩
    · rw [setBucket_of_ne hgt.ne]
      exact h.chain
    · have hmem : j ∈ List.range' (i + 1) ((d.ht iter.table).size - (i + 1)) := by
        rw [List.mem_range'_1]
        omega
      rw [ahead_setBucket, Dict.ahead]
      refine .trans (.append_right _ (.append_left c (Dictht.flatMap_push List.nodup_range' hmem e))) ?_
      exact List.perm_middle.append_right _

/-- A new entry in the second table, while the iterator is in the first. -/
theorem push_second (h : d.At iter i b c) (hold : iter.table = .old) {e : K × V} (hp : h'.entries.Perm (e :: d.ht1.entries)) :
    KeepsPlace d (d.setHt .new h') iter i b c ∧ Inserts d (d.setHt .new h') iter i b b c e := by
  obtain ⟨table, index, entry, nextEntry⟩ := iter
  cases hold
  refine ⟨⟨⟨h.index, h.inside, h.entry, h.next, h.chain⟩, rfl, rfl⟩, .inr ⟨rfl, ?_⟩⟩
  exact (hp.append_left _).trans List.perm_middle

end

/-- `_dictExpandIfNeeded` adds an empty table at most. -/
theorem expand_cases (canResize : Bool) (d : Dict K V) (h0 : d.ht0.size ≠ 0) (hw : d.Wf T) :
    (dictExpandIfNeeded canResize d).1 = d ∨
      d.rehashidx = -1 ∧ ∃ n, (dictExpandIfNeeded canResize d).1 = { d with ht1 := dictAlloc n, rehashidx := 0 } := by
  rw [dictExpandIfNeeded]
  by_cases hr : dictIsRehashing d = true
  · rw [if_pos hr]
    exact .inl rfl
  rw [if_neg hr, if_neg h0]
  split
  · unfold dictExpand
    split
    · exact .inl rfl
    · have hsome : ¬ d.ht0.slots.isNone = true := fun h => h0 (hw.old.isNone_slots.mp h)
      dsimp only
      rw [if_neg hsome]
      refine .inr ⟨?_, _, rfl⟩
      by_contra hne
      exact hr (dictIsRehashing_eq.mpr hne)
  · exact .inl rfl

/-- An iterator in the second table has seen the dictionary rehashing. -/
theorem Dict.At.rehashing (hw : d.Wf T) (h : d.At iter i b c) (hnew : iter.table = .new) : d.rehashidx ≠ -1 := by
  intro hidle
  have hi := h.inside
  rw [hnew] at hi
  have hzero : d.ht1.size = 0 := hw.idle hidle
  exact absurd hi (by rw [Dict.ht, hzero]; exact Nat.not_lt_zero i)

theorem Dict.At.size_ne (hw : d.Wf T) (h : d.At iter i b c) : d.ht0.size ≠ 0 := by
  cases hside : iter.table with
  | old =>
    have hi := h.inside
    rw [hside] at hi
    exact Nat.ne_zero_of_lt hi
  | new => exact (hw.range (h.rehashing hw hside)).2.2.1

/-- An empty second table changes nothing for the iterator. -/
theorem keeps_expand (hw : d.Wf T) (h : d.At iter i b c) (canResize : Bool) :
    KeepsPlace d (dictExpandIfNeeded canResize d).1 iter i b c ∧
      (dictExpandIfNeeded canResize d).1.behind iter.table i b = d.behind iter.table i b ∧
      (dictExpandIfNeeded canResize d).1.ahead iter.table i c = d.ahead iter.table i c := by
  rcases expand_cases canResize d (h.size_ne hw) hw with hsame | ⟨hidle, n, hnew⟩
  · rw [hsame]
    exact ⟨⟨h, rfl, rfl⟩, rfl, rfl⟩
  · have hold : iter.table = .old := by
      cases hside : iter.table with
      | old => rfl
      | new => exact absurd hidle (h.rehashing hw hside)
    rw [hnew]
    obtain ⟨table, index, entry, nextEntry⟩ := iter
    cases hold
    refine ⟨⟨⟨h.index, h.inside, h.entry, h.next, h.chain⟩, rfl, rfl⟩, rfl, ?_⟩
    show _ ++ _ ++ (dictAlloc n : Dictht K V).entries = _ ++ _ ++ d.ht1.entries
    rw [Dictht.dictAlloc_entries, hw.entries_new hidle]
    rfl

/-- The table that a new entry goes to is the one of the iterator, or the one after it. -/
theorem push_target (hw : d.Wf T) (h : d.At iter i b c) {j : Nat} (hj : j < (d.ht d.target).size) (e : K × V) (u : Nat) :
    ∃ b', b ⊆ b' ∧
      KeepsPlace d (d.setHt d.target { (d.ht d.target).setBucket j (e :: (d.ht d.target).table j) with used := u })
        iter i b' c ∧
      Inserts d (d.setHt d.target { (d.ht d.target).setBucket j (e :: (d.ht d.target).table j) with used := u })
        iter i b b' c e := by
  by_cases hown : d.target = iter.table
  · rw [hown] at hj ⊢
    exact push_own h hj e u
  · have hold : iter.table = .old ∧ d.target = .new := by
      cases hside : iter.table with
      | new =>
        have htarget : d.target = .new := if_pos (dictIsRehashing_eq.mpr (h.rehashing hw hside))
        exact absurd (htarget.trans hside.symm) hown
      | old =>
        refine ⟨rfl, ?_⟩
        cases htarget : d.target with
        | new => rfl
        | old => exact absurd (htarget.trans hside.symm) hown
    rw [hold.2] at hj ⊢
    refine ⟨b, List.Subset.refl b, push_second h hold.1 ?_⟩
    exact (Dictht.setBucket_entries hj _).trans ((Dictht.entries_perm hj).symm.cons e)

/-- **`dictAdd` while an iterator is open.** -/
theorem Dict.At.dictAdd (hT : T.Lawful) (hw : d.Wf T) (hopen : d.iterators ≠ 0) (h : d.At iter i b c) {canResize : Bool}
    (hs : AddSmall T canResize d) (key : K) (val : V) :
    ∃ d' ok b', dictAdd T canResize d key val = some (d', ok) ∧ d'.Wf T ∧ b ⊆ b' ∧ KeepsPlace d d' iter i b' c ∧
      (ok = false → d'.behind iter.table i b' = d.behind iter.table i b ∧
        d'.ahead iter.table i c = d.ahead iter.table i c) ∧
      (ok = true → (∀ a ∈ d.entries, T.keyCompare a.1 key = false) ∧ Inserts d d' iter i b b' c (key, val)) := by
  obtain ⟨d₁, d₂, hstep, hd₂, hm, h0, hrun⟩ := dictAdd_run hT hw hs key val
  cases (rehashStep_frozen hopen).symm.trans hstep
  obtain ⟨hk, hbehind, hahead⟩ := keeps_expand hw h canResize
  rw [← hd₂] at hk hbehind hahead
  obtain ⟨d', ok, hadd, hw', -, -, -⟩ := dictAdd_spec hT hw hs key val
  rw [hrun] at hadd ⊢
  cases hkey : d.map T key with
  | some v =>
    refine ⟨d₂, false, b, rfl, hm.wf, List.Subset.refl b, hk, fun _ => ⟨hbehind, hahead⟩, fun hf => ?_⟩
    exact absurd hf Bool.false_ne_true
  | none =>
    have hj := (hm.wf.table d₂.target).slot_lt (hm.wf.target_size h0) key
    have hnone : ¬ (none : Option V).isSome = true := Bool.false_ne_true
    rw [hkey, if_neg hnone, Dictht.push, (hm.wf.table d₂.target).bucket_eq hj, Option.map_some, Option.map_some] at hadd
    rw [if_neg hnone, Dictht.push, (hm.wf.table d₂.target).bucket_eq hj, Option.map_some, Option.map_some]
    cases hadd
    obtain ⟨b', hsub, hkeep, hins⟩ := push_target hm.wf hk.place hj (key, val) ((d₂.ht d₂.target).used + 1)
    refine ⟨_, true, b', rfl, hw', hsub, ⟨hkeep.place, hkeep.rank.trans hk.rank, hkeep.iterators.trans hk.iterators⟩,
      fun hf => absurd hf.symm Bool.false_ne_true, fun _ => ⟨fun a ha => ?_, ?_⟩⟩
    · rw [hT.keyEq.comm]
      exact Assoc.lookup_eq_none.mp hkey a ha
    · unfold Inserts at hins
      rw [hbehind, hahead] at hins
      exact hins

/-- A key stands in one of the tables only. -/
theorem side_unique (hT : T.Lawful) (hw : d.Wf T) {side side' : DictSide} {a a' : K × V} (ha : a ∈ (d.ht side).entries)
    (ha' : a' ∈ (d.ht side').entries) (heq : T.keyCompare a.1 a'.1 = true) : side = side' := by
  have hcross := (List.pairwise_append.mp hw.distinct).2.2
  cases side <;> cases side'
  · rfl
  · exact absurd heq (Bool.eq_false_iff.mp (hcross a ha a' ha'))
  · rw [hT.keyEq.comm] at heq
    exact absurd heq (Bool.eq_false_iff.mp (hcross a' ha' a ha))
  · rfl

/-- **`dictDelete` of an entry that the iterator has returned from the current bucket.** -/
theorem Dict.At.dictDelete (hT : T.Lawful) (hw : d.Wf T) (hopen : d.iterators ≠ 0) (h : d.At iter i b c) {e : K × V}
    (he : e ∈ b) :
    ∃ d' b', dictDelete T d e.1 = some (d', true) ∧ d'.Wf T ∧ KeepsPlace d d' iter i b' c ∧
      (d.behind iter.table i b).Perm (e :: d'.behind iter.table i b') ∧
      d'.ahead iter.table i c = d.ahead iter.table i c := by
  have hmem : e ∈ (d.ht iter.table).table i := by
    rw [h.chain]
    exact List.mem_append_left _ he
  have hentry := (hw.table iter.table).mem_entries hmem
  have hslot : dictSlot T (d.ht iter.table) e.1 = i := ((hw.table iter.table).placed i e hmem).2
  obtain ⟨d', ok, hdel, hw', -, -⟩ := dictDelete_spec hT hw e.1
  obtain ⟨o, hloc, hval, hat⟩ := hw.locate hT (h.size_ne hw) e.1
  rw [Prez.dictDelete, if_neg (h.size_ne hw), rehashStep_frozen hopen, Option.bind_some, hloc, Option.map_some] at hdel ⊢
  cases o with
  | none =>
    have hsome : (d.map T e.1).isSome = true :=
      Assoc.lookup_isSome.mpr ⟨e, by rw [d.entries_sides iter.table]; simp [hentry], hT.keyEq.refl _⟩
    rw [← hval] at hsome
    exact absurd hsome Bool.false_ne_true
  | some r =>
    obtain ⟨side, e'⟩ := r
    obtain ⟨-, hfind⟩ := hat side e' rfl
    have hside : iter.table = side := side_unique hT hw hentry
      ((hw.table side).mem_entries (List.mem_of_find?_eq_some hfind)) (Assoc.eq_of_find? hfind)
    subst hside
    dsimp only at hdel ⊢
    rw [dictUpdate, hslot, h.chain,
      List.eraseP_append_left (p := fun a : K × V => T.keyCompare e.1 a.1) (hT.keyEq.refl e.1) c he] at hdel ⊢
    cases hdel
    refine ⟨_, b.eraseP fun a => T.keyCompare e.1 a.1, rfl, hw', keeps_setBucket h (setBucket_self _ _), ?_,
      ahead_of_le le_rfl⟩
    have hd : Assoc.Distinct T.keyCompare b := by
      have hall := hw.distinct
      rw [h.entries, Dict.behind] at hall
      exact (List.pairwise_append.mp (List.pairwise_append.mp hall).1).2.1
    have hb := hd.perm_eraseP_mem hT.keyEq he
    rw [behind_of_le le_rfl]
    exact (hb.append_left _).trans List.perm_middle

end

end Prez
