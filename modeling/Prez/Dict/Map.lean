import Prez.Dict.Table
import Mathlib.Data.Nat.Bitwise
import Mathlib.Algebra.Order.Group.Nat
import Prez.Lib.Run

/-!
# `Prez.Dict.Map` — the hash table is a finite map

`Dict.Wf` says what every operation keeps: table sizes, the bucket of each entry, the counters, the buckets
already moved, and that no key is stored twice. An operation is then specified by what it does to the
entries of the two tables, up to their order. Moving entries and resizing do nothing to them (`Moved`).

The specification holds as long as no table gets more than 2³⁰ buckets (`DictOp.Small`): bucket numbers
and `rehashidx` are `int`s, and the byte count of a larger table can wrap.
-/

namespace Prez

open Lib

variable {K V : Type}

/-! ## Tables -/

/-- The entries of a table, bucket by bucket. -/
def Dictht.entries (h : Dictht K V) : List (K × V) := (List.range h.size).flatMap h.table

/-- The entries outside bucket `i`. -/
def Dictht.rest (h : Dictht K V) (i : Nat) : List (K × V) := ((List.range h.size).erase i).flatMap h.table

/-- A table has no block or a power of two of buckets, at most 2³⁰. -/
def TableSize (n : Nat) : Prop := n = 0 ∨ ∃ k, 2 ≤ k ∧ k ≤ 30 ∧ n = 2 ^ k

/-- What holds of a table between two operations. -/
structure Dictht.Wf (T : DictType K) (h : Dictht K V) : Prop where
  size : TableSize h.size
  slots : h.slots = if h.size = 0 then none else some h.size
  mask : h.sizemask = h.size - 1
  placed : ∀ i e, e ∈ h.table i → i < h.size ∧ dictSlot T h e.1 = i
  used : h.used = h.entries.length

namespace Dictht

variable {T : DictType K} {h : Dictht K V} {i : Nat}

/-- A table is one of its buckets and the rest. -/
theorem entries_perm (hi : i < h.size) : h.entries.Perm (h.table i ++ h.rest i) := by
  have hp : (List.range h.size).Perm (i :: (List.range h.size).erase i) :=
    List.perm_cons_erase (List.mem_range.mpr hi)
  exact hp.flatMap_right h.table

theorem rest_setBucket (b : List (K × V)) : (h.setBucket i b).rest i = h.rest i := by
  unfold rest setBucket
  refine List.flatMap_congr fun j hj => ?_
  have hne : j ≠ i := fun hji => by
    subst hji
    exact (List.nodup_range.not_mem_erase) hj
  exact Function.update_of_ne hne _ _

/-- Writing one bucket leaves the rest. -/
theorem setBucket_entries (hi : i < h.size) (b : List (K × V)) :
    (h.setBucket i b).entries.Perm (b ++ h.rest i) := by
  have := entries_perm (h := h.setBucket i b) hi
  rw [rest_setBucket] at this
  simpa [setBucket] using this

theorem entries_of_size (hs : h.size = 0) : h.entries = [] := by
  simp [entries, hs]

namespace Wf

variable (hw : h.Wf T)
include hw

theorem slot_lt (hs : h.size ≠ 0) (key : K) : dictSlot T h key < h.size := by
  obtain h0 | ⟨k, -, -, hk⟩ := hw.size
  · exact absurd h0 hs
  · rw [dictSlot, hw.mask, hk, Nat.and_two_pow_sub_one_eq_mod]
    exact Nat.mod_lt _ (Nat.two_pow_pos k)

theorem bucket_eq (hi : i < h.size) : h.bucket i = some (h.table i) := by
  have hs : h.slots = some h.size := by
    rw [hw.slots, if_neg (by omega)]
  simp [bucket, hs, hi]

theorem isNone_slots : h.slots.isNone = true ↔ h.size = 0 := by
  rw [hw.slots]
  split <;> simp_all

theorem size_le : h.size ≤ 2 ^ 30 := by
  obtain h0 | ⟨k, -, hk, hs⟩ := hw.size
  · omega
  · rw [hs]
    exact Nat.pow_le_pow_right (by omega) hk

/-- Bucket `i` gets a chain whose keys belong there. -/
theorem setBucket (hi : i < h.size) {b : List (K × V)} (hb : ∀ e ∈ b, dictSlot T h e.1 = i) {u : Nat}
    (hu : u = (b ++ h.rest i).length) : ({ h.setBucket i b with used := u } : Dictht K V).Wf T where
  size := hw.size
  slots := hw.slots
  mask := hw.mask
  placed := by
    intro j e he
    by_cases hj : j = i
    · subst hj
      refine ⟨hi, hb e ?_⟩
      simpa [Dictht.setBucket] using he
    · refine hw.placed j e ?_
      simpa [Dictht.setBucket, Function.update_of_ne hj] using he
  used := hu.trans (setBucket_entries hi b).length_eq.symm

theorem used_eq (hi : i < h.size) : h.used = (h.table i ++ h.rest i).length :=
  hw.used.trans (entries_perm hi).length_eq

/-- **An entry at the head of its bucket.** -/
theorem push (hs : h.size ≠ 0) (e : K × V) :
    ∃ h', h.push (dictSlot T h e.1) e = some h' ∧ h'.Wf T ∧ h'.size = h.size ∧
      h'.entries.Perm (e :: h.entries) := by
  have hi := hw.slot_lt hs e.1
  refine ⟨_, by rw [Dictht.push, hw.bucket_eq hi]; rfl, hw.setBucket hi ?_ ?_, rfl, ?_⟩
  · intro a ha
    rcases List.mem_cons.mp ha with rfl | ha
    · rfl
    · exact (hw.placed _ a ha).2
  · simp [hw.used_eq hi]
  · exact (setBucket_entries hi _).trans ((entries_perm hi).symm.cons e)

/-- Only the bucket of a key can hold an entry for it. -/
theorem lookup_entries (hT : T.Lawful) (hd : Assoc.Distinct T.keyCompare h.entries) (hs : h.size ≠ 0) (key : K) :
    Assoc.lookup T.keyCompare key h.entries =
      Assoc.lookup T.keyCompare key (h.table (dictSlot T h key)) := by
  rw [Assoc.lookup_perm hT.keyEq key hd (entries_perm (hw.slot_lt hs key)), Assoc.lookup_append]
  have hrest : Assoc.lookup T.keyCompare key (h.rest (dictSlot T h key)) = none := by
    refine Assoc.lookup_eq_none.mpr fun e he => ?_
    obtain ⟨j, hj, he⟩ := List.mem_flatMap.mp he
    have hne : j ≠ dictSlot T h key := fun hji => (List.nodup_range.not_mem_erase) (hji ▸ hj)
    by_contra hcmp
    have hh := hT.hash_eq (Bool.of_not_eq_false hcmp)
    refine hne ?_
    rw [← (hw.placed j e he).2, dictSlot, dictSlot, hh]
  rw [hrest, Option.or_none]

/-- A search looks through one bucket. -/
theorem search (hs : h.size ≠ 0) (key : K) :
    dictSearch T h key = some ((h.table (dictSlot T h key)).find? fun e => T.keyCompare key e.1) := by
  rw [dictSearch, hw.bucket_eq (hw.slot_lt hs key)]
  rfl

end Wf

theorem dictReset_wf : (dictReset : Dictht K V).Wf T where
  size := .inl rfl
  slots := rfl
  mask := rfl
  placed := by intro i e he; cases he
  used := rfl

theorem dictAlloc_entries (n : Nat) : (dictAlloc n : Dictht K V).entries = [] := by
  simp [entries, dictAlloc]

theorem dictAlloc_wf {k : Nat} (h2 : 2 ≤ k) (h30 : k ≤ 30) : (dictAlloc (2 ^ k) : Dictht K V).Wf T where
  size := .inr ⟨k, h2, h30, rfl⟩
  slots := by
    have hk : 2 ^ k ≤ 2 ^ 30 := Nat.pow_le_pow_right (by omega) h30
    have hpos : 2 ^ k ≠ 0 := (Nat.two_pow_pos k).ne'
    have hmod : 2 ^ k * 8 % 2 ^ 64 = 2 ^ k * 8 := Nat.mod_eq_of_lt (by omega)
    simp only [dictAlloc, hmod, if_neg hpos, Nat.mul_div_cancel _ (show 0 < 8 by omega)]
  mask := rfl
  placed := by intro i e he; cases he
  used := by rw [dictAlloc_entries]; rfl

end Dictht

/-! ## Moving entries -/

variable {T : DictType K}

/-- The entries of a bucket go over one by one. -/
theorem moveEntries_spec :
    ∀ (b : List (K × V)) {h : Dictht K V}, h.Wf T → h.size ≠ 0 →
      ∃ h', moveEntries T b h = some h' ∧ h'.Wf T ∧ h'.size = h.size ∧ h'.entries.Perm (b ++ h.entries) := by
  intro b
  induction b with
  | nil => exact fun {h} hw _ => ⟨h, rfl, hw, rfl, .refl _⟩
  | cons e b ih =>
    intro h hw hs
    obtain ⟨h₁, hpush, hw₁, hs₁, hp₁⟩ := hw.push hs e
    obtain ⟨h₂, hmove, hw₂, hs₂, hp₂⟩ := ih hw₁ (hs₁ ▸ hs)
    refine ⟨h₂, by rw [moveEntries, hpush]; exact hmove, hw₂, hs₂.trans hs₁, ?_⟩
    exact hp₂.trans ((hp₁.append_left b).trans List.perm_middle)

/-- The scan finds the next bucket that is not empty, if there is one. -/
theorem nextBucket_spec {h : Dictht K V} (hw : h.Wf T) :
    ∀ {fuel i : Nat}, i + fuel = h.size → (∃ j, i ≤ j ∧ h.table j ≠ []) →
      ∃ j, nextBucket h fuel i = some (j, h.table j) ∧ i ≤ j ∧ j < h.size ∧ ∀ l, i ≤ l → l < j → h.table l = [] := by
  intro fuel
  induction fuel with
  | zero =>
    rintro i hsum ⟨j, hij, hj⟩
    -- no bucket lies past the table
    obtain ⟨e, he⟩ := List.exists_mem_of_ne_nil _ hj
    have := (hw.placed j e he).1
    omega
  | succ fuel ih =>
    rintro i hsum ⟨j, hij, hj⟩
    have hi : i < h.size := by omega
    rw [nextBucket, hw.bucket_eq hi]
    cases hb : h.table i with
    | nil =>
      have hlt : i + 1 ≤ j := by
        refine Nat.lt_of_le_of_ne hij fun h' => hj ?_
        rw [← h', hb]
      obtain ⟨j', hnext, hle, hlt, hempty⟩ := ih (by omega : i + 1 + fuel = h.size) ⟨j, hlt, hj⟩
      refine ⟨j', hnext, by omega, hlt, fun l hil hlj => ?_⟩
      rcases Nat.eq_or_lt_of_le hil with rfl | hil
      · exact hb
      · exact hempty l hil hlj
    | cons e b => exact ⟨i, by rw [hb], Nat.le_refl i, hi, fun l hil hli => absurd hil (by omega)⟩

/-! ## Dictionaries -/

/-- The entries of both tables. -/
def Dict.entries (d : Dict K V) : List (K × V) := d.ht0.entries ++ d.ht1.entries

/-- What holds of a dictionary between two operations. While rehashing, the buckets below `rehashidx` have
    been moved; otherwise there is no second table. -/
structure Dict.Wf (T : DictType K) (d : Dict K V) : Prop where
  table : ∀ side, (d.ht side).Wf T
  idle : d.rehashidx = -1 → d.ht1.size = 0
  range : d.rehashidx ≠ -1 → 0 ≤ d.rehashidx ∧ d.rehashidx ≤ d.ht0.size ∧ d.ht0.size ≠ 0 ∧ d.ht1.size ≠ 0
  moved : ∀ i : Nat, (i : Int) < d.rehashidx → d.ht0.table i = []
  distinct : Assoc.Distinct T.keyCompare d.entries

/-- The operation moved entries at most. -/
structure Moved (T : DictType K) (d d' : Dict K V) : Prop where
  wf : d'.Wf T
  perm : d'.entries.Perm d.entries
  kept : d.ht0.size ≠ 0 → d'.ht0.size ≠ 0

theorem Moved.refl {d : Dict K V} (hw : d.Wf T) : Moved T d d := ⟨hw, .refl _, id⟩

theorem Moved.trans {d₁ d₂ d₃ : Dict K V} (h : Moved T d₁ d₂) (h' : Moved T d₂ d₃) : Moved T d₁ d₃ :=
  ⟨h'.wf, h'.perm.trans h.perm, fun h0 => h'.kept (h.kept h0)⟩

/-- The index says whether a rehash is under way. -/
theorem dictIsRehashing_eq {d : Dict K V} : dictIsRehashing d = true ↔ d.rehashidx ≠ -1 := by
  simp [dictIsRehashing]

theorem not_dictIsRehashing {d : Dict K V} : ¬ dictIsRehashing d = true ↔ d.rehashidx = -1 := by
  rw [dictIsRehashing_eq, not_not]

section

variable {T : DictType K} {d : Dict K V}

theorem Dict.Wf.old (hw : d.Wf T) : d.ht0.Wf T := hw.table .old

theorem Dict.Wf.new (hw : d.Wf T) : d.ht1.Wf T := hw.table .new

theorem dictCreate_wf : (dictCreate : Dict K V).Wf T where
  table := by
    intro side
    cases side <;> exact Dictht.dictReset_wf
  idle := fun _ => rfl
  range := fun h => absurd rfl h
  moved := fun _ _ => rfl
  distinct := .nil

namespace Dict.Wf

variable (hw : d.Wf T)
include hw

/-- Entries left in the first table lie at or past `rehashidx`. -/
theorem exists_bucket (hu : d.ht0.used ≠ 0) : ∃ j, d.rehashidx.toNat ≤ j ∧ d.ht0.table j ≠ [] := by
  have hne : d.ht0.entries ≠ [] := by
    intro h
    exact hu (hw.old.used.trans (congrArg List.length h))
  obtain ⟨e, he⟩ := List.exists_mem_of_ne_nil _ hne
  obtain ⟨j, -, hj⟩ := List.mem_flatMap.mp he
  refine ⟨j, ?_, List.ne_nil_of_mem hj⟩
  by_contra hlt
  rw [hw.moved j (by omega)] at hj
  cases hj

/-- **One bucket goes over**, and no entry is lost. -/
theorem rehashBucket (hT : T.Lawful) (hr : d.rehashidx ≠ -1) (hu : d.ht0.used ≠ 0) :
    ∃ d', Prez.rehashBucket T d = some d' ∧ d'.rehashidx ≠ -1 ∧ Moved T d d' := by
  obtain ⟨h0, hle, hs0, hs1⟩ := hw.range hr
  have hw0 : d.ht0.Wf T := hw.old
  obtain ⟨j₀, hj₀, hne⟩ := hw.exists_bucket hu
  have hlt : d.rehashidx.toNat < d.ht0.size := by
    obtain ⟨e, he⟩ := List.exists_mem_of_ne_nil _ hne
    have := (hw0.placed j₀ e he).1
    omega
  obtain ⟨j, hnext, hij, hj, hempty⟩ :=
    nextBucket_spec hw0 (by omega : d.rehashidx.toNat + (d.ht0.size - d.rehashidx.toNat) = d.ht0.size) ⟨j₀, hj₀, hne⟩
  obtain ⟨h₁, hmove, hw1, hsize, hperm⟩ := moveEntries_spec (d.ht0.table j) hw.new hs1
  have hj30 := hw0.size_le
  have hrun : Prez.rehashBucket T d = some { d with
      ht0 := { d.ht0.setBucket j [] with used := d.ht0.used - (d.ht0.table j).length }
      ht1 := h₁
      rehashidx := j + 1 } := by
    rw [Prez.rehashBucket, if_neg (by omega), hnext, Option.bind_some, if_neg (by omega)]
    exact congrArg (Option.map _) hmove
  have hentries : ((d.ht0.setBucket j []).entries ++ h₁.entries).Perm d.entries := by
    have h0' : (d.ht0.setBucket j []).entries.Perm (d.ht0.rest j) := Dictht.setBucket_entries hj []
    have h0 : d.ht0.entries.Perm (d.ht0.table j ++ d.ht0.rest j) := Dictht.entries_perm hj
    refine (h0'.append hperm).trans (.trans ?_ (h0.symm.append_right _))
    rw [List.append_assoc]
    exact List.perm_append_comm_assoc _ _ _
  refine ⟨_, hrun, by simp only; omega, ⟨?_, ?_, ?_, ?_, ?_⟩, hentries, fun _ => hs0⟩
  · rintro (_ | _)
    · refine hw0.setBucket hj (fun e he => by cases he) ?_
      have := hw0.used_eq hj
      simp only [List.length_append, List.nil_append] at this ⊢
      omega
    · exact hw1
  · intro h
    simp only at h
    omega
  · intro _
    simp only [Dictht.setBucket]
    refine ⟨by omega, by omega, hs0, ?_⟩
    rw [hsize]
    exact hs1
  · intro i hi
    simp only [Dictht.setBucket] at hi ⊢
    by_cases hij' : i = j
    · rw [hij', Function.update_self]
    · rw [Function.update_of_ne hij']
      by_cases hlow : (i : Int) < d.rehashidx
      · exact hw.moved i hlow
      · exact hempty i (by omega) (by omega)
  · exact hw.distinct.perm hT.keyEq hentries.symm

theorem entries_old (hu : d.ht0.used = 0) : d.ht0.entries = [] :=
  List.eq_nil_of_length_eq_zero (hw.old.used.symm.trans hu)

theorem entries_new (hr : d.rehashidx = -1) : d.ht1.entries = [] := Dictht.entries_of_size (hw.idle hr)

/-- The first table is empty: the second takes its place. -/
theorem finish (hr : d.rehashidx ≠ -1) (hu : d.ht0.used = 0) :
    Moved T d { d with ht0 := d.ht1, ht1 := dictReset, rehashidx := -1 } := by
  have he : d.ht1.entries ++ (dictReset : Dictht K V).entries = d.entries := by
    rw [Dict.entries, hw.entries_old hu]
    exact List.append_nil _
  have hd := hw.distinct
  rw [← he] at hd
  refine ⟨⟨fun | .old => hw.new | .new => Dictht.dictReset_wf, fun _ => rfl, fun h => absurd rfl h, fun i hi => ?_, hd⟩,
    .of_eq he, fun _ => (hw.range hr).2.2.2⟩
  simp only at hi
  omega

end Dict.Wf

/-- Several buckets go over. -/
theorem rehashLoop_moved (hT : T.Lawful) :
    ∀ (n : Nat) {d : Dict K V}, d.Wf T → d.rehashidx ≠ -1 → ∃ d' b, rehashLoop T n d = some (d', b) ∧ Moved T d d' := by
  intro n
  induction n with
  | zero => exact fun {d} hw _ => ⟨d, true, rfl, .refl hw⟩
  | succ n ih =>
    intro d hw hr
    rw [rehashLoop]
    by_cases hu : d.ht0.used = 0
    · exact ⟨_, false, if_pos hu, hw.finish hr hu⟩
    · obtain ⟨d₁, h₁, hr₁, hm₁⟩ := hw.rehashBucket hT hr hu
      obtain ⟨d₂, b, h₂, hm₂⟩ := ih hm₁.wf hr₁
      refine ⟨d₂, b, ?_, hm₁.trans hm₂⟩
      rw [if_neg hu, h₁]
      exact h₂

/-- **A rehash keeps the entries.** -/
theorem dictRehash_moved (hT : T.Lawful) (hw : d.Wf T) (n : Int) :
    ∃ d' b, dictRehash T d n = some (d', b) ∧ Moved T d d' := by
  rw [dictRehash]
  cases hr : dictIsRehashing d with
  | false => exact ⟨d, false, rfl, .refl hw⟩
  | true => exact rehashLoop_moved hT _ hw (dictIsRehashing_eq.mp hr)

theorem dictRehashStep_moved (hT : T.Lawful) (hw : d.Wf T) :
    ∃ d', dictRehashStep T d = some d' ∧ Moved T d d' := by
  rw [dictRehashStep]
  split
  · obtain ⟨d', b, h, hm⟩ := dictRehash_moved hT hw 1
    exact ⟨d', by rw [h]; rfl, hm⟩
  · exact ⟨d, rfl, .refl hw⟩

/-! ## Resizing -/

variable {canResize : Bool} {size : Nat}

/-- The doubling ends at a power of two. -/
theorem nextPowerLoop_eq (hs : size ≤ 2 ^ 30) :
    ∀ (fuel : Nat) {j : Nat}, 2 ≤ j → j ≤ 30 → 30 ≤ j + fuel →
      ∃ k, 2 ≤ k ∧ k ≤ 30 ∧ nextPowerLoop fuel (2 ^ j) size = 2 ^ k := by
  intro fuel
  induction fuel with
  | zero => exact fun {j} h2 h30 _ => ⟨j, h2, h30, rfl⟩
  | succ fuel ih =>
    intro j h2 h30 hf
    rw [nextPowerLoop]
    split
    · exact ⟨j, h2, h30, rfl⟩
    · have hj : j ≠ 30 := by
        rintro rfl
        omega
      rw [← Nat.pow_succ]
      exact ih (by omega) (by omega) (by omega)

theorem dictNextPower_eq (hs : size ≤ 2 ^ 30) : ∃ k, 2 ≤ k ∧ k ≤ 30 ∧ dictNextPower size = 2 ^ k := by
  have hlt : ¬ size ≥ longMax := by
    simp only [longMax]
    omega
  rw [dictNextPower, if_neg hlt]
  exact nextPowerLoop_eq hs 62 (j := 2) (by omega) (by omega) (by omega)

/-- A table of another size keeps the entries. -/
theorem dictExpand_moved (hw : d.Wf T) (hs : size ≤ 2 ^ 30) : Moved T d (dictExpand d size).1 := by
  rw [dictExpand]
  split
  · exact .refl hw
  rename_i hguard
  have hr : d.rehashidx = -1 := not_dictIsRehashing.mp fun hr => hguard (by simp [hr])
  obtain ⟨k, h2, h30, hk⟩ := dictNextPower_eq hs
  have halloc : (dictAlloc (dictNextPower size) : Dictht K V).Wf T := hk ▸ Dictht.dictAlloc_wf h2 h30
  have hpos : (dictAlloc (dictNextPower size) : Dictht K V).size ≠ 0 := by
    simp only [dictAlloc, hk]
    exact (Nat.two_pow_pos k).ne'
  have hslots : d.ht0.slots.isNone = true ↔ d.ht0.size = 0 := hw.old.isNone_slots
  split
  · rename_i hnull
    have h0 : d.ht0.size = 0 := hslots.mp hnull
    have he : (dictAlloc (dictNextPower size)).entries ++ d.ht1.entries = d.entries := by
      rw [Dict.entries, Dictht.dictAlloc_entries, Dictht.entries_of_size h0]
    have hd := hw.distinct
    rw [← he] at hd
    exact ⟨⟨fun | .old => halloc | .new => hw.new, hw.idle, fun h => absurd hr h, fun _ _ => rfl, hd⟩,
      .of_eq he, fun _ => hpos⟩
  · rename_i hnull
    have h0 : d.ht0.size ≠ 0 := fun h0 => hnull (hslots.mpr h0)
    have he : d.ht0.entries ++ (dictAlloc (dictNextPower size)).entries = d.entries := by
      rw [Dict.entries, Dictht.dictAlloc_entries, hw.entries_new hr]
    have hd := hw.distinct
    rw [← he] at hd
    refine ⟨⟨fun | .old => hw.old | .new => halloc, nofun, fun _ => ⟨Int.le_refl 0, by simp, h0, hpos⟩, fun i hi => ?_, hd⟩,
      .of_eq he, id⟩
    simp only at hi
    omega

theorem dictExpand_ok (hw : d.Wf T) (hs : size ≤ 2 ^ 30) (hr : d.rehashidx = -1) (hu : d.ht0.used ≤ size) :
    (dictExpand d size).2 = true ∧ (dictExpand d size).1.ht0.size ≠ 0 := by
  obtain ⟨k, -, -, hk⟩ := dictNextPower_eq hs
  have hguard : ¬ (dictIsRehashing d || decide (d.ht0.used > size)) = true := by
    simp [dictIsRehashing, hr, hu]
  rw [dictExpand, if_neg hguard]
  split
  · refine ⟨rfl, ?_⟩
    simp only [dictAlloc, hk]
    exact (Nat.two_pow_pos k).ne'
  · rename_i hnull
    exact ⟨rfl, fun h0 => hnull (hw.old.isNone_slots.mpr h0)⟩

theorem dictResize_moved (hw : d.Wf T) (hs : canResize = true → dictIsRehashing d = false → d.ht0.used ≤ 2 ^ 30) :
    Moved T d (dictResize canResize d).1 := by
  rw [dictResize]
  split
  · exact .refl hw
  · rename_i hguard
    have hu : d.ht0.used ≤ 2 ^ 30 := by
      simp only [Bool.or_eq_true, Bool.not_eq_true', not_or, Bool.not_eq_true, Bool.not_eq_false] at hguard
      exact hs hguard.1 hguard.2
    refine dictExpand_moved hw ?_
    have hint : toInt32 d.ht0.used = d.ht0.used := by
      simp only [toInt32]
      omega
    simp only [hint]
    split_ifs <;> omega

/-- The call of `dictExpand` in an insertion asks for 2³⁰ buckets at most. -/
def AddSmall (T : DictType K) (canResize : Bool) (d : Dict K V) : Prop :=
  ∀ d' ∈ dictRehashStep T d, dictIsRehashing d' = false → dictIsFull canResize d' = true →
    d'.ht0.used * 2 ≤ 2 ^ 30

/-- There is a table afterwards, with the same entries. -/
theorem dictExpandIfNeeded_spec (hw : d.Wf T)
    (hs : dictIsRehashing d = false → dictIsFull canResize d = true → d.ht0.used * 2 ≤ 2 ^ 30) :
    Moved T d (dictExpandIfNeeded canResize d).1 ∧ (dictExpandIfNeeded canResize d).2 = true ∧
      (dictExpandIfNeeded canResize d).1.ht0.size ≠ 0 := by
  rw [dictExpandIfNeeded]
  split
  · rename_i hr
    exact ⟨.refl hw, rfl, (hw.range (dictIsRehashing_eq.mp hr)).2.2.1⟩
  rename_i hr
  have hidle := not_dictIsRehashing.mp hr
  split
  · rename_i h0
    have hu : d.ht0.used = 0 := by
      rw [hw.old.used]
      exact congrArg List.length (Dictht.entries_of_size h0)
    exact ⟨dictExpand_moved hw (by omega), dictExpand_ok hw (by omega) hidle (by omega)⟩
  split
  · rename_i hfull
    have hsize := hs (Bool.eq_false_iff.mpr hr) hfull
    exact ⟨dictExpand_moved hw hsize, dictExpand_ok hw hsize hidle (by omega)⟩
  · rename_i h0 _
    exact ⟨.refl hw, rfl, h0⟩

/-! ## Looking up a key -/

/-- The dictionary as a map. -/
def Dict.map (T : DictType K) (d : Dict K V) (k : K) : Option V := Assoc.lookup T.keyCompare k d.entries

/-- The first entry for a key in its bucket of a table. -/
def Dict.Finds (T : DictType K) (d : Dict K V) (key : K) (side : DictSide) (e : K × V) : Prop :=
  (d.ht side).size ≠ 0 ∧
    ((d.ht side).table (dictSlot T (d.ht side) key)).find? (fun e => T.keyCompare key e.1) = some e

/-- The other table. -/
def DictSide.flip : DictSide → DictSide
  | .old => .new
  | .new => .old

/-- The table that new entries go to. -/
def Dict.target (d : Dict K V) : DictSide := if dictIsRehashing d then .new else .old

theorem Dict.entries_side (d : Dict K V) (side : DictSide) :
    d.entries.Perm ((d.ht side).entries ++ (d.ht side.flip).entries) := by
  cases side
  · exact .refl _
  · exact List.perm_append_comm

theorem Dict.setHt_entries (d : Dict K V) (side : DictSide) (h : Dictht K V) :
    (d.setHt side h).entries.Perm (h.entries ++ (d.ht side.flip).entries) := by
  cases side
  · exact .refl _
  · exact List.perm_append_comm

namespace Dict.Wf

variable (hw : d.Wf T)
include hw

theorem map_empty (h0 : d.ht0.size = 0) (key : K) : d.map T key = none := by
  have hidle : d.rehashidx = -1 := by
    by_contra hr
    exact (hw.range hr).2.2.1 h0
  rw [Dict.map, Dict.entries, Dictht.entries_of_size h0, hw.entries_new hidle]
  rfl

/-- The two buckets a key can be found in. -/
theorem map_eq (hT : T.Lawful) (h0 : d.ht0.size ≠ 0) (key : K) :
    d.map T key = (Assoc.lookup T.keyCompare key (d.ht0.table (dictSlot T d.ht0 key))).or
      (if dictIsRehashing d then Assoc.lookup T.keyCompare key (d.ht1.table (dictSlot T d.ht1 key)) else none) := by
  have hd := List.pairwise_append.mp hw.distinct
  rw [Dict.map, Dict.entries, Assoc.lookup_append, hw.old.lookup_entries hT hd.1 h0]
  congr 1
  split
  · rename_i hr
    have h1 : d.ht1.size ≠ 0 := (hw.range (dictIsRehashing_eq.mp hr)).2.2.2
    exact hw.new.lookup_entries hT hd.2.1 h1 key
  · rename_i hr
    rw [hw.entries_new (not_dictIsRehashing.mp hr)]
    rfl

theorem target_size (h0 : d.ht0.size ≠ 0) : (d.ht d.target).size ≠ 0 := by
  rw [Dict.target]
  split
  · rename_i hr
    exact (hw.range (dictIsRehashing_eq.mp hr)).2.2.2
  · exact h0

theorem toInt32_slot (side : DictSide) (h : (d.ht side).size ≠ 0) (key : K) :
    toInt32 (dictSlot T (d.ht side) key) = dictSlot T (d.ht side) key := by
  have hlt := (hw.table side).slot_lt h key
  have hle := (hw.table side).size_le
  simp only [toInt32]
  omega

/-- **`_dictKeyIndex`** gives the slot, or -1 for a key that is there. -/
theorem keyIndex (hT : T.Lawful) (h0 : d.ht0.size ≠ 0) (key : K) :
    dictKeyIndex T d key =
      some (if (d.map T key).isSome then -1 else (dictSlot T (d.ht d.target) key : Int)) := by
  have hi0 : toInt32 (dictSlot T d.ht0 key) = dictSlot T d.ht0 key := hw.toInt32_slot .old h0 key
  rw [dictKeyIndex, hw.old.search h0 key, Option.bind_some, hw.map_eq hT h0]
  simp only [Assoc.lookup, Dict.target]
  rcases Option.eq_none_or_eq_some ((d.ht0.table (dictSlot T d.ht0 key)).find? fun e => T.keyCompare key e.1)
    with hf | ⟨e, hf⟩
  · cases hr : dictIsRehashing d with
    | false => simp [hf, Dict.ht, hi0]
    | true =>
      have h1 : d.ht1.size ≠ 0 := (hw.range (dictIsRehashing_eq.mp hr)).2.2.2
      have hi1 : toInt32 (dictSlot T d.ht1 key) = dictSlot T d.ht1 key := hw.toInt32_slot .new h1 key
      rw [hw.new.search h1 key]
      rcases Option.eq_none_or_eq_some
        ((d.ht1.table (dictSlot T d.ht1 key)).find? fun e => T.keyCompare key e.1) with hg | ⟨e, hg⟩ <;>
        simp [hf, hg, Dict.ht, hi1]
  · simp [hf]

/-- The search of `dictFind` and `dictDelete` finds the entry of a key, and the bucket it stands in. -/
theorem locate (hT : T.Lawful) (h0 : d.ht0.size ≠ 0) (key : K) :
    ∃ o, dictLocate T d key = some o ∧ o.map (fun r => r.2.2) = d.map T key ∧
      ∀ side e, o = some (side, e) → d.Finds T key side e := by
  rw [dictLocate, hw.old.search h0 key, Option.bind_some, hw.map_eq hT h0]
  simp only [Assoc.lookup]
  cases hf : (d.ht0.table (dictSlot T d.ht0 key)).find? (fun e => T.keyCompare key e.1) with
  | some e =>
    refine ⟨_, rfl, rfl, fun side a h => ?_⟩
    cases h
    exact ⟨h0, hf⟩
  | none =>
    cases hr : dictIsRehashing d with
    | false => exact ⟨none, rfl, rfl, fun side a h => by cases h⟩
    | true =>
      have h1 : d.ht1.size ≠ 0 := (hw.range (dictIsRehashing_eq.mp hr)).2.2.2
      rw [hw.new.search h1 key]
      refine ⟨_, rfl, ?_, fun side a h => ?_⟩
      · simp [Function.comp_def]
      · obtain ⟨b, hb, hab⟩ := Option.map_eq_some_iff.mp h
        cases hab
        exact ⟨h1, hb⟩

/-- One of the tables changed, with as many buckets as before. -/
theorem setHt {side : DictSide} {h : Dictht K V} (hh : h.Wf T) (hs : h.size = (d.ht side).size)
    (hm : side = .old → ∀ i : Nat, (i : Int) < d.rehashidx → h.table i = [])
    (hd : Assoc.Distinct T.keyCompare (d.setHt side h).entries) : (d.setHt side h).Wf T := by
  cases side with
  | old =>
    refine ⟨fun | .old => hh | .new => hw.new, hw.idle, fun hr => ?_, hm rfl, hd⟩
    obtain ⟨h1, h2, h3, h4⟩ := hw.range hr
    simp only [Dict.setHt, Dict.ht] at hs ⊢
    exact ⟨h1, hs ▸ h2, hs ▸ h3, h4⟩
  | new =>
    refine ⟨fun | .old => hw.old | .new => hh, fun hr => hs.trans (hw.idle hr), fun hr => ?_, hw.moved, hd⟩
    obtain ⟨h1, h2, h3, h4⟩ := hw.range hr
    simp only [Dict.setHt, Dict.ht] at hs ⊢
    exact ⟨h1, h2, h3, hs ▸ h4⟩

end Dict.Wf

/-! ## Operations -/

/-- Where the entries lie does not matter to the map. -/
theorem Moved.map_eq {d' : Dict K V} (hm : Moved T d d') (hT : T.Lawful) (hw : d.Wf T) : d'.map T = d.map T :=
  funext fun key => (Assoc.lookup_perm hT.keyEq key hw.distinct hm.perm.symm).symm

section

variable (hT : T.Lawful) (hw : d.Wf T)

include hT hw

/-- An insertion: nothing changes for a key that is there, and a new one goes to the head of its bucket. -/
theorem dictAdd_run (hs : AddSmall T canResize d) (key : K) (val : V) :
    ∃ d₁ d₂, dictRehashStep T d = some d₁ ∧ d₂ = (dictExpandIfNeeded canResize d₁).1 ∧ Moved T d d₂ ∧ d₂.ht0.size ≠ 0 ∧
      dictAdd T canResize d key val =
        if (d.map T key).isSome then some (d₂, false)
        else ((d₂.ht d₂.target).push (dictSlot T (d₂.ht d₂.target) key) (key, val)).map fun h =>
          (d₂.setHt d₂.target h, true) := by
  obtain ⟨d₁, hstep, hm₁⟩ := dictRehashStep_moved hT hw
  obtain ⟨hm₂, hok, h0⟩ := dictExpandIfNeeded_spec hm₁.wf (hs d₁ hstep)
  refine ⟨d₁, _, hstep, rfl, hm₁.trans hm₂, h0, ?_⟩
  have hm := hm₁.trans hm₂
  set d₂ := (dictExpandIfNeeded canResize d₁).1
  have hrun : dictAdd T canResize d key val = (dictKeyIndex T d₂ key).bind fun index =>
      if index = -1 then some (d₂, false)
      else if index < 0 then none
      else ((d₂.ht d₂.target).push index.toNat (key, val)).map fun h => (d₂.setHt d₂.target h, true) := by
    rw [dictAdd, hstep, Option.bind_some]
    simp only [hok]
    rfl
  rw [hrun, hm₂.wf.keyIndex hT h0 key, Option.bind_some, hm.map_eq hT hw]
  cases hk : d.map T key with
  | some v => rfl
  | none =>
    have hneg : ¬ ((dictSlot T (d₂.ht d₂.target) key : Int) = -1) := by omega
    have hpos : ¬ ((dictSlot T (d₂.ht d₂.target) key : Int) < 0) := by omega
    simp only [Option.isSome_none, Bool.false_eq_true, if_false, if_neg hneg, if_neg hpos, Int.toNat_natCast]

/-- **`dictAdd`** adds an entry exactly if the key is new. -/
theorem dictAdd_spec (hs : AddSmall T canResize d) (key : K) (val : V) :
    ∃ d' ok, dictAdd T canResize d key val = some (d', ok) ∧ d'.Wf T ∧ ok = (d.map T key).isNone ∧
      d'.ht0.size ≠ 0 ∧ d'.entries.Perm (if ok then (key, val) :: d.entries else d.entries) := by
  obtain ⟨d₁, d₂, -, -, hm, h0, hrun⟩ := dictAdd_run hT hw hs key val
  rw [hrun]
  cases hk : d.map T key with
  | some v => exact ⟨d₂, false, rfl, hm.wf, rfl, h0, hm.perm⟩
  | none =>
    have ht := hm.wf.target_size h0
    obtain ⟨h, hpush, hwh, hsz, hp⟩ := (hm.wf.table d₂.target).push ht (key, val)
    have hperm : (d₂.setHt d₂.target h).entries.Perm ((key, val) :: d.entries) := by
      refine (d₂.setHt_entries d₂.target h).trans ((hp.append_right _).trans ?_)
      exact ((d₂.entries_side d₂.target).symm.trans hm.perm).cons (key, val)
    have hdist : Assoc.Distinct T.keyCompare (d₂.setHt d₂.target h).entries :=
      (hw.distinct.cons hk).perm hT.keyEq hperm.symm
    refine ⟨d₂.setHt d₂.target h, true, ?_, hm.wf.setHt hwh hsz ?_ hdist, rfl, ?_, hperm⟩
    · rw [hpush]
      rfl
    · intro hold i hi
      -- the first table is the target only while nothing is being moved
      have hr : d₂.rehashidx = -1 := not_dictIsRehashing.mp fun hr => by
        rw [Dict.target, if_pos hr] at hold
        cases hold
      omega
    · cases hside : d₂.target with
      | old =>
        rw [hside] at hsz ht
        exact hsz ▸ ht
      | new => exact h0

/-- **`dictFind`** finds what the map holds. -/
theorem dictFind_spec (key : K) :
    ∃ d' o, dictFind T d key = some (d', o) ∧ Moved T d d' ∧ o.map (fun r => r.2.2) = d.map T key ∧
      ∀ side e, o = some (side, e) → d'.Finds T key side e := by
  rw [dictFind]
  split
  · rename_i h0
    refine ⟨d, none, rfl, .refl hw, (hw.map_empty h0 key).symm, fun side e h => by cases h⟩
  · rename_i h0
    obtain ⟨d₁, hstep, hm⟩ := dictRehashStep_moved hT hw
    obtain ⟨o, hloc, hval, hat⟩ := hm.wf.locate hT (hm.kept h0) key
    refine ⟨d₁, o, by rw [hstep, Option.bind_some, hloc]; rfl, hm, ?_, hat⟩
    rw [hval, hm.map_eq hT hw]

/-- The bucket in which the entry of `key` was found gets `new` in place of that entry. -/
theorem Dict.Wf.replaceEntry {side : DictSide} {key : K} {e : K × V}
    (hfinds : d.Finds T key side e)
    (b new : List (K × V)) (u : Nat) (hb : ∀ a ∈ b, dictSlot T (d.ht side) a.1 = dictSlot T (d.ht side) key)
    (hnew : b.Perm (new ++
      ((d.ht side).table (dictSlot T (d.ht side) key)).eraseP fun e => T.keyCompare key e.1))
    (hu : u + 1 = (d.ht side).used + new.length)
    (hdist : ∀ r, Assoc.Distinct T.keyCompare (e :: r) → Assoc.Distinct T.keyCompare (new ++ r)) :
    ∃ d' r, d' = d.setHt side { (d.ht side).setBucket (dictSlot T (d.ht side) key) b with used := u } ∧
      d'.Wf T ∧ d.entries.Perm (e :: r) ∧ d'.entries.Perm (new ++ r) := by
  obtain ⟨hs, hf⟩ := hfinds
  set h := d.ht side
  set i := dictSlot T h key
  set l := (h.table i).eraseP fun e => T.keyCompare key e.1
  have hi : i < h.size := (hw.table side).slot_lt hs key
  have hold : (h.table i).Perm (e :: l) := Assoc.perm_eraseP hf
  have hd : d.entries.Perm (e :: (l ++ h.rest i ++ (d.ht side.flip).entries)) := by
    refine (d.entries_side side).trans (((Dictht.entries_perm hi).append_right _).trans ?_)
    exact ((hold.append_right _).append_right _)
  have hd' : ∀ u, (d.setHt side { h.setBucket i b with used := u }).entries.Perm
      (new ++ (l ++ h.rest i ++ (d.ht side.flip).entries)) := by
    intro u
    refine (d.setHt_entries side _).trans (((Dictht.setBucket_entries hi b).append_right _).trans ?_)
    simpa using (hnew.append_right (h.rest i)).append_right (d.ht side.flip).entries
  refine ⟨_, _, rfl, hw.setHt ((hw.table side).setBucket hi hb ?_) rfl ?_ ?_, hd, hd' u⟩
  · have hlen : h.used = (h.table i ++ h.rest i).length := (hw.table side).used_eq hi
    have h1 := hold.length_eq
    have h2 := hnew.length_eq
    change u = (b ++ h.rest i).length
    simp only [List.length_append, List.length_cons] at hlen h1 h2 ⊢
    omega
  · rintro rfl j hj
    by_cases hji : j = i
    · -- the bucket is not one of those already moved, it holds `e`
      have hempty : h.table i = [] := hji ▸ hw.moved j hj
      rw [hempty] at hold
      exact absurd hold.symm (List.not_perm_cons_nil)
    · simp only [Dictht.setBucket, Function.update_of_ne hji]
      exact hw.moved j hj
  · exact (hdist _ (hw.distinct.perm hT.keyEq hd)).perm hT.keyEq (hd' u).symm

/-- **`dictDelete`** takes out one entry with the key. -/
theorem dictDelete_spec (key : K) :
    ∃ d' ok, dictDelete T d key = some (d', ok) ∧ d'.Wf T ∧ ok = (d.map T key).isSome ∧
      if ok then ∃ e, T.keyCompare key e.1 = true ∧ d.entries.Perm (e :: d'.entries)
      else d'.entries.Perm d.entries := by
  rw [dictDelete]
  split
  · rename_i h0
    refine ⟨d, false, rfl, hw, ?_, .refl _⟩
    rw [hw.map_empty h0]
    rfl
  rename_i h0
  obtain ⟨d₁, hstep, hm⟩ := dictRehashStep_moved hT hw
  obtain ⟨o, hloc, hval, hat⟩ := hm.wf.locate hT (hm.kept h0) key
  rw [hm.map_eq hT hw] at hval
  rw [hstep, Option.bind_some, hloc, ← hval]
  cases o with
  | none => exact ⟨d₁, false, rfl, hm.wf, rfl, hm.perm⟩
  | some r =>
    obtain ⟨side, e⟩ := r
    obtain ⟨hs, hf⟩ := hat side e rfl
    have hused : (d₁.ht side).used ≠ 0 := by
      rw [(hm.wf.table side).used_eq ((hm.wf.table side).slot_lt hs key), List.length_append]
      have := List.length_pos_of_mem (List.mem_of_find?_eq_some hf)
      omega
    obtain ⟨d', r, rfl, hw', hp, hp'⟩ := hm.wf.replaceEntry hT ⟨hs, hf⟩ _ [] ((d₁.ht side).used - 1)
      (fun a ha => ((hm.wf.table side).placed _ a (List.mem_of_mem_eraseP ha)).2) (.refl _)
      (by simp only [List.length_nil]; omega) (fun r hd => (List.pairwise_cons.mp hd).2)
    refine ⟨_, true, rfl, hw', rfl, e, Assoc.eq_of_find? hf, ?_⟩
    exact hm.perm.symm.trans (hp.trans (hp'.symm.cons e))

/-- **`dictReplace`** adds an entry or gives the old one the value. -/
theorem dictReplace_spec (hs : AddSmall T canResize d) (key : K) (val : V) :
    ∃ d' ok, dictReplace T canResize d key val = some (d', ok) ∧ d'.Wf T ∧ ok = (d.map T key).isNone ∧
      if ok then d'.entries.Perm ((key, val) :: d.entries)
      else ∃ e r, T.keyCompare key e.1 = true ∧ d.entries.Perm (e :: r) ∧ d'.entries.Perm ((e.1, val) :: r) := by
  obtain ⟨d₁, ok, hadd, hw₁, hok, h0, hp₁⟩ := dictAdd_spec hT hw hs key val
  rw [dictReplace, hadd, Option.bind_some]
  cases ok with
  | true => exact ⟨d₁, true, rfl, hw₁, hok, hp₁⟩
  | false =>
    have hmap : d₁.map T = d.map T := (Moved.mk hw₁ hp₁ fun _ => h0).map_eq hT hw
    obtain ⟨d₂, o, hfind, hm₂, hval, hat⟩ := dictFind_spec hT hw₁ key
    simp only [Bool.false_eq_true, if_false]
    rw [hfind, Option.bind_some]
    cases o with
    | none =>
      -- the failed `dictAdd` says that the key is there
      rw [hmap] at hval
      rw [← hval] at hok
      cases hok
    | some r =>
      obtain ⟨side, e⟩ := r
      obtain ⟨hs', hf⟩ := hat side e rfl
      obtain ⟨d', r, hd', hw', hp, hp'⟩ := hm₂.wf.replaceEntry hT ⟨hs', hf⟩
        (Assoc.setFirst (T.keyCompare key) val _) [(e.1, val)] (d₂.ht side).used
        (fun a ha => by
          obtain ⟨c, hc, hca⟩ := Assoc.mem_setFirst ha
          rw [← hca]
          exact ((hm₂.wf.table side).placed _ c hc).2)
        (Assoc.perm_setFirst hf) rfl
        (fun r hd => List.pairwise_cons.mpr (List.pairwise_cons.mp hd))
      refine ⟨d', false, ?_, hw', hok, e, r, Assoc.eq_of_find? hf, ?_, hp'⟩
      · rw [hd']
        rfl
      · exact (hp₁.symm.trans hm₂.perm.symm).trans hp

end

theorem dictClearLoop_ok {h : Dictht K V} (hw : h.Wf T) :
    ∀ {fuel i used : Nat}, i + fuel = h.size → dictClearLoop h fuel i used = some () := by
  intro fuel
  induction fuel with
  | zero => exact fun _ => rfl
  | succ fuel ih =>
    intro i used hsum
    rw [dictClearLoop]
    split
    · rfl
    · rw [hw.bucket_eq (by omega)]
      exact ih (by omega)

/-- **`dictEmpty`** leaves a new dictionary. -/
theorem dictEmpty_eq (hw : d.Wf T) : dictEmpty d = some dictCreate := by
  have hclear : ∀ {h : Dictht K V}, h.Wf T → dictClear h = some dictReset := by
    intro h hh
    rw [dictClear, dictClearLoop_ok hh (Nat.zero_add _)]
    rfl
  rw [dictEmpty, hclear hw.old, hclear hw.new]
  rfl

/-! ## Runs -/

/-- The calls that leave every table with 2³⁰ buckets at most. -/
def DictOp.Small (T : DictType K) (d : Dict K V) : DictOp K V → Prop
  | .add canResize _ _ | .replace canResize _ _ => AddSmall T canResize d
  | .expand size => size ≤ 2 ^ 30
  | .resize canResize => canResize = true → dictIsRehashing d = false → d.ht0.used ≤ 2 ^ 30
  | _ => True

instance DictOp.decSmall (T : DictType K) (d : Dict K V) : (op : DictOp K V) → Decidable (op.Small T d)
  | .add _ _ _ | .replace _ _ _ => inferInstanceAs (Decidable (∀ d' ∈ dictRehashStep T d, _))
  | .expand _ => inferInstanceAs (Decidable (_ ≤ _))
  | .resize _ => inferInstanceAs (Decidable (_ → _))
  | .find _ | .delete _ | .rehash _ | .empty | .iterOpen | .iterClose => instDecidableTrue

/-- What a call does to the map. -/
def DictOp.mapStep (T : DictType K) (m : K → Option V) : DictOp K V → K → Option V
  | .add _ key val => if (m key).isSome then m else Assoc.store T.keyCompare key (some val) m
  | .replace _ key val => Assoc.store T.keyCompare key (some val) m
  | .delete key => Assoc.store T.keyCompare key none m
  | .empty => fun _ => none
  | _ => m

/-- What a call returns, in terms of the map. -/
def DictOp.Answers (m : K → Option V) : DictOp K V → DictRes V → Prop
  | .add _ key _, r => r = .status (m key).isNone
  | .replace _ key _, r => r = .status (m key).isNone
  | .find key, r => r = .value (m key)
  | .delete key, r => r = .status (m key).isSome
  | _, _ => True

theorem Dict.map_of_perm_cons {d' : Dict K V} (hT : T.Lawful) (hw' : d'.Wf T) {key k₀ : K} {val : V} {r : List (K × V)}
    (hk : T.keyCompare key k₀ = true) (hp : d'.entries.Perm ((k₀, val) :: r)) :
    d'.map T = Assoc.store T.keyCompare key (some val) fun k => Assoc.lookup T.keyCompare k r := by
  funext k
  rw [Dict.map, Assoc.lookup_perm hT.keyEq k hw'.distinct hp]
  exact Assoc.lookup_store hT.keyEq hk val r k

/-- **One call.** It has a result, the result is what the map says, and it keeps the tables well formed. -/
theorem DictOp.run_spec (hT : T.Lawful) (hw : d.Wf T) (op : DictOp K V) (hs : op.Small T d) :
    ∃ d' r, op.run T d = some (d', r) ∧ d'.Wf T ∧ op.Answers (d.map T) r ∧ d'.map T = op.mapStep T (d.map T) := by
  cases op with
  | add canResize key val =>
    obtain ⟨d', ok, hrun, hw', rfl, -, hp⟩ := dictAdd_spec hT hw hs key val
    refine ⟨d', _, by rw [DictOp.run, hrun]; rfl, hw', rfl, ?_⟩
    rw [DictOp.mapStep]
    cases hk : d.map T key with
    | some v =>
      rw [hk] at hp
      exact funext fun k => Assoc.lookup_perm hT.keyEq k hw'.distinct hp
    | none =>
      rw [hk] at hp
      exact Dict.map_of_perm_cons hT hw' (hT.keyEq.refl key) hp
  | replace canResize key val =>
    obtain ⟨d', ok, hrun, hw', hok, hp⟩ := dictReplace_spec hT hw hs key val
    refine ⟨d', _, by rw [DictOp.run, hrun]; rfl, hw', by rw [hok]; rfl, ?_⟩
    rw [DictOp.mapStep]
    cases ok with
    | true => exact Dict.map_of_perm_cons hT hw' (hT.keyEq.refl key) hp
    | false =>
      obtain ⟨e, r, hk, hp, hp'⟩ := hp
      rw [Dict.map_of_perm_cons hT hw' hk hp']
      funext k
      simp only [Assoc.store]
      split
      · rfl
      · rename_i hne
        rw [Dict.map, Assoc.lookup_perm hT.keyEq k hw.distinct hp, Assoc.lookup_cons,
          ← hT.keyEq.congr_right hk k, hT.keyEq.comm k key, if_neg hne]
  | find key =>
    obtain ⟨d', o, hrun, hm, hval, -⟩ := dictFind_spec hT hw key
    exact ⟨d', _, by rw [DictOp.run, hrun]; rfl, hm.wf, congrArg DictRes.value hval, hm.map_eq hT hw⟩
  | delete key =>
    obtain ⟨d', ok, hrun, hw', hok, hp⟩ := dictDelete_spec hT hw key
    refine ⟨d', _, by rw [DictOp.run, hrun]; rfl, hw', by rw [hok]; rfl, ?_⟩
    rw [DictOp.mapStep]
    cases ok with
    | true =>
      obtain ⟨e, hk, hp⟩ := hp
      exact funext fun k => Assoc.lookup_remove hT.keyEq hw.distinct hp hk k
    | false =>
      have hnone : d.map T key = none := by
        cases h : d.map T key with
        | none => rfl
        | some v => simp [h] at hok
      have hmap : d'.map T = d.map T := funext fun k => Assoc.lookup_perm hT.keyEq k hw'.distinct hp
      rw [hmap]
      funext k
      rw [Assoc.store]
      split
      · rename_i hk
        rw [← hnone]
        exact (Assoc.lookup_congr hT.keyEq hk d.entries).symm
      · rfl
  | expand size =>
    have hm := dictExpand_moved hw hs
    exact ⟨_, _, rfl, hm.wf, trivial, hm.map_eq hT hw⟩
  | resize canResize =>
    have hm := dictResize_moved hw hs
    exact ⟨_, _, rfl, hm.wf, trivial, hm.map_eq hT hw⟩
  | rehash n =>
    obtain ⟨d', b, hrun, hm⟩ := dictRehash_moved hT hw n
    exact ⟨d', _, by rw [DictOp.run, hrun]; rfl, hm.wf, trivial, hm.map_eq hT hw⟩
  | empty => exact ⟨dictCreate, .unit, by rw [DictOp.run, dictEmpty_eq hw]; rfl, dictCreate_wf, trivial, rfl⟩
  | iterOpen => exact ⟨_, _, rfl, ⟨hw.table, hw.idle, hw.range, hw.moved, hw.distinct⟩, trivial, rfl⟩
  | iterClose => exact ⟨_, _, rfl, ⟨hw.table, hw.idle, hw.range, hw.moved, hw.distinct⟩, trivial, rfl⟩

/-- A call on the dictionary and the same call on the map. -/
def dictStep (T : DictType K) (s : Dict K V × (K → Option V)) (op : DictOp K V) : Option (Dict K V × (K → Option V)) :=
  (op.run T s.1).map fun r => (r.1, op.mapStep T s.2)

/-- Runs of a fresh dictionary, next to the map that the calls describe. -/
abbrev DictRun (T : DictType K) (d : Dict K V) (m : K → Option V) : Prop :=
  RunBy (dictStep T) (fun s op => op.Small T s.1) (dictCreate, fun _ => none) (d, m)

/-- **Along every run** the dictionary is well formed and holds the map. -/
theorem DictRun.inv (hT : T.Lawful) {m : K → Option V} (hr : DictRun T d m) : d.Wf T ∧ d.map T = m := by
  refine hr.invariant (P := fun s => s.1.Wf T ∧ s.1.map T = s.2) ?_ ⟨dictCreate_wf, rfl⟩
  rintro ⟨d, m⟩ op s' hs hstep ⟨hw, hm⟩
  obtain rfl : d.map T = m := hm
  obtain ⟨d', r, hrun, hw', -, hmap⟩ := op.run_spec hT hw hs
  rw [dictStep, hrun] at hstep
  cases hstep
  exact ⟨hw', hmap⟩

/-- **The hash table is a finite map.** In every run whose calls leave the tables at 2³⁰ buckets or less, every
    further such call has the result the map gives; `dictSize` counts the keys of the map; and the tables
    keep their shape: sizes, buckets, counters, no key twice, moved buckets empty. -/
theorem dict_finite_map (T : DictType K) (hT : T.Lawful) (d : Dict K V) (m : K → Option V) (hr : DictRun T d m) :
    (∀ op : DictOp K V, op.Small T d → ∃ d' r, op.run T d = some (d', r) ∧ op.Answers m r) ∧
      (∃ keys : List K, keys.Pairwise (fun a b => T.keyCompare a b = false) ∧
        (∀ k, (m k).isSome = true ↔ ∃ k' ∈ keys, T.keyCompare k k' = true) ∧ dictSize d = keys.length) ∧
      d.Wf T := by
  obtain ⟨hw, rfl⟩ := hr.inv hT
  refine ⟨fun op hs => ?_, ⟨d.entries.map Prod.fst, ?_, fun k => ?_, ?_⟩, hw⟩
  · obtain ⟨d', r, hrun, -, hans, -⟩ := op.run_spec hT hw hs
    exact ⟨d', r, hrun, hans⟩
  · exact List.pairwise_map.mpr hw.distinct
  · rw [Dict.map, Assoc.lookup_isSome]
    simp
  · rw [dictSize, hw.old.used, hw.new.used, Dict.entries]
    simp

end

/-- Keys that are their own hash. -/
def wordKeys : DictType UInt32 := ⟨id, (· == ·)⟩

theorem wordKeys_lawful : wordKeys.Lawful where
  keyEq := keyEq_beq
  hash_eq := by
    intro a b h
    simpa [wordKeys] using h

/-- Five insertions, of which the last makes the table grow, then a safe iterator, and two calls while it is open. -/
def growingWords : List (DictOp UInt32 Nat) :=
  [.add true 0 10, .add true 1 11, .add true 2 12, .add true 3 13, .add true 4 14, .iterOpen, .replace true 2 22,
    .delete 3]

/-- Rehashing is in progress and blocked by the iterator, and both tables have entries: a key of the old table is
    found with its last value, and a key of the new one is not added again. -/
theorem dict_finite_map_growing : ∃ d m, DictRun wordKeys d m ∧ dictIsRehashing d = true ∧ d.iterators = 1 ∧
    d.ht0.used = 3 ∧ d.ht1.used = 1 ∧ d.Wf wordKeys ∧
    (∃ d', (DictOp.find 2).run wordKeys d = some (d', .value (some 22))) ∧
    ∃ d', (DictOp.add true 4 0).run wordKeys d = some (d', .status false) := by
  obtain ⟨⟨d, m⟩, hrun, hvalues⟩ := run_of_exec (dictStep wordKeys) (fun s op => op.Small wordKeys s.1)
    (dictCreate, fun _ => none) growingWords
    (fun s => decide (s.1.rehashidx = 0 ∧ s.1.iterators = 1 ∧ s.1.ht0.used = 3 ∧ s.1.ht1.used = 1 ∧
      s.2 2 = some 22 ∧ s.2 4 = some 14 ∧ (DictOp.add true 4 0).Small wordKeys s.1)) true (by decide +kernel)
  obtain ⟨hidx, hopen, hold, hnew, htwo, hfour, hsmall⟩ := of_decide_eq_true hvalues
  dsimp only at hidx htwo hfour
  obtain ⟨hcalls, -, hw⟩ := dict_finite_map wordKeys wordKeys_lawful d m hrun
  obtain ⟨d₁, r₁, hrun₁, hans₁⟩ := hcalls (.find 2) trivial
  obtain ⟨d₂, r₂, hrun₂, hans₂⟩ := hcalls (.add true 4 0) hsmall
  rw [DictOp.Answers, htwo] at hans₁
  rw [DictOp.Answers, hfour] at hans₂
  refine ⟨d, m, hrun, ?_, hopen, hold, hnew, hw, ⟨d₁, hans₁ ▸ hrun₁⟩, d₂, hans₂ ▸ hrun₂⟩
  rw [dictIsRehashing, hidx]
  rfl

/-- `dictExpand` to 2⁶² buckets, which is below `LONG_MAX`: the byte count of the table wraps to 0, the call
    succeeds, and the next insertion has no bucket to write to. -/
theorem dict_expand_wraps :
    (2 ^ 62 < longMax) ∧
    ((DictOp.expand (2 ^ 62)).run wordKeys (dictCreate : Dict UInt32 Nat)).map
      (fun r => (r.1.ht0.size, r.1.ht0.slots, (DictOp.add true 7 1).run wordKeys r.1 |>.isSome)) =
      some (2 ^ 62, some 0, false) := by
  refine ⟨by decide, ?_⟩
  decide

end Prez
