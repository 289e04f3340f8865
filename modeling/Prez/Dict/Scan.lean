import Prez.Dict.Map
import Prez.Lib.BitReverse

/-!
# `Prez.Dict.Scan` — what a `dictScan` iteration visits

`dictScan` returns a cursor that is incremented in bit-reversed order, so that a bucket visited in one
table covers the buckets it splits into, or is merged from, in a table of another size. An entry comes
before the cursor when its hash does so in that order (`revKey`); the iteration visits every such entry,
as long as each call continues where the last one stopped.

While two tables are in use, one call visits the buckets of the larger table that belong to the cursor, by
counting *upwards* in the bits that only the larger mask covers. A cursor moves through these bits in reversed
order, so from a cursor in the middle the buckets with a smaller number are missed, visited before or not.
They are all behind the cursor exactly when its bits there read `0…01…1` (`CursorOk`).
-/

namespace Prez

open Lib

variable {K V : Type}

/-! ## The functions -/

/-- The loop of `rev`: `s` halves, `mask` selects the lower one of each two neighbouring blocks of `s` bits. -/
def revLoop : Nat → Nat → BitVec 64 → BitVec 64 → BitVec 64
  | 0, _, _, v => v
  | fuel + 1, s, mask, v =>
    let s := s / 2
    if s = 0 then v
    else
      let mask := mask ^^^ (mask <<< s)
      revLoop fuel s mask (swapBlocks s mask v)

/-- `rev(v)`; `s` starts at the bit size. -/
def rev (v : BitVec 64) : BitVec 64 := revLoop 7 64 (BitVec.allOnes 64) v

/-- The `do` loop of `dictScan` over the larger table: the entries visited and the cursor after it. -/
def scanLoop (t1 : Dictht K V) (m0 m1 : BitVec 64) : Nat → BitVec 64 → Option (List (K × V) × BitVec 64)
  | 0, _ => none
  | fuel + 1, v =>
    (t1.bucket (v &&& m1).toNat).bind fun b =>
    let v := stepAbove m0 v
    if v &&& (m0 ^^^ m1) ≠ 0 then (scanLoop t1 m0 m1 fuel v).map fun r => (b ++ r.1, r.2) else some (b, v)

/-- The end of `dictScan`: set the bits outside the mask and increment the reversed cursor. -/
def scanNext (m0 v : BitVec 64) : BitVec 64 := rev (rev (v ||| ~~~ m0) + 1)

/-- The buckets of two tables, `t0` not larger than `t1`. -/
def scanPair (t0 t1 : Dictht K V) (v : BitVec 64) : Option (List (K × V) × BitVec 64) :=
  let m0 := BitVec.ofNat 64 t0.sizemask
  let m1 := BitVec.ofNat 64 t1.sizemask
  (t0.bucket (v &&& m0).toNat).bind fun b =>
  (scanLoop t1 m0 m1 t1.size v).map fun r => (b ++ r.1, scanNext m0 r.2)

/-- `dictScan(d, v, fn)`: the entries passed to `fn` and the cursor returned. -/
def dictScan (d : Dict K V) (v : BitVec 64) : Option (List (K × V) × BitVec 64) :=
  if dictSize d = 0 then some ([], 0)
  else if !dictIsRehashing d then
    let m0 := BitVec.ofNat 64 d.ht0.sizemask
    (d.ht0.bucket (v &&& m0).toNat).map fun b => (b, scanNext m0 v)
  else if d.ht0.size > d.ht1.size then scanPair d.ht1 d.ht0 v
  else scanPair d.ht0 d.ht1 v

/-! ## `rev` reverses the bits -/

/-- **`rev` reverses the bits.** -/
theorem rev_eq (v : BitVec 64) : rev v = v.reverse := by
  have hloop : rev v = swapBlocks 1 0x5555555555555555 (swapBlocks 2 0x3333333333333333
      (swapBlocks 4 0x0f0f0f0f0f0f0f0f (swapBlocks 8 0x00ff00ff00ff00ff
        (swapBlocks 16 0x0000ffff0000ffff (swapBlocks 32 0x00000000ffffffff v))))) := rfl
  have hmasks : ∀ i < 64,
      (0x5555555555555555 : BitVec 64).getLsbD i = decide (i / 1 % 2 = 0) ∧
      (0x3333333333333333 : BitVec 64).getLsbD i = decide (i / 2 % 2 = 0) ∧
      (0x0f0f0f0f0f0f0f0f : BitVec 64).getLsbD i = decide (i / 4 % 2 = 0) ∧
      (0x00ff00ff00ff00ff : BitVec 64).getLsbD i = decide (i / 8 % 2 = 0) ∧
      (0x0000ffff0000ffff : BitVec 64).getLsbD i = decide (i / 16 % 2 = 0) ∧
      (0x00000000ffffffff : BitVec 64).getLsbD i = decide (i / 32 % 2 = 0) := by decide
  have hlt : ∀ s ∈ [1, 2, 4, 8, 16, 32], ∀ i < 64, swapIndex s i < 64 := by decide
  have hall : ∀ i < 64, swapIndex 32 (swapIndex 16 (swapIndex 8 (swapIndex 4 (swapIndex 2 (swapIndex 1 i))))) = 63 - i := by
    decide
  refine BitVec.eq_of_getLsbD_eq fun i hi => ?_
  have h1 := hlt 1 (by simp) i hi
  have h2 := hlt 2 (by simp) _ h1
  have h4 := hlt 4 (by simp) _ h2
  have h8 := hlt 8 (by simp) _ h4
  have h16 := hlt 16 (by simp) _ h8
  rw [hloop, getLsbD_swapBlocks (fun i hi => (hmasks i hi).1) _ hi,
    getLsbD_swapBlocks (fun i hi => (hmasks i hi).2.1) _ h1,
    getLsbD_swapBlocks (fun i hi => (hmasks i hi).2.2.1) _ h2,
    getLsbD_swapBlocks (fun i hi => (hmasks i hi).2.2.2.1) _ h4,
    getLsbD_swapBlocks (fun i hi => (hmasks i hi).2.2.2.2.1) _ h8,
    getLsbD_swapBlocks (fun i hi => (hmasks i hi).2.2.2.2.2) _ h16, hall i hi,
    BitVec.getLsbD_reverse, BitVec.getMsbD_eq_getLsbD, decide_eq_true hi, Bool.true_and]

/-- The next cursor is the next one in reversed order. -/
theorem revKey_scanNext (m v : BitVec 64) : revKey (scanNext m v) = (revKey (v ||| ~~~ m) + 1) % 2 ^ 64 := by
  rw [scanNext, rev_eq, rev_eq, revKey_reverse_succ]

/-! ## One call -/

/-- The hash of a key as `dictScan` compares it with the cursor. -/
def hashWord (T : DictType K) (key : K) : BitVec 64 := BitVec.ofNat 64 (T.hashFunction key).toNat

theorem hashWord_toNat (T : DictType K) (key : K) : (hashWord T key).toNat = (T.hashFunction key).toNat := by
  have := (T.hashFunction key).toNat_lt
  rw [hashWord, BitVec.toNat_ofNat, Nat.mod_eq_of_lt (by omega)]

section

variable {T : DictType K} {t0 t1 : Dictht K V} {a b : Nat}

theorem Dictht.Wf.slot_eq (hw : t0.Wf T) (hs : t0.size = 2 ^ a) (key : K) :
    dictSlot T t0 key = (hashWord T key).toNat % 2 ^ a := by
  rw [dictSlot, hw.mask, hs, Nat.and_two_pow_sub_one_eq_mod, hashWord_toNat]

theorem Dictht.Wf.mask_eq (hw : t0.Wf T) (hs : t0.size = 2 ^ a) : BitVec.ofNat 64 t0.sizemask = lowMask 64 a := by
  rw [hw.mask, hs, lowMask]

/-- A bucket number of the larger table: the bucket of the smaller one and the bits above it. -/
theorem mod_split (hab : a ≤ b) (n : Nat) : n % 2 ^ b = 2 ^ a * (n / 2 ^ a % 2 ^ (b - a)) + n % 2 ^ a := by
  have hpow : 2 ^ b = 2 ^ a * 2 ^ (b - a) := by rw [← Nat.pow_add, Nat.add_sub_cancel' hab]
  rw [hpow, Nat.mod_mul, Nat.add_comm]

/-- The loop visits the buckets of the larger table that belong to the cursor, from the cursor's own on. -/
theorem scanLoop_spec (hw : t1.Wf T) (hs : t1.size = 2 ^ b) (hab : a ≤ b) (hb : b ≤ 30) :
    ∀ (fuel : Nat) {v : BitVec 64}, 2 ^ (b - a) ≤ fuel + v.toNat / 2 ^ a % 2 ^ (b - a) →
      ∃ es v', scanLoop t1 (lowMask 64 a) (lowMask 64 b) fuel v = some (es, v') ∧ LowEq a v' v ∧
        ∀ r, v.toNat / 2 ^ a % 2 ^ (b - a) ≤ r → r < 2 ^ (b - a) →
          ∀ e ∈ t1.table (2 ^ a * r + v.toNat % 2 ^ a), e ∈ es := by
  intro fuel
  induction fuel with
  | zero =>
    intro v hf
    have := Nat.mod_lt (v.toNat / 2 ^ a) (Nat.two_pow_pos (b - a))
    omega
  | succ fuel ih =>
    intro v hf
    have hlt : v.toNat % 2 ^ b < t1.size := by
      rw [hs]
      exact Nat.mod_lt _ (Nat.two_pow_pos b)
    have hstep := toNat_stepAbove (show a ≤ 64 by omega) v
    have hpos := Nat.two_pow_pos a
    have hw' := Nat.mod_lt v.toNat hpos
    -- the counter above the mask went up by one
    have hdiv : (stepAbove (lowMask 64 a) v).toNat / 2 ^ a % 2 ^ (b - a) = (v.toNat / 2 ^ a + 1) % 2 ^ (b - a) := by
      rw [hstep, Nat.mul_add_div hpos, Nat.div_eq_of_lt hw', Nat.add_zero]
      exact Nat.mod_mod_of_dvd _ (Nat.pow_dvd_pow 2 (by omega))
    have hmod : (stepAbove (lowMask 64 a) v).toNat % 2 ^ a = v.toNat % 2 ^ a := by
      rw [hstep, Nat.mul_add_mod, Nat.mod_mod]
    have hlow : LowEq a (stepAbove (lowMask 64 a) v) v := lowEq_of_mod_eq hmod
    have htest : stepAbove (lowMask 64 a) v &&& (lowMask 64 a ^^^ lowMask 64 b) ≠ 0 ↔
        (v.toNat / 2 ^ a + 1) % 2 ^ (b - a) ≠ 0 := by
      rw [ne_eq, ne_eq, ← BitVec.toNat_inj, toNat_and_lowMask_xor hab (by omega), hdiv]
      simp
    rw [scanLoop, toNat_and_lowMask, hw.bucket_eq hlt, Option.bind_some]
    simp only [htest]
    have hr := Nat.mod_lt (v.toNat / 2 ^ a) (Nat.two_pow_pos (b - a))
    have hsplit := mod_split hab v.toNat
    by_cases hlast : v.toNat / 2 ^ a % 2 ^ (b - a) + 1 = 2 ^ (b - a)
    · have hzero : (v.toNat / 2 ^ a + 1) % 2 ^ (b - a) = 0 := by
        rw [← Nat.mod_add_mod, hlast, Nat.mod_self]
      rw [if_neg (by simp [hzero])]
      refine ⟨_, _, rfl, hlow, fun r hle hr e he => ?_⟩
      have hreq : r = v.toNat / 2 ^ a % 2 ^ (b - a) := by omega
      rwa [hreq, ← hsplit] at he
    · have hnext : (v.toNat / 2 ^ a + 1) % 2 ^ (b - a) = v.toNat / 2 ^ a % 2 ^ (b - a) + 1 := by
        rw [← Nat.mod_add_mod, Nat.mod_eq_of_lt (by omega)]
      obtain ⟨es, v', hrun, hlow', hes⟩ := ih (v := stepAbove (lowMask 64 a) v) (by rw [hdiv, hnext]; omega)
      rw [if_pos (by rw [hnext]; omega), hrun]
      refine ⟨_, v', rfl, fun i hi => (hlow' i hi).trans (hlow i hi), fun r hle hr e he => ?_⟩
      rw [hdiv, hnext, hmod] at hes
      rcases Nat.eq_or_lt_of_le hle with hreq | hlt'
      · refine List.mem_append_left _ ?_
        rwa [← hreq, ← hsplit] at he
      · exact List.mem_append_right _ (hes r hlt' hr e he)

/-- An entry behind the cursor's bucket of the larger table comes before the cursor, provided the cursor's
    bits above the smaller mask read `0…01…1`. -/
theorem revKey_lt_of_behind (hab : a ≤ b) (hb : b ≤ 64) {h v : BitVec 64} (hlow : LowEq a h v) {j : Nat}
    (hj : v.toNat / 2 ^ a % 2 ^ (b - a) = 2 ^ j - 1)
    (hlt : h.toNat / 2 ^ a % 2 ^ (b - a) < v.toNat / 2 ^ a % 2 ^ (b - a)) : revKey h < revKey v := by
  have hjc : j ≤ b - a := by
    have hr := Nat.mod_lt (v.toNat / 2 ^ a) (Nat.two_pow_pos (b - a))
    have hpos := Nat.two_pow_pos j
    exact (Nat.pow_le_pow_iff_right (show 1 < 2 by omega)).mp (by omega)
  have hones : ∀ i, a ≤ i → i < a + j → v.getLsbD i = true := by
    intro i hai hij
    have hbit := congrArg (fun n => n.testBit (i - a)) hj
    have hadd : i - a + a = i := by omega
    simpa [Nat.testBit_mod_two_pow, Nat.testBit_div_two_pow, hadd, show i - a < j by omega,
      show i - a < b - a by omega, BitVec.getLsbD] using hbit
  have hne : ¬ LowEq (a + j) h v := by
    intro heq
    -- then the bits of `h` above the smaller mask would be ones as well
    have hmod := congrArg (· / 2 ^ a) heq.mod_eq
    simp only [Nat.pow_add, Nat.mod_mul_right_div_self] at hmod
    have hdvd : 2 ^ j ∣ 2 ^ (b - a) := Nat.pow_dvd_pow 2 hjc
    have hh := Nat.mod_mod_of_dvd (h.toNat / 2 ^ a) hdvd
    have hv := Nat.mod_mod_of_dvd (v.toNat / 2 ^ a) hdvd
    have hpos := Nat.two_pow_pos j
    rw [hj, Nat.mod_eq_of_lt (by omega)] at hv
    have hle := Nat.mod_le (h.toNat / 2 ^ a % 2 ^ (b - a)) (2 ^ j)
    omega
  obtain ⟨i, hi, hbit, hlow'⟩ := exists_first_diff hne
  have hai : a ≤ i := by
    by_contra hia
    exact hbit (hlow i (by omega))
  have hv := hones i hai hi
  refine revKey_lt (by omega) ?_ hv hlow'
  rw [hv] at hbit
  simpa using hbit

/-- One call on two tables passes every entry up to the next cursor that does not come before the cursor. -/
theorem scanPair_covers (hw0 : t0.Wf T) (hw1 : t1.Wf T) (hs0 : t0.size = 2 ^ a) (hs1 : t1.size = 2 ^ b) (hab : a ≤ b)
    (hb : b ≤ 30) {v : BitVec 64} {j : Nat} (hj : v.toNat % 2 ^ b / 2 ^ a = 2 ^ j - 1) :
    ∃ es, scanPair t0 t1 v = some (es, scanNext (lowMask 64 a) v) ∧
      ∀ e, (e ∈ t0.table (dictSlot T t0 e.1) ∨ e ∈ t1.table (dictSlot T t1 e.1)) →
        revKey (hashWord T e.1) ≤ revKey (v ||| ~~~ lowMask 64 a) → e ∈ es ∨ revKey (hashWord T e.1) < revKey v := by
  have hlt0 : v.toNat % 2 ^ a < t0.size := by
    rw [hs0]
    exact Nat.mod_lt _ (Nat.two_pow_pos a)
  have hj' : v.toNat / 2 ^ a % 2 ^ (b - a) = 2 ^ j - 1 := by
    rw [← hj, ← Nat.mod_mul_right_div_self, ← Nat.pow_add, Nat.add_sub_cancel' hab]
  obtain ⟨es, v', hloop, hlow, hes⟩ := scanLoop_spec hw1 hs1 hab hb t1.size (v := v) (by
    rw [hs1]
    exact Nat.le_add_right_of_le (Nat.pow_le_pow_right (by omega) (Nat.sub_le b a)))
  refine ⟨t0.table (v.toNat % 2 ^ a) ++ es, ?_, fun e he hle => ?_⟩
  · rw [scanPair]
    simp only [hw0.mask_eq hs0, hw1.mask_eq hs1, toNat_and_lowMask, hw0.bucket_eq hlt0, Option.bind_some, hloop]
    simp only [Option.map_some, scanNext, hlow.or_not_lowMask]
  rcases lowEq_or_lt_of_le (by omega) hle with heq | hlt
  · rcases he with he | he
    · rw [hw0.slot_eq hs0, heq.mod_eq] at he
      exact .inl (List.mem_append_left _ he)
    · rw [hw1.slot_eq hs1, mod_split hab, heq.mod_eq] at he
      by_cases hbehind : (hashWord T e.1).toNat / 2 ^ a % 2 ^ (b - a) < v.toNat / 2 ^ a % 2 ^ (b - a)
      · exact .inr (revKey_lt_of_behind hab (by omega) heq hj' hbehind)
      · refine .inl (List.mem_append_right _ (hes _ (Nat.not_lt.mp hbehind) ?_ e he))
        exact Nat.mod_lt _ (Nat.two_pow_pos (b - a))
  · exact .inr hlt

/-- The bits of the cursor that only the larger of the two tables uses read `0…01…1`. -/
def CursorOk (d : Dict K V) (v : BitVec 64) : Prop :=
  dictIsRehashing d = true →
    ∃ j, v.toNat % max d.ht0.size d.ht1.size / min d.ht0.size d.ht1.size = 2 ^ j - 1

theorem Dictht.Wf.size_pow (hw : t0.Wf T) (hs : t0.size ≠ 0) : ∃ a ≤ 30, t0.size = 2 ^ a := by
  obtain h0 | ⟨k, -, hk, hs⟩ := hw.size
  · exact absurd h0 hs
  · exact ⟨k, hk, hs⟩

theorem Dictht.Wf.mem_slot (hw : t0.Wf T) {e : K × V} (he : e ∈ t0.entries) : e ∈ t0.table (dictSlot T t0 e.1) := by
  obtain ⟨i, -, hi⟩ := List.mem_flatMap.mp he
  rw [(hw.placed i e hi).2]
  exact hi

/-- **One call.** The entries up to the next cursor are passed to the callback or come before the cursor. -/
theorem dictScan_covers {d : Dict K V} (hw : d.Wf T) (hne : d.entries ≠ []) {v : BitVec 64} (hok : CursorOk d v) :
    ∃ es m, dictScan d v = some (es, scanNext m v) ∧
      ∀ e ∈ d.entries, revKey (hashWord T e.1) ≤ revKey (v ||| ~~~ m) → e ∈ es ∨ revKey (hashWord T e.1) < revKey v := by
  have hsize : dictSize d ≠ 0 := by
    intro h0
    refine hne (List.eq_nil_of_length_eq_zero ?_)
    rw [Dict.entries, List.length_append, ← hw.old.used, ← hw.new.used]
    exact h0
  rw [dictScan, if_neg hsize]
  cases hr : dictIsRehashing d with
  | false =>
    have hidle : d.rehashidx = -1 := by
      by_contra h
      rw [dictIsRehashing_eq.mpr h] at hr
      cases hr
    have h0 : d.ht0.size ≠ 0 := by
      intro h0
      exact hne (by rw [Dict.entries, Dictht.entries_of_size h0, hw.entries_new hidle]; rfl)
    obtain ⟨a, ha, hs⟩ := hw.old.size_pow h0
    have hlt : v.toNat % 2 ^ a < d.ht0.size := by
      rw [hs]
      exact Nat.mod_lt _ (Nat.two_pow_pos a)
    refine ⟨d.ht0.table (v.toNat % 2 ^ a), lowMask 64 a, ?_, fun e he hle => ?_⟩
    · simp only [Bool.not_false, if_true, hw.old.mask_eq hs, toNat_and_lowMask, hw.old.bucket_eq hlt, Option.map_some]
    · rcases lowEq_or_lt_of_le (by omega) hle with heq | hlt
      · rw [Dict.entries, hw.entries_new hidle, List.append_nil] at he
        have he := hw.old.mem_slot he
        rw [hw.old.slot_eq hs, heq.mod_eq] at he
        exact .inl he
      · exact .inr hlt
  | true =>
    obtain ⟨-, -, h0, h1⟩ := hw.range (dictIsRehashing_eq.mp hr)
    obtain ⟨a, ha, hs0⟩ := hw.old.size_pow h0
    obtain ⟨b, hb, hs1⟩ := hw.new.size_pow h1
    obtain ⟨j, hj⟩ := hok hr
    have hmem : ∀ e ∈ d.entries, e ∈ d.ht0.table (dictSlot T d.ht0 e.1) ∨ e ∈ d.ht1.table (dictSlot T d.ht1 e.1) := by
      intro e he
      exact (List.mem_append.mp he).imp hw.old.mem_slot hw.new.mem_slot
    simp only [Bool.not_true, Bool.false_eq_true, if_false]
    by_cases hgt : d.ht0.size > d.ht1.size
    · have hba : b ≤ a := by
        rw [hs0, hs1] at hgt
        exact ((Nat.pow_lt_pow_iff_right (show 1 < 2 by omega)).mp hgt).le
      rw [max_eq_left hgt.le, min_eq_right hgt.le, hs0, hs1] at hj
      obtain ⟨es, hrun, hes⟩ := scanPair_covers hw.new hw.old hs1 hs0 hba ha hj
      exact ⟨es, _, by rw [if_pos hgt, hrun], fun e he => hes e (hmem e he).symm⟩
    · have hle := Nat.not_lt.mp hgt
      have hab : a ≤ b := by
        rw [hs0, hs1] at hle
        exact (Nat.pow_le_pow_iff_right (show 1 < 2 by omega)).mp hle
      rw [max_eq_right hle, min_eq_left hle, hs0, hs1] at hj
      obtain ⟨es, hrun, hes⟩ := scanPair_covers hw.old hw.new hs0 hs1 hab hb hj
      exact ⟨es, _, by rw [if_neg hgt, hrun], fun e he => hes e (hmem e he)⟩

/-! ## Iterations -/

/-- An iteration: the dictionary, the cursor for the next call (`none` once 0 was returned) and the entries
    passed to the callback so far. -/
structure ScanState (K V : Type) where
  dict : Dict K V
  cursor : Option (BitVec 64)
  visited : List (K × V)

/-- What happens during an iteration: a call that may change the dictionary, or the next `dictScan`. -/
inductive ScanEvent (K V : Type) where
  | call (op : DictOp K V)
  | scan

def ScanState.next (T : DictType K) (s : ScanState K V) : ScanEvent K V → Option (ScanState K V)
  | .call op => (op.run T s.dict).map fun r => { s with dict := r.1 }
  | .scan => s.cursor.bind fun v => (dictScan s.dict v).map fun (es, v') =>
      { s with cursor := if v' = 0 then none else some v', visited := s.visited ++ es }

/-- Iterations in which `key` is present throughout. -/
def Keeps (T : DictType K) (key : K) (s : ScanState K V) : ScanEvent K V → Prop
  | .call op => (s.dict.map T key).isSome = true ∧ op.Small T s.dict
  | .scan => (s.dict.map T key).isSome = true

/-- Each `dictScan` call gets a cursor it can continue from. -/
def ScanOk (T : DictType K) (key : K) (s : ScanState K V) (ev : ScanEvent K V) : Prop :=
  Keeps T key s ev ∧ (ev = .scan → ∀ v ∈ s.cursor, CursorOk s.dict v)

/-- The key was passed to the callback if it comes before the cursor. -/
structure ScanInv (T : DictType K) (key : K) (s : ScanState K V) : Prop where
  wf : s.dict.Wf T
  seen : (∀ v ∈ s.cursor, revKey (hashWord T key) < revKey v) → ∃ e ∈ s.visited, T.keyCompare key e.1 = true

/-- **Every step keeps the invariant.** -/
theorem ScanInv.step (hT : T.Lawful) {key : K} {s s' : ScanState K V} {ev : ScanEvent K V} (hok : ScanOk T key s ev)
    (hs : s.next T ev = some s') (hi : ScanInv T key s) : ScanInv T key s' := by
  cases ev with
  | call op =>
    obtain ⟨d', r, hrun, hw', -, -⟩ := op.run_spec hT hi.wf hok.1.2
    rw [ScanState.next, hrun] at hs
    cases hs
    exact ⟨hw', hi.seen⟩
  | scan =>
    obtain ⟨v, hv, hs⟩ := Option.bind_eq_some_iff.mp hs
    obtain ⟨e, he, hk⟩ := Assoc.lookup_isSome.mp hok.1
    obtain ⟨es, m, hrun, hes⟩ := dictScan_covers hi.wf (List.ne_nil_of_mem he) (hok.2 rfl v hv)
    rw [hrun] at hs
    cases hs
    refine ⟨hi.wf, fun hbefore => ?_⟩
    have hword : hashWord T e.1 = hashWord T key := by rw [hashWord, hashWord, hT.hash_eq hk]
    have hnext := revKey_scanNext m v
    have hle : revKey (hashWord T e.1) ≤ revKey (v ||| ~~~ m) := by
      have hfill := revKey_lt_two_pow (v ||| ~~~ m)
      have hkey := revKey_lt_two_pow (hashWord T e.1)
      rw [hword] at hkey ⊢
      by_cases hz : scanNext m v = 0
      · -- the iteration is over, the filled cursor was the last one
        rw [hz, revKey_zero] at hnext
        omega
      · have := hbefore (scanNext m v) (by simp only [if_neg hz]; rfl)
        omega
    rcases hes e he hle with hin | hlt
    · exact ⟨e, List.mem_append_right _ hin, hk⟩
    · obtain ⟨e', he', hk'⟩ := hi.seen fun v' hv' => by
        rw [hv] at hv'
        cases hv'
        rwa [← hword]
      exact ⟨e', List.mem_append_left _ he', hk'⟩

instance decKeeps (T : DictType K) (key : K) (s : ScanState K V) : (ev : ScanEvent K V) → Decidable (Keeps T key s ev)
  | .call _ => inferInstanceAs (Decidable (_ ∧ _))
  | .scan => inferInstanceAs (Decidable (_ = _))

/-- **Scan coverage.** From any dictionary, in every iteration whose calls get a cursor they can continue from,
    with any calls between them that keep the tables at 2³⁰ buckets or less: a key that is present throughout
    has been passed to the callback when 0 is returned, and no call goes out of range before that. -/
theorem dictScan_coverage (T : DictType K) (hT : T.Lawful) (d₀ : Dict K V) (m₀ : K → Option V) (hr₀ : DictRun T d₀ m₀)
    (key : K) (s : ScanState K V) (hr : RunBy (ScanState.next T) (ScanOk T key) ⟨d₀, some 0, []⟩ s) :
    (s.cursor = none → ∃ e ∈ s.visited, T.keyCompare key e.1 = true) ∧
      ∀ v ∈ s.cursor, ScanOk T key s .scan → (dictScan s.dict v).isSome = true := by
  have hinit : ScanInv T key (⟨d₀, some 0, []⟩ : ScanState K V) := by
    refine ⟨(hr₀.inv hT).1, fun h => ?_⟩
    have := h 0 rfl
    rw [revKey_zero] at this
    omega
  have hinv := hr.invariant (fun _ _ _ hok hs hi => ScanInv.step hT hok hs hi) hinit
  refine ⟨fun hend => hinv.seen fun v hv => ?_, fun v hv hok => ?_⟩
  · rw [hend] at hv
    cases hv
  · obtain ⟨e, he, -⟩ := Assoc.lookup_isSome.mp hok.1
    obtain ⟨es, m, hrun, -⟩ := dictScan_covers hinv.wf (List.ne_nil_of_mem he) (hok.2 rfl v hv)
    rw [hrun]
    rfl

end

/-- Executed calls that make a dictionary, followed by an executed iteration over it. -/
def scanTrace (test : ScanState UInt32 Nat → ScanEvent UInt32 Nat → Bool) (evs : List (ScanEvent UInt32 Nat))
    (s : Dict UInt32 Nat × (UInt32 → Option Nat)) : Option (Option (BitVec 64) × List UInt32) :=
  (execIf (ScanState.next wordKeys) test ⟨s.1, some 0, []⟩ evs).map fun t => (t.cursor, t.visited.map Prod.fst)

/-- The hypotheses at work: the table of four buckets grows to eight during the iteration. -/
theorem dictScan_coverage_growing :
    ∃ d₀ s, RunBy (ScanState.next wordKeys) (ScanOk wordKeys 7) (⟨d₀, some 0, []⟩ : ScanState UInt32 Nat) s ∧
      s.cursor = none ∧ ∃ e ∈ s.visited, wordKeys.keyCompare 7 e.1 = true := by
  have htest : ∀ (s : ScanState UInt32 Nat) (ev : ScanEvent UInt32 Nat),
      (decide (Keeps wordKeys 7 s ev) && s.cursor.all fun v =>
        v.toNat % max s.dict.ht0.size s.dict.ht1.size / min s.dict.ht0.size s.dict.ht1.size == 0) = true →
      ScanOk wordKeys 7 s ev := by
    intro s ev h
    rw [Bool.and_eq_true, decide_eq_true_eq] at h
    refine ⟨h.1, fun _ v hv _ => ⟨0, ?_⟩⟩
    have := h.2
    rw [Option.mem_def.mp hv] at this
    simpa using this
  obtain ⟨⟨d₀, m₀⟩, hr₀, h⟩ := run_of_exec (dictStep wordKeys) (fun s op => op.Small wordKeys s.1)
    (dictCreate, fun _ => none) [.add true 7 1]
    (scanTrace (fun s ev => decide (Keeps wordKeys 7 s ev) && s.cursor.all fun v =>
        v.toNat % max s.dict.ht0.size s.dict.ht1.size / min s.dict.ht0.size s.dict.ht1.size == 0)
      [.scan, .call (.expand 8), .scan, .scan, .scan]) (some (none, [7])) (by decide +kernel)
  obtain ⟨s, hs, hv⟩ := Option.map_eq_some_iff.mp h
  have hrun := execIf_run htest hs
  have hend : s.cursor = none := congrArg Prod.fst hv
  exact ⟨d₀, s, hrun, hend, (dictScan_coverage wordKeys wordKeys_lawful d₀ m₀ hr₀ 7 s hrun).1 hend⟩

/-- A table of sixteen buckets shrinks to four after the first call, which returned cursor 8. The second call
    goes through buckets 8 and 12 of the larger table and on to the next bucket of the smaller one, so the
    key in bucket 4, present throughout, is never passed to the callback. -/
theorem dictScan_shrink_misses :
    ∃ (d₀ : Dict UInt32 Nat) (m₀ : UInt32 → Option Nat) (s : ScanState UInt32 Nat), DictRun wordKeys d₀ m₀ ∧
      RunBy (ScanState.next wordKeys) (Keeps wordKeys 4) ⟨d₀, some 0, []⟩ s ∧ s.cursor = none ∧
      ∀ e ∈ s.visited, wordKeys.keyCompare 4 e.1 = false := by
  obtain ⟨⟨d₀, m₀⟩, hr₀, h⟩ := run_of_exec (dictStep wordKeys) (fun s op => op.Small wordKeys s.1)
    (dictCreate, fun _ => none) [.expand 16, .add true 4 1, .add true 8 1]
    (scanTrace (fun s ev => decide (Keeps wordKeys 4 s ev)) [.scan, .call (.expand 4), .scan, .scan, .scan, .scan])
    (some (none, [8])) (by decide +kernel)
  obtain ⟨s, hs, hv⟩ := Option.map_eq_some_iff.mp h
  refine ⟨d₀, m₀, s, hr₀, execIf_run (fun _ _ => of_decide_eq_true) hs, congrArg Prod.fst hv, fun e he => ?_⟩
  have hvisited : s.visited.map Prod.fst = [8] := congrArg Prod.snd hv
  have hmem := List.mem_map_of_mem (f := Prod.fst) he
  rw [hvisited, List.mem_singleton] at hmem
  rw [hmem]
  rfl

end Prez
