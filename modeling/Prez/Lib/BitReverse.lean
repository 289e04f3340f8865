import Mathlib.Data.Nat.Bitwise
import Mathlib.Tactic.Common

/-!
# `Lib.BitReverse` — counting from the most significant bit

A counter that is incremented in bit-reversed order runs through the words by their lowest bits first, so
it keeps its meaning when only some low bits count. `revKey` is the position of a word in that order.
-/

namespace Lib

variable {w : Nat}

/-! ## Order -/

/-- A word read with its bits in reverse. -/
def revKey (x : BitVec w) : Nat := x.reverse.toNat

/-- The words agree in their `a` lowest bits. -/
def LowEq (a : Nat) (x y : BitVec w) : Prop := ∀ i < a, x.getLsbD i = y.getLsbD i

/-- The word with the `a` lowest bits set. -/
def lowMask (w a : Nat) : BitVec w := BitVec.ofNat w (2 ^ a - 1)

theorem getLsbD_lowMask {a i : Nat} (hi : i < w) : (lowMask w a).getLsbD i = decide (i < a) := by
  rw [lowMask, BitVec.getLsbD_ofNat, Nat.testBit_two_pow_sub_one]
  simp [hi]

variable {a : Nat} {x y : BitVec w}

theorem LowEq.mod_eq (h : LowEq a x y) : x.toNat % 2 ^ a = y.toNat % 2 ^ a := by
  refine Nat.eq_of_testBit_eq fun i => ?_
  rw [Nat.testBit_mod_two_pow, Nat.testBit_mod_two_pow]
  by_cases hi : i < a
  · rw [← BitVec.getLsbD, ← BitVec.getLsbD, h i hi]
  · simp [hi]

theorem lowEq_of_mod_eq (h : x.toNat % 2 ^ a = y.toNat % 2 ^ a) : LowEq a x y := by
  intro i hi
  have hbit := congrArg (fun n => n.testBit i) h
  simpa [Nat.testBit_mod_two_pow, hi, BitVec.getLsbD] using hbit

theorem testBit_revKey (x : BitVec w) (i : Nat) :
    (revKey x).testBit i = (decide (i < w) && x.getLsbD (w - 1 - i)) := by
  rw [revKey, ← BitVec.getLsbD, BitVec.getLsbD_reverse, BitVec.getMsbD_eq_getLsbD]

/-- The first bit that differs decides. -/
theorem revKey_lt {i : Nat} (hi : i < w) (hx : x.getLsbD i = false) (hy : y.getLsbD i = true) (h : LowEq i x y) :
    revKey x < revKey y := by
  have hpos : w - 1 - (w - 1 - i) = i := by omega
  refine Nat.lt_of_testBit (w - 1 - i) ?_ ?_ ?_
  · rw [testBit_revKey, hpos, hx, Bool.and_false]
  · rw [testBit_revKey, hpos, hy, Bool.and_true, decide_eq_true_eq]
    omega
  · intro j hj
    rw [testBit_revKey, testBit_revKey]
    by_cases hjw : j < w
    · rw [h (w - 1 - j) (by omega)]
    · simp [hjw]

/-- Words that disagree in their low bits have a lowest bit in which they do. -/
theorem exists_first_diff (h : ¬ LowEq a x y) : ∃ i < a, x.getLsbD i ≠ y.getLsbD i ∧ LowEq i x y := by
  induction a with
  | zero => exact absurd (fun i hi => absurd hi (Nat.not_lt_zero i)) h
  | succ a ih =>
    by_cases ha : LowEq a x y
    · refine ⟨a, Nat.lt_succ_self a, fun heq => h fun i hi => ?_, ha⟩
      rcases Nat.lt_succ_iff_lt_or_eq.mp hi with hi | rfl
      · exact ha i hi
      · exact heq
    · obtain ⟨i, hi, hne, hlow⟩ := ih ha
      exact ⟨i, Nat.lt_succ_of_lt hi, hne, hlow⟩

/-- Up to the last word with the low bits of `v`, a word has these low bits itself or comes before `v`. -/
theorem lowEq_or_lt_of_le (ha : a ≤ w) {h v : BitVec w} (hle : revKey h ≤ revKey (v ||| ~~~ lowMask w a)) :
    LowEq a h v ∨ revKey h < revKey v := by
  by_contra hcon
  rw [not_or] at hcon
  obtain ⟨i, hi, hne, hlow⟩ := exists_first_diff hcon.1
  have hfill : ∀ j < a, (v ||| ~~~ lowMask w a).getLsbD j = v.getLsbD j := by
    intro j hj
    simp [getLsbD_lowMask (show j < w by omega), hj]
  cases hh : h.getLsbD i with
  | false =>
    have hv : v.getLsbD i = true := by
      rw [hh] at hne
      simpa using hne.symm
    exact hcon.2 (revKey_lt (by omega) hh hv hlow)
  | true =>
    have hv : v.getLsbD i = false := by
      rw [hh] at hne
      simpa using hne.symm
    refine absurd hle (Nat.not_le.mpr (revKey_lt (i := i) (by omega) ?_ hh fun j hj => ?_))
    · rw [hfill i hi, hv]
    · rw [hfill j (by omega), hlow j hj]

@[simp] theorem revKey_zero : revKey (0 : BitVec w) = 0 := by
  refine Nat.eq_of_testBit_eq fun i => ?_
  simp [testBit_revKey]

theorem revKey_lt_two_pow (x : BitVec w) : revKey x < 2 ^ w := x.reverse.isLt

/-- Words that agree below the mask are filled up to the same word. -/
theorem LowEq.or_not_lowMask (h : LowEq a x y) : x ||| ~~~ lowMask w a = y ||| ~~~ lowMask w a := by
  refine BitVec.eq_of_getLsbD_eq fun i hi => ?_
  rw [BitVec.getLsbD_or, BitVec.getLsbD_or, BitVec.getLsbD_not, getLsbD_lowMask hi]
  by_cases hia : i < a
  · rw [h i hia]
  · simp [hi, hia]

/-- The increment of the reversed counter. -/
theorem revKey_reverse_succ (x : BitVec w) : revKey (x.reverse + 1).reverse = (revKey x + 1) % 2 ^ w := by
  rw [revKey, BitVec.reverse_reverse_eq, BitVec.toNat_add, revKey]
  simp

/-! ## Counting above a mask -/

/-- Increment the bits from `a` on, keep the others. -/
def stepAbove (m v : BitVec w) : BitVec w := (((v ||| m) + 1) &&& ~~~ m) ||| (v &&& m)

theorem toNat_or_lowMask (ha : a ≤ w) (v : BitVec w) :
    (v ||| lowMask w a).toNat = 2 ^ a * (v.toNat / 2 ^ a) + (2 ^ a - 1) := by
  have hm : (lowMask w a).toNat = 2 ^ a - 1 := by
    have h1 : 2 ^ a ≤ 2 ^ w := Nat.pow_le_pow_right (by omega) ha
    have h2 := Nat.two_pow_pos a
    rw [lowMask, BitVec.toNat_ofNat, Nat.mod_eq_of_lt (by omega)]
  rw [BitVec.toNat_or, hm, Nat.two_pow_add_eq_or_of_lt (Nat.sub_lt (Nat.two_pow_pos a) (by omega))]
  refine Nat.eq_of_testBit_eq fun i => ?_
  rw [Nat.testBit_or, Nat.testBit_or, Nat.testBit_two_pow_sub_one, Nat.testBit_two_pow_mul, Nat.testBit_div_two_pow]
  by_cases hi : i < a
  · simp [hi]
  · have : i - a + a = i := by omega
    simp [hi, this, Nat.not_lt.mp hi]

theorem toNat_and_lowMask (v : BitVec w) : (v &&& lowMask w a).toNat = v.toNat % 2 ^ a := by
  refine Nat.eq_of_testBit_eq fun i => ?_
  rw [← BitVec.getLsbD, BitVec.getLsbD_and, Nat.testBit_mod_two_pow, ← BitVec.getLsbD]
  by_cases hi : i < w
  · rw [getLsbD_lowMask hi, Bool.and_comm]
  · simp [BitVec.getLsbD_of_ge v i (by omega)]

/-- The bits that only the larger of two masks covers. -/
theorem toNat_and_lowMask_xor {a b : Nat} (hab : a ≤ b) (hb : b ≤ w) (v : BitVec w) :
    (v &&& (lowMask w a ^^^ lowMask w b)).toNat = 2 ^ a * (v.toNat / 2 ^ a % 2 ^ (b - a)) := by
  refine Nat.eq_of_testBit_eq fun i => ?_
  rw [← BitVec.getLsbD, BitVec.getLsbD_and, BitVec.getLsbD_xor, Nat.testBit_two_pow_mul, Nat.testBit_mod_two_pow,
    Nat.testBit_div_two_pow]
  by_cases hi : i < w
  · rw [getLsbD_lowMask hi, getLsbD_lowMask hi]
    by_cases hia : i < a
    · simp [hia, show i < b by omega]
    · have hadd : i - a + a = i := by omega
      have hlt : i - a < b - a ↔ i < b := by omega
      simp only [hia, hadd, hlt, Nat.not_lt.mp hia, BitVec.getLsbD, decide_false, decide_true, Bool.false_xor,
        Bool.true_and, Bool.and_comm]
  · have hlt : ¬ i - a < b - a := by omega
    simp [BitVec.getLsbD_of_ge v i (by omega), hlt]

/-- The bits above the mask count, those below it stay. -/
theorem toNat_stepAbove (ha : a ≤ w) (v : BitVec w) :
    (stepAbove (lowMask w a) v).toNat = 2 ^ a * ((v.toNat / 2 ^ a + 1) % 2 ^ (w - a)) + v.toNat % 2 ^ a := by
  have hsucc : ((v ||| lowMask w a) + 1).toNat = 2 ^ a * ((v.toNat / 2 ^ a + 1) % 2 ^ (w - a)) := by
    have hpos := Nat.two_pow_pos a
    have hone : (1 : BitVec w).toNat = 1 % 2 ^ w := BitVec.toNat_ofNat 1 w
    have hw : 2 ^ w = 2 ^ a * 2 ^ (w - a) := by rw [← Nat.pow_add, Nat.add_sub_cancel' ha]
    have hsum : 2 ^ a * (v.toNat / 2 ^ a) + (2 ^ a - 1) + 1 = 2 ^ a * (v.toNat / 2 ^ a + 1) := by
      rw [Nat.mul_succ]
      omega
    rw [BitVec.toNat_add, hone, Nat.add_mod_mod, toNat_or_lowMask ha, hsum, hw, Nat.mul_mod_mul_left]
  rw [Nat.two_pow_add_eq_or_of_lt (Nat.mod_lt _ (Nat.two_pow_pos a)), ← hsucc, ← toNat_and_lowMask (a := a),
    stepAbove, BitVec.toNat_or]
  congr 1
  -- the incremented bits are a multiple of `2 ^ a`, so clearing the low ones does nothing
  refine congrArg BitVec.toNat (BitVec.eq_of_getLsbD_eq fun i hi => ?_)
  rw [BitVec.getLsbD_and, BitVec.getLsbD_not, getLsbD_lowMask hi]
  by_cases hia : i < a
  · have hz : ((v ||| lowMask w a) + 1).getLsbD i = false := by
      rw [BitVec.getLsbD, hsucc, Nat.testBit_two_pow_mul]
      simp [hia]
    rw [hz]
    rfl
  · simp [hi, hia]

/-! ## Reversal -/

/-- Bits `i` and `i + s` exchanged for every `i` in the mask. -/
def swapBlocks (s : Nat) (mask v : BitVec w) : BitVec w := ((v >>> s) &&& mask) ||| ((v <<< s) &&& ~~~ mask)

/-- The partner of bit `i` in that exchange. -/
def swapIndex (s i : Nat) : Nat := if i / s % 2 = 0 then i + s else i - s

theorem getLsbD_swapBlocks {s : Nat} {mask : BitVec w}
    (hmask : ∀ i < w, mask.getLsbD i = decide (i / s % 2 = 0)) (v : BitVec w) {i : Nat} (hi : i < w) :
    (swapBlocks s mask v).getLsbD i = v.getLsbD (swapIndex s i) := by
  rw [swapBlocks, BitVec.getLsbD_or, BitVec.getLsbD_and, BitVec.getLsbD_and, BitVec.getLsbD_not,
    BitVec.getLsbD_ushiftRight, BitVec.getLsbD_shiftLeft, hmask i hi, swapIndex]
  by_cases hb : i / s % 2 = 0
  · simp [hb, Nat.add_comm]
  · have hs : ¬ i < s := fun hlt => hb (by rw [Nat.div_eq_of_lt hlt])
    simp [hb, hi, hs]

end Lib
