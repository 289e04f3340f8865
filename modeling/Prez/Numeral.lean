import Prez.Util
import Mathlib.Data.List.Induction

/-!
# `Prez.Numeral` — the second integer encoder and the texts `string2ll` accepts

`sdsll2str` of `sds.c` writes the digits backwards and turns them round in place; `ll2string` of `util.c`
counts the digits first and fills the buffer from its end. Both write `llText`, and `string2ll` accepts
exactly the texts of that form.

## Contents
- **Encoding.** `sdsll2str`, its swap loop as a reversal (`sdsReverse_eq`), `sdsll2str_eq`.
- **Canonical texts.** `Canonical` as a grammar with a value, and its one text per value (`canonical_iff`).
- **Decoding.** `string2ll_iff`; the codec as a whole is `integer_text_codec`.
-/

namespace Prez

open Lib

/-! ## Encoding -/

/-- `-x` on a `long long`, in two's complement: `LLONG_MIN` is its own negation. -/
def negLongLong (x : Int) : Int := if x = -(2 ^ 63) then x else -x

/-- The loop `do { *p++ = '0'+(v%10); v /= 10; } while(v)`: the last digit comes first. -/
def sdsll2strDigits (v : Nat) : Bytes :=
  digitChar (v % 10) :: (if v / 10 = 0 then [] else sdsll2strDigits (v / 10))
termination_by v
decreasing_by omega

/-- The loop `while(s < p)` that swaps the bytes under `s` and `p` and moves both inwards. -/
def sdsReverse (b : Bytes) (s p : Nat) : Bytes :=
  if s < p then sdsReverse ((b.set s (b.getD p 0)).set p (b.getD s 0)) (s + 1) (p - 1) else b
termination_by p - s

/-- `sdsll2str(s, value)`: the characters before the terminator; the return value is their number. -/
def sdsll2str (value : Int) : Bytes :=
  let v := toULong (if value < 0 then negLongLong value else value)
  let b := sdsll2strDigits v.toNat ++ (if value < 0 then [45] else [])
  sdsReverse b 0 (b.length - 1)

theorem sdsll2strDigits_eq (v : Nat) : sdsll2strDigits v = (decimal v).reverse := by
  induction v using Nat.strong_induction_on with
  | _ v ih =>
    unfold sdsll2strDigits
    by_cases h : v < 10
    · rw [if_pos (by omega), decimal_lt h, Nat.mod_eq_of_lt h]
      rfl
    · rw [if_neg (by omega), ih (v / 10) (by omega), decimal_ge (n := v) (by omega), List.reverse_append]
      rfl

/-- The swap loop reverses what stands between its two pointers and leaves the rest alone. -/
theorem sdsReverse_eq (mid : Bytes) :
    ∀ a c, sdsReverse (a ++ mid ++ c) a.length (a.length + mid.length - 1) = a ++ mid.reverse ++ c := by
  induction mid using List.bidirectionalRec with
  | nil =>
    intro a c
    rw [sdsReverse, if_neg (by simp)]
    rfl
  | singleton x =>
    intro a c
    rw [sdsReverse, if_neg (by simp)]
    rfl
  | cons_append x m y ih =>
    intro a c
    -- after one swap the two ends belong to the parts the loop has left behind
    have hswap : ((a ++ (x :: (m ++ [y])) ++ c).set a.length y).set (a.length + m.length + 1) x
        = (a ++ [y]) ++ m ++ ([x] ++ c) := by
      rw [Nat.add_assoc]
      simp
    have hp : a.length + (x :: (m ++ [y])).length - 1 = a.length + m.length + 1 := by
      simp only [List.length_cons, List.length_append, List.length_nil]
      omega
    have hy : (a ++ (x :: (m ++ [y])) ++ c).getD (a.length + m.length + 1) 0 = y := by
      simp [List.getD, Nat.add_assoc]
    have hx : (a ++ (x :: (m ++ [y])) ++ c).getD a.length 0 = x := by
      simp [List.getD]
    rw [sdsReverse, hp, if_pos (by omega), hy, hx, hswap]
    have hlen : (a ++ [y]).length = a.length + 1 := by simp
    have hrec := ih (a ++ [y]) ([x] ++ c)
    rw [hlen, show a.length + 1 + m.length - 1 = a.length + m.length + 1 - 1 by omega] at hrec
    rw [hrec]
    simp

variable {v : Int} {c : UInt8} {b : Bytes} {s : Bytes}

theorem toULong_magnitude (h : LongLong v) : (toULong (if v < 0 then negLongLong v else v)).toNat = v.natAbs := by
  unfold LongLong at h
  unfold toULong negLongLong
  split_ifs <;> omega

theorem sdsll2str_eq (h : LongLong v) : sdsll2str v = llText v := by
  have hrev : ∀ b : Bytes, sdsReverse b 0 (b.length - 1) = b.reverse := by
    intro b
    have := sdsReverse_eq b [] []
    simpa using this
  simp only [sdsll2str, toULong_magnitude h, hrev, sdsll2strDigits_eq, List.reverse_append,
    List.reverse_reverse, llText]
  split <;> rfl

/-! ## Canonical texts -/

/-- A numeral without leading zeros: the single digit 0, or a digit 1-9 and any further digits. -/
inductive Numeral : Bytes → Prop where
  | zero : Numeral [48]
  | pos {c : UInt8} {b : Bytes} (first : 49 ≤ c ∧ c ≤ 57) (digits : ∀ d ∈ b, isDigit d = true) : Numeral (c :: b)

/-- The canonical decimal forms with the integer each stands for: a numeral, or `-` and a numeral other
    than 0. -/
inductive Canonical : Bytes → Int → Prop where
  | nonneg {b : Bytes} (h : Numeral b) : Canonical b (digitsValue 0 b)
  | neg {b : Bytes} (h : Numeral b) (hne : b ≠ [48]) : Canonical (45 :: b) (-(digitsValue 0 b : Int))

theorem firstDigit_isDigit (h : 49 ≤ c ∧ c ≤ 57) : isDigit c = true ∧ 1 ≤ c.toNat - 48 ∧ c.toNat - 48 < 10 := by
  simp only [UInt8.le_iff_toNat_le] at h
  have h1 : 49 ≤ c.toNat := h.1
  have h2 : c.toNat ≤ 57 := h.2
  rw [isDigit_iff]
  omega

theorem digitChar_sub (h : isDigit c = true) : digitChar (c.toNat - 48) = c := by
  rw [isDigit_iff] at h
  rw [← UInt8.toNat_inj, digitChar_toNat (by omega)]
  omega

theorem digitsValue_snoc (hb : ∀ c ∈ b, isDigit c = true) {d : UInt8} (hd : isDigit d = true) (acc : Nat) :
    digitsValue acc (b ++ [d]) = digitsValue acc b * 10 + (d.toNat - 48) := by
  rw [digitsValue_append hb]
  simp [digitsValue, hd]

/-- A digit string that does not start with 0 is the numeral of its value. -/
theorem decimal_of_digits (hc : 49 ≤ c ∧ c ≤ 57) (hb : ∀ d ∈ b, isDigit d = true) :
    1 ≤ digitsValue 0 (c :: b) ∧ decimal (digitsValue 0 (c :: b)) = c :: b := by
  obtain ⟨hdig, h1, h9⟩ := firstDigit_isDigit hc
  have hall : ∀ {b : Bytes}, (∀ d ∈ b, isDigit d = true) → ∀ d ∈ c :: b, isDigit d = true := by
    intro b hb d hd
    rcases List.mem_cons.mp hd with rfl | hd
    · exact hdig
    · exact hb d hd
  -- from the last digit: what is before it is the numeral of the tenth part
  induction b using List.reverseRecOn with
  | nil =>
    have hval : digitsValue 0 [c] = c.toNat - 48 := by simp [digitsValue, hdig]
    rw [hval, decimal_lt h9, digitChar_sub hdig]
    exact ⟨h1, rfl⟩
  | append_singleton b d ih =>
    have hb' : ∀ e ∈ b, isDigit e = true := fun e he => hb e (List.mem_append_left _ he)
    have hd : isDigit d = true := hb d (by simp)
    obtain ⟨hpos, hdec⟩ := ih hb'
    have hval := digitsValue_snoc (hall hb') hd 0
    have hd9 := (isDigit_iff d).mp hd
    rw [← List.cons_append, hval]
    refine ⟨by omega, ?_⟩
    rw [decimal_ge (by omega), show (digitsValue 0 (c :: b) * 10 + (d.toNat - 48)) / 10 = digitsValue 0 (c :: b) by omega,
      show (digitsValue 0 (c :: b) * 10 + (d.toNat - 48)) % 10 = d.toNat - 48 by omega, hdec, digitChar_sub hd]

theorem Numeral.decimal (h : Numeral b) : Lib.decimal (digitsValue 0 b) = b ∧ (b ≠ [48] → 1 ≤ digitsValue 0 b) := by
  cases h with
  | zero => exact ⟨by rw [decimal_lt (by decide)]; decide, fun h => absurd rfl h⟩
  | pos first digits => exact ⟨(decimal_of_digits first digits).2, fun _ => (decimal_of_digits first digits).1⟩

theorem numeral_decimal (n : Nat) : Numeral (decimal n) := by
  by_cases hn : n = 0
  · subst hn
    rw [decimal_lt (by omega)]
    exact .zero
  · obtain ⟨d, b, h0, h9, hd⟩ := decimal_head (n := n) (by omega)
    have hall := decimal_isDigit n
    rw [hd] at hall ⊢
    exact .pos (firstDigit_range h0 h9) fun e he => hall e (List.mem_cons_of_mem _ he)

theorem digitsValue_numeral (n : Nat) : digitsValue 0 (decimal n) = n := by
  rw [digitsValue_decimal, Nat.zero_mul, Nat.zero_add]

/-- Each integer has one canonical text, the one the encoders write. -/
theorem canonical_iff : Canonical s v ↔ s = llText v := by
  constructor
  · intro h
    cases h with
    | nonneg h => rw [llText, if_neg (by omega), Int.natAbs_natCast, h.decimal.1]
    | neg h hne =>
      have h1 := h.decimal.2 hne
      rw [llText, if_pos (by omega), Int.natAbs_neg, Int.natAbs_natCast, h.decimal.1]
  · rintro rfl
    have hval := digitsValue_numeral v.natAbs
    unfold llText
    split
    · rename_i hv
      have hne : decimal v.natAbs ≠ [48] := by
        intro h48
        rw [h48, show digitsValue 0 [48] = 0 by decide] at hval
        omega
      have hc := Canonical.neg (numeral_decimal v.natAbs) hne
      rw [hval, show -((v.natAbs : Nat) : Int) = v by omega] at hc
      exact hc
    · have hc := Canonical.nonneg (numeral_decimal v.natAbs)
      rw [hval, show ((v.natAbs : Nat) : Int) = v by omega] at hc
      exact hc

/-! ## Decoding -/

/-- The digit loop consumes everything only if everything is a digit, and then it has the value. -/
theorem string2llDigits_sound : ∀ {v w : Nat}, string2llDigits v b = some (w, []) →
    (∀ d ∈ b, isDigit d = true) ∧ w = digitsValue v b := by
  induction b with
  | nil =>
    intro v w h
    simp only [string2llDigits, Option.some.injEq, Prod.mk.injEq, and_true] at h
    exact ⟨by simp, h.symm⟩
  | cons c b ih =>
    intro v w h
    unfold string2llDigits at h
    by_cases hc : isDigit c = true
    · rw [if_pos hc] at h
      split_ifs at h
      obtain ⟨hall, hw⟩ := ih h
      refine ⟨?_, by rw [hw, digitsValue, if_pos hc]⟩
      intro d hd
      rcases List.mem_cons.mp hd with rfl | hd
      · exact hc
      · exact hall d hd
    · rw [if_neg hc] at h
      simp at h

/-- The digits of `string2ll` behind the sign, with what the loop says of them. -/
theorem string2llDigits_numeral {p : Bytes} {w : Nat} (hc : 49 ≤ c ∧ c ≤ 57)
    (h : string2llDigits (c.toNat - 48) p = some (w, [])) :
    Numeral (c :: p) ∧ c :: p ≠ [48] ∧ digitsValue 0 (c :: p) = w := by
  obtain ⟨hall, hval⟩ := string2llDigits_sound h
  refine ⟨.pos hc hall, ?_, ?_⟩
  · intro heq
    injection heq with heq _
    subst heq
    exact absurd hc.1 (by decide)
  · rw [hval, digitsValue, if_pos (firstDigit_isDigit hc).1, Nat.zero_mul, Nat.zero_add]

theorem string2ll_sound (h : string2ll s = some v) : Canonical s v ∧ LongLong v := by
  unfold string2ll at h
  by_cases h0 : s = []
  · rw [if_pos h0] at h
    cases h
  rw [if_neg h0] at h
  by_cases h48 : s = [48]
  · rw [if_pos h48] at h
    cases h
    subst h48
    exact ⟨Canonical.nonneg .zero, by decide⟩
  rw [if_neg h48] at h
  obtain ⟨a, s, rfl⟩ := List.exists_cons_of_ne_nil h0
  by_cases ha : a = 45
  · subst ha
    simp only [List.head?_cons, beq_self_eq_true, if_true, List.tail_cons] at h
    split at h
    · cases h
    split_ifs at h with hc
    split at h
    · cases h
    · cases h
    rename_i w hr
    split_ifs at h with hw
    cases h
    obtain ⟨hnum, hne, hval⟩ := string2llDigits_numeral hc hr
    have hcan := Canonical.neg hnum hne
    rw [hval] at hcan
    exact ⟨hcan, by unfold LongLong; omega⟩
  · have hneg : (some a == some (45 : UInt8)) = false := by simpa using ha
    simp only [List.head?_cons, hneg, Bool.false_eq_true, if_false] at h
    split_ifs at h with hc
    split at h
    · cases h
    · cases h
    rename_i w hr
    split_ifs at h with hw
    cases h
    obtain ⟨hnum, _, hval⟩ := string2llDigits_numeral hc hr
    have hcan := Canonical.nonneg hnum
    rw [hval] at hcan
    exact ⟨hcan, by unfold LongLong; omega⟩

/-- `string2ll` accepts the canonical texts of the `long long`s and nothing else. -/
theorem string2ll_iff : string2ll s = some v ↔ Canonical s v ∧ LongLong v := by
  constructor
  · exact string2ll_sound
  · rintro ⟨hc, hv⟩
    rw [canonical_iff.mp hc]
    exact string2ll_llText hv

/-- **The integer codec.** Into any destination of more than 20 bytes both encoders write the canonical text
    of every `long long`, at most 20 characters, and the decoder reads it back; the decoder accepts the
    canonical texts of the `long long`s and nothing else. -/
theorem integer_text_codec :
    (∀ (v : Int) (dstlen : Nat), LongLong v → 20 < dstlen →
      sdsll2str v = ll2string dstlen v ∧ Canonical (ll2string dstlen v) v ∧
      (ll2string dstlen v).length ≤ 20 ∧ string2ll (ll2string dstlen v) = some v) ∧
    ∀ (s : Bytes) (v : Int), string2ll s = some v ↔ Canonical s v ∧ LongLong v := by
  refine ⟨fun v dstlen hv hlen => ?_, fun s v => string2ll_iff⟩
  have hle := llText_length hv
  rw [ll2string_eq (by omega)]
  exact ⟨sdsll2str_eq hv, canonical_iff.mpr rfl, hle, string2ll_llText hv⟩

/-- The boundary of the codec: `LLONG_MIN`, which is its own negation, into the smallest such buffer. -/
theorem integer_text_codec_min :
    LongLong (-(2 ^ 63)) ∧ sdsll2str (-(2 ^ 63)) = ll2string 21 (-(2 ^ 63)) ∧
      string2ll (ll2string 21 (-(2 ^ 63))) = some (-(2 ^ 63)) :=
  have hmin : LongLong (-(2 ^ 63)) := by decide
  have h := integer_text_codec.1 (-(2 ^ 63)) 21 hmin (by decide)
  ⟨hmin, h.1, h.2.2.2⟩

end Prez
