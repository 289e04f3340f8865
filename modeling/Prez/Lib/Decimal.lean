import Prez.Lib.Bytes
import Mathlib.Tactic.Ring
import Mathlib.Tactic.Linarith

/-!
# `Lib.Decimal` — decimal numerals as byte strings

`decimal n` is the numeral of `n`, most significant digit first and without leading zeros. The module
gives what encoders and decoders need of it: its value, its length, and that it is all digits.
-/

namespace Lib

/-- The character of the digit `d`. -/
def digitChar (d : Nat) : UInt8 := UInt8.ofNat (48 + d)

/-- The decimal numeral of `n`. -/
def decimal (n : Nat) : Bytes :=
  if n < 10 then [digitChar n] else decimal (n / 10) ++ [digitChar (n % 10)]
termination_by n
decreasing_by omega

theorem decimal_lt {n : Nat} (h : n < 10) : decimal n = [digitChar n] := by
  rw [decimal, if_pos h]

theorem decimal_ge {n : Nat} (h : 10 ≤ n) : decimal n = decimal (n / 10) ++ [digitChar (n % 10)] := by
  rw [decimal, if_neg (by omega)]

theorem digitChar_toNat {d : Nat} (h : d < 10) : (digitChar d).toNat = 48 + d := by
  rw [digitChar, UInt8.toNat_ofNat']
  omega

theorem isDigit_iff (c : UInt8) : isDigit c = true ↔ 48 ≤ c.toNat ∧ c.toNat ≤ 57 := by
  simp only [isDigit, Bool.and_eq_true, decide_eq_true_eq, UInt8.le_iff_toNat_le]
  rfl

theorem isDigit_digitChar {d : Nat} (h : d < 10) : isDigit (digitChar d) = true := by
  rw [isDigit_iff, digitChar_toNat h]
  omega

theorem decimal_ne_nil (n : Nat) : decimal n ≠ [] := by
  by_cases h : n < 10
  · simp [decimal_lt h]
  · simp [decimal_ge (Nat.le_of_not_lt h)]

theorem decimal_isDigit (n : Nat) : ∀ c ∈ decimal n, isDigit c = true := by
  induction n using Nat.strong_induction_on with
  | _ n ih =>
    intro c hc
    by_cases h : n < 10
    · rw [decimal_lt h, List.mem_singleton] at hc
      subst hc
      exact isDigit_digitChar h
    · rw [decimal_ge (Nat.le_of_not_lt h), List.mem_append, List.mem_singleton] at hc
      rcases hc with hc | hc
      · exact ih (n / 10) (by omega) c hc
      · subst hc
        exact isDigit_digitChar (by omega)

/-- A digit is neither a blank, a line break nor a terminator. -/
theorem isDigit_plain {c : UInt8} (h : isDigit c = true) : c ≠ 0 ∧ c ≠ 10 ∧ c ≠ 13 ∧ isSpace c = false := by
  rw [isDigit_iff] at h
  have hne : ∀ d : UInt8, d.toNat < 48 → c ≠ d := fun d hd heq => by subst heq; omega
  refine ⟨hne 0 (by decide), hne 10 (by decide), hne 13 (by decide), ?_⟩
  simp only [isSpace, Bool.or_eq_false_iff, beq_eq_false_iff_ne]
  refine ⟨⟨⟨⟨⟨?_, ?_⟩, ?_⟩, ?_⟩, ?_⟩, ?_⟩
  · exact hne 32 (by decide)
  · exact hne 9 (by decide)
  · exact hne 10 (by decide)
  · exact hne 11 (by decide)
  · exact hne 12 (by decide)
  · exact hne 13 (by decide)

/-! ## Value -/

theorem digitsValue_append {b : Bytes} (hb : ∀ c ∈ b, isDigit c = true) :
    ∀ (acc : Nat) (rest : Bytes), digitsValue acc (b ++ rest) = digitsValue (digitsValue acc b) rest := by
  induction b with
  | nil => intro acc rest; rfl
  | cons c b ih =>
    intro acc rest
    have hc : isDigit c = true := hb c List.mem_cons_self
    simp only [List.cons_append, digitsValue, hc, if_true]
    exact ih (fun d hd => hb d (List.mem_cons_of_mem _ hd)) _ rest

/-- Digits read after the number `acc`. -/
theorem digitsValue_acc {b : Bytes} (hb : ∀ d ∈ b, isDigit d = true) :
    ∀ acc, digitsValue acc b = acc * 10 ^ b.length + digitsValue 0 b := by
  induction b with
  | nil =>
    intro acc
    exact (Nat.mul_one acc).symm
  | cons c b ih =>
    intro acc
    obtain ⟨hc, hb⟩ := List.forall_mem_cons.mp hb
    simp only [digitsValue, if_pos hc]
    rw [ih hb, ih hb (0 * 10 + _), List.length_cons, Nat.pow_succ]
    ring

/-- Reading `decimal n` after the digits of `acc` gives `acc * 10 ^ length + n`. -/
theorem digitsValue_decimal (n : Nat) :
    ∀ acc, digitsValue acc (decimal n) = acc * 10 ^ (decimal n).length + n := by
  induction n using Nat.strong_induction_on with
  | _ n ih =>
    intro acc
    by_cases h : n < 10
    · simp [decimal_lt h, digitsValue, isDigit_digitChar h, digitChar_toNat h]
    · have hge := Nat.le_of_not_lt h
      have hd : n % 10 < 10 := Nat.mod_lt _ (by omega)
      rw [decimal_ge hge, digitsValue_append (decimal_isDigit _), ih (n / 10) (by omega)]
      simp only [digitsValue, isDigit_digitChar hd, if_true, digitChar_toNat hd, List.length_append,
        List.length_singleton, pow_succ]
      have := Nat.div_add_mod n 10
      ring_nf
      omega

/-- What follows the digits does not change the value. -/
theorem digitsValue_stop {c : UInt8} (hc : isDigit c = false) (acc : Nat) (rest : Bytes) :
    digitsValue acc (c :: rest) = acc := by
  simp [digitsValue, hc]

/-! ## Length -/

theorem decimal_length_le {k : Nat} : ∀ {n : Nat}, n < 10 ^ (k + 1) → (decimal n).length ≤ k + 1 := by
  induction k with
  | zero => intro n h; rw [decimal_lt (by simpa using h)]; simp
  | succ k ih =>
    intro n h
    by_cases hn : n < 10
    · simp [decimal_lt hn]
    · rw [decimal_ge (Nat.le_of_not_lt hn), List.length_append, List.length_singleton]
      have hq : n / 10 < 10 ^ (k + 1) := by
        rw [Nat.div_lt_iff_lt_mul (by omega)]
        rw [pow_succ] at h
        exact h
      have := ih hq
      omega

theorem le_decimal_length {k : Nat} : ∀ {n : Nat}, 10 ^ k ≤ n → k + 1 ≤ (decimal n).length := by
  induction k with
  | zero => intro n _; exact List.length_pos_iff.mpr (decimal_ne_nil n)
  | succ k ih =>
    intro n h
    have hpos : 0 < 10 ^ k := Nat.pow_pos (by omega)
    have hn : 10 ≤ n := by rw [pow_succ] at h; omega
    rw [decimal_ge hn, List.length_append, List.length_singleton]
    have hq : 10 ^ k ≤ n / 10 := by
      rw [Nat.le_div_iff_mul_le (by omega)]
      rw [pow_succ] at h
      exact h
    have := ih hq
    omega

/-- The numeral of `n` has `k + 1` digits exactly when `10 ^ k ≤ n < 10 ^ (k + 1)`. -/
theorem decimal_length_eq {k n : Nat} (h₁ : 10 ^ k ≤ n) (h₂ : n < 10 ^ (k + 1)) :
    (decimal n).length = k + 1 :=
  le_antisymm (decimal_length_le h₂) (le_decimal_length h₁)

/-- Dropping `k` digits divides by `10 ^ k`. -/
theorem decimal_length_div (k : Nat) :
    ∀ {n : Nat}, 10 ^ k ≤ n → (decimal n).length = (decimal (n / 10 ^ k)).length + k := by
  induction k with
  | zero => intro n _; simp
  | succ k ih =>
    intro n h
    have hpos : 0 < 10 ^ k := Nat.pow_pos (by omega)
    rw [pow_succ] at h
    have hn : 10 ≤ n := by omega
    have hq : 10 ^ k ≤ n / 10 := by
      rw [Nat.le_div_iff_mul_le (by omega)]
      exact h
    rw [decimal_ge hn, List.length_append, List.length_singleton, ih hq, Nat.div_div_eq_div_mul,
      pow_succ, Nat.mul_comm 10]
    omega

end Lib
