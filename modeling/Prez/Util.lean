import Prez.Lib.Decimal

/-!
# `Prez.Util` — the integer text codec of `util.c`

`ll2string` and `string2ll` turn a `long long` into its decimal text and back. Every log record and every
length line goes through them, so the module ends in the round trip `string2ll_llText`.
-/

namespace Prez

open Lib

/-! ## Encoding -/

/-- `digits10`: the number of digits of `v`, by comparisons rather than by division. -/
def digits10 (v : Nat) : Nat :=
  if v < 10 then 1
  else if v < 100 then 2
  else if v < 1000 then 3
  else if v < 1000000000000 then
    if v < 100000000 then
      if v < 1000000 then
        if v < 10000 then 4 else 5 + (decide (v ≥ 100000)).toNat
      else 7 + (decide (v ≥ 10000000)).toNat
    else if v < 10000000000 then 9 + (decide (v ≥ 1000000000)).toNat
    else 11 + (decide (v ≥ 100000000000)).toNat
  else 12 + digits10 (v / 1000000000000)
termination_by v
decreasing_by omega

/-- The table of the hundred two-digit strings, `"00"` to `"99"`. -/
def digitPairs : Bytes := (List.range 100).flatMap fun i => [digitChar (i / 10), digitChar (i % 10)]

/-- The digits `ll2string` stores, from the last position backwards, two at a time; `acc` is what already
    stands behind them. -/
def ll2stringDigits (value : Nat) (acc : Bytes) : Bytes :=
  if 100 ≤ value then
    let i := value % 100 * 2
    ll2stringDigits (value / 100) (digitPairs.getD i 0 :: digitPairs.getD (i + 1) 0 :: acc)
  else if value < 10 then digitChar value :: acc
  else
    let i := value * 2
    digitPairs.getD i 0 :: digitPairs.getD (i + 1) 0 :: acc
termination_by value
decreasing_by omega

/-- `ll2string(dst, dstlen, svalue)`: the characters stored in `dst`, `[]` when the return value is 0.
    The loop counts down from `length`; should `digits10` overestimate, the positions it never reaches
    hold what the buffer held before (zero here). -/
def ll2string (dstlen : Nat) (svalue : Int) : Bytes :=
  let negative := decide (svalue < 0)
  let value := svalue.natAbs
  let length := digits10 value + negative.toNat
  if length ≥ dstlen then []
  else
    let digits := ll2stringDigits value []
    let dst := List.replicate (length - digits.length) 0 ++ digits
    if negative then dst.set 0 45 else dst

/-- **`digits10`** counts the digits. -/
theorem digits10_eq (v : Nat) : digits10 v = (decimal v).length := by
  induction v using Nat.strong_induction_on with
  | _ v ih =>
    unfold digits10
    -- one comparison per digit count; past twelve digits the recursion takes over
    split_ifs with h1 h2 h3 h12 h8 h6 h4 h10
    · simp [decimal_lt h1]
    · exact (decimal_length_eq (k := 1) (by omega) (by omega)).symm
    · exact (decimal_length_eq (k := 2) (by omega) (by omega)).symm
    · exact (decimal_length_eq (k := 3) (by omega) (by omega)).symm
    · by_cases h : v ≥ 100000
      · rw [decimal_length_eq (k := 5) (by omega) (by omega)]; simp [h]
      · rw [decimal_length_eq (k := 4) (by omega) (by omega)]; simp [h]
    · by_cases h : v ≥ 10000000
      · rw [decimal_length_eq (k := 7) (by omega) (by omega)]; simp [h]
      · rw [decimal_length_eq (k := 6) (by omega) (by omega)]; simp [h]
    · by_cases h : v ≥ 1000000000
      · rw [decimal_length_eq (k := 9) (by omega) (by omega)]; simp [h]
      · rw [decimal_length_eq (k := 8) (by omega) (by omega)]; simp [h]
    · by_cases h : v ≥ 100000000000
      · rw [decimal_length_eq (k := 11) (by omega) (by omega)]; simp [h]
      · rw [decimal_length_eq (k := 10) (by omega) (by omega)]; simp [h]
    · have hdiv : (decimal v).length = (decimal (v / 1000000000000)).length + 12 :=
        decimal_length_div 12 (by omega)
      rw [ih (v / 1000000000000) (by omega)]
      omega

theorem digitPairs_tens : ∀ i < 100, digitPairs.getD (i * 2) 0 = digitChar (i / 10) := by decide

theorem digitPairs_ones : ∀ i < 100, digitPairs.getD (i * 2 + 1) 0 = digitChar (i % 10) := by decide

/-- Two steps of `decimal` at once. -/
theorem decimal_hundred {n : Nat} (h : 100 ≤ n) :
    decimal n = decimal (n / 100) ++ [digitChar (n % 100 / 10), digitChar (n % 100 % 10)] := by
  rw [decimal_ge (by omega), decimal_ge (show 10 ≤ n / 10 by omega), Nat.div_div_eq_div_mul,
    List.append_assoc]
  have h1 : n / 10 % 10 = n % 100 / 10 := by omega
  have h2 : n % 10 = n % 100 % 10 := by omega
  rw [h1, h2]
  rfl

/-- The digits are written from the end. -/
theorem ll2stringDigits_eq (value : Nat) : ∀ acc, ll2stringDigits value acc = decimal value ++ acc := by
  induction value using Nat.strong_induction_on with
  | _ value ih =>
    intro acc
    unfold ll2stringDigits
    split_ifs with h100 h10
    · have hlt : value % 100 < 100 := Nat.mod_lt _ (by omega)
      simp only [digitPairs_tens _ hlt, digitPairs_ones _ hlt]
      rw [ih (value / 100) (by omega), decimal_hundred h100, List.append_assoc]
      rfl
    · rw [decimal_lt h10]
      rfl
    · have hlt : value < 100 := by omega
      simp only [digitPairs_tens _ hlt, digitPairs_ones _ hlt]
      rw [decimal_ge (by omega), decimal_lt (show value / 10 < 10 by omega)]
      rfl

/-- The text of an integer: a sign if it is negative, then its numeral. -/
def llText (v : Int) : Bytes := if v < 0 then 45 :: decimal v.natAbs else decimal v.natAbs

/-- With room for the terminator `ll2string` writes exactly the text of its argument. -/
theorem ll2string_eq {dstlen : Nat} {v : Int} (h : (llText v).length < dstlen) :
    ll2string dstlen v = llText v := by
  unfold ll2string llText at *
  by_cases hv : v < 0
  · simp only [hv, if_true, List.length_cons] at h
    simp only [hv, decide_true, Bool.toNat_true, digits10_eq, ll2stringDigits_eq, List.append_nil,
      Nat.add_sub_cancel_left, if_true]
    rw [if_neg (by omega)]
    rfl
  · simp only [hv, if_false] at h
    simp only [hv, decide_false, Bool.toNat_false, digits10_eq, ll2stringDigits_eq, List.append_nil,
      Nat.add_zero, Nat.sub_self, List.replicate_zero, List.nil_append, if_false, Bool.false_eq_true]
    rw [if_neg (by omega)]

theorem llText_length {v : Int} (h : LongLong v) : (llText v).length ≤ 20 := by
  have hlen : (decimal v.natAbs).length ≤ 19 := by
    apply decimal_length_le (k := 18)
    unfold LongLong at h
    omega
  unfold llText
  split
  · rw [List.length_cons]; omega
  · omega

/-! ## Decoding -/

/-- The digit loop of `string2ll`: `none` on overflow of `unsigned long long`, otherwise the value and the
    bytes the loop stopped at. -/
def string2llDigits (v : Nat) : Bytes → Option (Nat × Bytes)
  | [] => some (v, [])
  | c :: p =>
    if isDigit c then
      if v > (2 ^ 64 - 1) / 10 then none
      else if v * 10 > 2 ^ 64 - 1 - (c.toNat - 48) then none
      else string2llDigits (v * 10 + (c.toNat - 48)) p
    else some (v, c :: p)

/-- `string2ll(s, slen, &value)`: the value when the return value is 1. -/
def string2ll (s : Bytes) : Option Int :=
  if s = [] then none
  else if s = [48] then some 0
  else
    let negative := s.head? == some 45
    let p := if negative then s.tail else s
    match p with
    | [] => none
    | c :: p =>
      -- the first digit is 1-9: the single character 0 was handled above
      if 49 ≤ c ∧ c ≤ 57 then
        match string2llDigits (c.toNat - 48) p with
        | none => none
        | some (_, _ :: _) => none
        | some (v, []) =>
          if negative then if v > 2 ^ 63 then none else some (-(v : Int))
          else if v > 2 ^ 63 - 1 then none else some (v : Int)
      else none

/-- The digits are read from the front. -/
theorem string2llDigits_eq {b : Bytes} (hb : ∀ c ∈ b, isDigit c = true) :
    ∀ v, digitsValue v b < 2 ^ 64 → string2llDigits v b = some (digitsValue v b, []) := by
  induction b with
  | nil => intro v _; rfl
  | cons c b ih =>
    intro v hlt
    have hc : isDigit c = true := hb c List.mem_cons_self
    have hb' : ∀ d ∈ b, isDigit d = true := fun d hd => hb d (List.mem_cons_of_mem _ hd)
    have hd := (isDigit_iff c).mp hc
    have hmono : v * 10 + (c.toNat - 48) ≤ digitsValue (v * 10 + (c.toNat - 48)) b :=
      digitsValue_ge hb' _
    simp only [digitsValue, hc, if_true] at hlt
    simp only [string2llDigits, hc, if_true, digitsValue]
    rw [if_neg (by omega), if_neg (by omega)]
    exact ih hb' _ hlt
where
  digitsValue_ge {b : Bytes} (hb : ∀ c ∈ b, isDigit c = true) : ∀ v, v ≤ digitsValue v b := by
    induction b with
    | nil => intro v; exact Nat.le_refl v
    | cons c b ih =>
        intro v
        simp only [digitsValue, hb c List.mem_cons_self, if_true]
        exact le_trans (by omega) (ih (fun d hd => hb d (List.mem_cons_of_mem _ hd)) _)

/-- The first digit of a positive number is not 0. -/
theorem decimal_head {n : Nat} (h : 0 < n) :
    ∃ d b, 0 < d ∧ d < 10 ∧ decimal n = digitChar d :: b := by
  induction n using Nat.strong_induction_on with
  | _ n ih =>
    by_cases hn : n < 10
    · exact ⟨n, [], h, hn, decimal_lt hn⟩
    · obtain ⟨d, b, h0, h9, hd⟩ := ih (n / 10) (by omega) (by omega)
      exact ⟨d, b ++ [digitChar (n % 10)], h0, h9, by
        rw [decimal_ge (Nat.le_of_not_lt hn), hd]; rfl⟩

/-- The digit part of `string2ll` reads a positive numeral back. -/
theorem string2llDigits_decimal {n d : Nat} {b : Bytes} (hd : d < 10)
    (hn : decimal n = digitChar d :: b) (hlt : n < 2 ^ 64) :
    string2llDigits ((digitChar d).toNat - 48) b = some (n, []) := by
  have hall := decimal_isDigit n
  have hval := digitsValue_decimal n 0
  rw [hn] at hall hval
  simp only [digitsValue, isDigit_digitChar hd, if_true, Nat.zero_mul, Nat.zero_add] at hval
  rw [← hval]
  apply string2llDigits_eq (fun c hc => hall c (List.mem_cons_of_mem _ hc))
  rw [hval]
  exact hlt

theorem firstDigit_range {d : Nat} (h0 : 0 < d) (h9 : d < 10) :
    (49 : UInt8) ≤ digitChar d ∧ digitChar d ≤ 57 := by
  simp only [UInt8.le_iff_toNat_le, digitChar_toNat h9]
  exact ⟨show 49 ≤ 48 + d by omega, show 48 + d ≤ 57 by omega⟩

theorem digitChar_ne {d : Nat} (h9 : d < 10) {c : UInt8} (hc : c.toNat < 48 + d) : digitChar d ≠ c := by
  intro heq
  have hd := digitChar_toNat h9
  rw [heq] at hd
  omega

/-- **Round trip.** `string2ll` reads the text of any `long long` back. -/
theorem string2ll_llText {v : Int} (h : LongLong v) : string2ll (llText v) = some v := by
  unfold LongLong at h
  rcases Int.lt_trichotomy v 0 with hv | rfl | hv
  · obtain ⟨d, b, h0, h9, hd⟩ := decimal_head (n := v.natAbs) (by omega)
    have hrd := string2llDigits_decimal h9 hd (by omega)
    have h1 := firstDigit_range h0 h9
    simp only [llText, if_pos hv, hd, string2ll, List.cons_ne_nil, if_false, List.cons.injEq,
      List.head?_cons, beq_self_eq_true, if_true, List.tail_cons, if_pos h1, hrd]
    rw [if_neg (by simp), if_neg (by omega)]
    congr 1
    omega
  · rw [llText, if_neg (by omega), Int.natAbs_zero, decimal_lt (by omega)]
    decide
  · obtain ⟨d, b, h0, h9, hd⟩ := decimal_head (n := v.natAbs) (by omega)
    have hrd := string2llDigits_decimal h9 hd (by omega)
    have h1 := firstDigit_range h0 h9
    have hne : digitChar d ≠ 48 := digitChar_ne h9 (show 48 < 48 + d by omega)
    have hne' : digitChar d ≠ 45 := digitChar_ne h9 (show 45 < 48 + d by omega)
    have hneg : (some (digitChar d) == some (45 : UInt8)) = false := by simpa using hne'
    simp only [llText, if_neg (not_lt.mpr hv.le), hd, string2ll, List.cons_ne_nil, if_false,
      List.cons.injEq, List.head?_cons, hne, false_and, hneg, Bool.false_eq_true, if_pos h1, hrd]
    rw [if_neg (by omega)]
    congr 1
    omega

end Prez
