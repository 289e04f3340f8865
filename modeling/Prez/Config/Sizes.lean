import Prez.Config.Load
import Prez.Config.Exact

/-!
# `Prez.Config.Sizes` — memory sizes

`memtoll` reads an amount of memory: digits with an optional minus, and a unit. It reports an unknown unit, and digits that do
not fit its buffer, through `err`. What it does not report is a number that `strtoll` cut off at a limit of `long long`, and a
product with the unit that is no `long long`. `memory_sizes_exact` says that these are the only sizes it gets wrong.
-/

namespace Prez

open Lib

/-! ## `memtoll` with its error -/

/-- The units that are known. -/
def memtollUnit? (u : Bytes) : Option Int :=
  if u = [] ∨ strcaseEq u (ascii "b") then some 1
  else if strcaseEq u (ascii "k") then some 1000
  else if strcaseEq u (ascii "kb") then some 1024
  else if strcaseEq u (ascii "m") then some (1000 * 1000)
  else if strcaseEq u (ascii "mb") then some (1024 * 1024)
  else if strcaseEq u (ascii "g") then some (1000 * 1000 * 1000)
  else if strcaseEq u (ascii "gb") then some (1024 * 1024 * 1024)
  else none

/-- `if (*u == '-') u++`. -/
def skipMinus : Bytes → Bytes
  | 45 :: b => b
  | b => b

/-- `memtoll(p, &err)`: the value and `err`. `none` is a product that is no `long long`. -/
def memtollErr (p : Bytes) : Option (Int × Bool) :=
  let p := cstr p
  let u := (skipMinus p).dropWhile isDigit
  let err := (memtollUnit? u).isNone
  let mul := (memtollUnit? u).getD 1
  let digits := p.length - u.length
  if 128 ≤ digits then some (2 ^ 63 - 1, true)
  else
    let val := strtol (p.take digits) * mul
    if LongLong val then some (val, err) else none

theorem memtollUnit_eq (u : Bytes) : memtollUnit u = (memtollUnit? u).getD 1 := by
  unfold memtollUnit memtollUnit?
  split_ifs <;> rfl

/-- Without the error it is the function that loads the limits of the output buffers. -/
theorem memtoll_eq (p : Bytes) : memtoll p = (memtollErr p).map Prod.fst := by
  have hmemtoll : memtoll p =
      let u := (skipMinus (cstr p)).dropWhile isDigit
      if 128 ≤ (cstr p).length - u.length then some (2 ^ 63 - 1)
      else if LongLong (strtol ((cstr p).take ((cstr p).length - u.length)) * memtollUnit u) then
        some (strtol ((cstr p).take ((cstr p).length - u.length)) * memtollUnit u)
      else none := rfl
  rw [hmemtoll, memtollErr]
  dsimp only
  rw [memtollUnit_eq]
  split_ifs <;> rfl

/-- Multipliers are positive. -/
theorem memtollUnit?_pos {u : Bytes} {mul : Int} (h : memtollUnit? u = some mul) : 1 ≤ mul := by
  unfold memtollUnit? at h
  split_ifs at h <;> cases h <;> decide

/-! ## The text of a size -/

section

variable {w u : Bytes} {n : Int}

/-- Digits with an optional minus, and what follows them. -/
structure SizeText (w : Bytes) (n : Int) (u : Bytes) : Prop where
  number : DecimalText w n
  sign : w.head? ≠ some 43
  rest : u.head?.any isDigit = false
  string : (0 : UInt8) ∉ u

/-- The suffix begins where the digits end. -/
theorem dropWhile_digits {b : Bytes} (hb : ∀ d ∈ b, isDigit d = true) (hu : u.head?.any isDigit = false) :
    (b ++ u).dropWhile isDigit = u := by
  rw [List.dropWhile_append_of_pos hb]
  cases u with
  | nil => rfl
  | cons c u => exact List.dropWhile_cons_of_neg (by simpa using hu)

theorem SizeText.unit (h : SizeText w n u) : (skipMinus (w ++ u)).dropWhile isDigit = u := by
  obtain ⟨hnum, hsign, hrest, -⟩ := h
  cases hnum with
  | plain digits ne =>
    obtain ⟨c, b, rfl⟩ := List.exists_cons_of_ne_nil ne
    have hc : c ≠ 45 := by
      rintro rfl
      exact absurd (digits 45 List.mem_cons_self) (by decide)
    have hskip : skipMinus (c :: b ++ u) = c :: b ++ u := by
      rw [List.cons_append]
      unfold skipMinus
      split
      · rename_i heq
        exact absurd (List.cons.inj heq).1 hc
      · rfl
    rw [hskip, dropWhile_digits digits hrest]
  | plus => exact absurd rfl hsign
  | minus digits => exact dropWhile_digits digits hrest

/-- What `memtoll` computes for a size. -/
theorem SizeText.memtollErr (h : SizeText w n u) :
    memtollErr (w ++ u) =
      if 128 ≤ w.length then some (2 ^ 63 - 1, true)
      else if LongLong (strtol w * (memtollUnit? u).getD 1) then
        some (strtol w * (memtollUnit? u).getD 1, (memtollUnit? u).isNone)
      else none := by
  have hstring : cstr (w ++ u) = w ++ u := by
    refine cstr_eq_self fun hmem => ?_
    rcases List.mem_append.mp hmem with hw | hu
    · exact h.number.numberText.zero hw
    · exact h.string hu
  have hlength : (w ++ u).length - u.length = w.length := by
    rw [List.length_append, Nat.add_sub_cancel]
  unfold Prez.memtollErr
  rw [hstring]
  dsimp only
  rw [h.unit, hlength, List.take_left]

/-- `memtoll` reports an error, or the unit is known and the result is the number times its multiplier. -/
def SizeExact (w : Bytes) (n : Int) (u : Bytes) : Prop :=
  ∃ val err, memtollErr (w ++ u) = some (val, err) ∧
    (err = true ∨ ∃ mul, memtollUnit? u = some mul ∧ val = n * mul)

/-- A product that is a `long long` is one of a `long long`. -/
theorem longLong_of_mul {mul : Int} (hmul : 1 ≤ mul) (h : LongLong (n * mul)) : LongLong n := by
  unfold LongLong at h ⊢
  constructor <;> nlinarith

/-- A known unit, and digits that fit the buffer: the product decides. -/
theorem SizeText.exact_known (h : SizeText w n u) (hshort : ¬ 128 ≤ w.length) {mul : Int} (hu : memtollUnit? u = some mul) :
    SizeExact w n u ↔ LongLong (n * mul) := by
  have hrun : Prez.memtollErr (w ++ u) = if LongLong (strtol w * mul) then some (strtol w * mul, false) else none := by
    rw [h.memtollErr, if_neg hshort, hu]
    rfl
  unfold SizeExact
  rw [hrun]
  constructor
  · rintro ⟨val, err, hval, herr⟩
    by_cases hlong : LongLong (strtol w * mul)
    · rw [if_pos hlong] at hval
      cases hval
      obtain ⟨mul', hmul', heq⟩ := herr.resolve_left Bool.false_ne_true
      cases hu.symm.trans hmul'
      rw [← heq]
      exact hlong
    · rw [if_neg hlong] at hval
      cases hval
  · intro hlong
    rw [h.number.converted.value (longLong_of_mul (memtollUnit?_pos hu) hlong), if_pos hlong]
    exact ⟨_, _, rfl, .inr ⟨mul, hu, rfl⟩⟩

theorem strtol_longLong (b : Bytes) : LongLong (strtol b) := by
  unfold LongLong strtol
  split <;> omega

/-- An unknown unit is reported. -/
theorem SizeText.exact_unknown (h : SizeText w n u) (hu : memtollUnit? u = none) : SizeExact w n u := by
  unfold SizeExact
  rw [h.memtollErr, hu]
  by_cases hlong : 128 ≤ w.length
  · rw [if_pos hlong]
    exact ⟨_, _, rfl, .inl rfl⟩
  · have hval : LongLong (strtol w * (none : Option Int).getD 1) := by
      rw [Option.getD_none, mul_one]
      exact strtol_longLong w
    rw [if_neg hlong, if_pos hval]
    exact ⟨_, _, rfl, .inl rfl⟩

/-- **Memory sizes.** For digits with an optional minus and any suffix, `memtoll` reports an error or gives exactly the number
    times the multiplier of the unit, if and only if the digits do not fit its buffer, the unit is not known, or that product
    is a `long long`. -/
theorem memory_sizes_exact (w : Bytes) (n : Int) (u : Bytes) (h : SizeText w n u) :
    SizeExact w n u ↔ 128 ≤ w.length ∨ memtollUnit? u = none ∨ ∃ mul, memtollUnit? u = some mul ∧ LongLong (n * mul) := by
  by_cases hlong : 128 ≤ w.length
  · refine iff_of_true ?_ (.inl hlong)
    unfold SizeExact
    rw [h.memtollErr, if_pos hlong]
    exact ⟨_, _, rfl, .inl rfl⟩
  cases hu : memtollUnit? u with
  | none => exact iff_of_true (h.exact_unknown hu) (.inr (.inl rfl))
  | some mul =>
      rw [h.exact_known hlong hu]
      constructor
      · exact fun hmul => .inr (.inr ⟨mul, rfl, hmul⟩)
      · rintro (hbuf | hnone | ⟨mul', hmul', hval⟩)
        · exact absurd hbuf hlong
        · cases hnone
        · cases hmul'
          exact hval

end

/-- The hypotheses at work: 64 megabytes. -/
theorem memory_sizes_exact_mb : SizeExact (ascii "64") 64 (ascii "mb") :=
  (memory_sizes_exact (ascii "64") 64 (ascii "mb")
    ⟨.plain (by decide +kernel) (by decide +kernel), by decide +kernel, by decide +kernel, by decide +kernel⟩).mpr
    (.inr (.inr ⟨1024 * 1024, by decide +kernel, by decide⟩))

/-- 2⁶³ bytes: `strtoll` stops at `LLONG_MAX`, and no error is reported. -/
theorem memory_size_saturates : memtollErr (ascii "9223372036854775808") = some (2 ^ 63 - 1, false) := by
  decide +kernel

end Prez
