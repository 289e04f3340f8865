import Mathlib.Algebra.Ring.Int.Defs
import Mathlib.Algebra.Ring.Nat
import Mathlib.Data.List.TakeWhile
import Mathlib.Tactic.Common

/-!
# `Lib.Bytes` — byte strings, C strings and buffered reads

Byte-level vocabulary for programs that work on NUL-terminated strings and read their files through the
C library. Nothing here knows which program uses it.

## Contents
- **C strings.** `cstr` (the bytes before the terminator), `CStr n` (a C string that fits a field of `n`
  bytes together with its terminator), the C-locale classifiers `isSpace` / `toLower`.
- **Reads.** `fgets` and `fread` as functions from the unread input to what was read and what is left.
- **Numbers.** `strtol` in base ten, with its saturation, and the conversions `toULong` / `toInt32`.
-/

namespace Lib

/-- A byte string. -/
abbrev Bytes := List UInt8

/-! ## C strings -/

/-- The C string stored at the start of `b`: everything before the first NUL. -/
def cstr (b : Bytes) : Bytes := b.takeWhile (fun c => c != 0)

/-- A C string that fits a field of `n` bytes together with its terminator. -/
structure CStr (n : Nat) where
  bytes : Bytes
  nulFree : (0 : UInt8) ∉ bytes
  fits : bytes.length < n
deriving DecidableEq

/-- The C string with the given bytes, when it fits. -/
def CStr.ofBytes? (n : Nat) (b : Bytes) : Option (CStr n) :=
  if h : (0 : UInt8) ∉ b ∧ b.length < n then some ⟨b, h.1, h.2⟩ else none

theorem CStr.ofBytes?_eq_some {n : Nat} {b : Bytes} {s : CStr n} :
    CStr.ofBytes? n b = some s ↔ s.bytes = b := by
  unfold CStr.ofBytes?
  constructor
  · intro h
    split at h
    · cases h; rfl
    · cases h
  · intro h
    subst h
    rw [dif_pos ⟨s.nulFree, s.fits⟩]

theorem CStr.ofBytes?_isSome {n : Nat} {b : Bytes} :
    (CStr.ofBytes? n b).isSome = true ↔ (0 : UInt8) ∉ b ∧ b.length < n := by
  unfold CStr.ofBytes?
  split <;> simp_all

theorem cstr_eq_self {b : Bytes} (h : (0 : UInt8) ∉ b) : cstr b = b := by
  unfold cstr
  rw [List.takeWhile_eq_self_iff]
  intro c hc
  have hne : c ≠ 0 := fun h0 => h (h0 ▸ hc)
  simpa using hne

/-- A string ends at its terminator. -/
theorem cstr_append_nul {b : Bytes} (h : (0 : UInt8) ∉ b) (x : Bytes) : cstr (b ++ 0 :: x) = b := by
  have hall : ∀ c ∈ b, (c != 0) = true := fun c hc => bne_iff_ne.mpr fun h0 => h (h0 ▸ hc)
  rw [cstr, List.takeWhile_append_of_pos hall, List.takeWhile_cons_of_neg (by decide), List.append_nil]

theorem zero_notMem_cstr (b : Bytes) : (0 : UInt8) ∉ cstr b := by
  intro h
  have := List.mem_takeWhile_imp h
  simp at this

/-- `isspace` in the C locale. -/
def isSpace (c : UInt8) : Bool :=
  c == 32 || c == 9 || c == 10 || c == 11 || c == 12 || c == 13

/-- `tolower` in the C locale. -/
def toLower (c : UInt8) : UInt8 := if 65 ≤ c ∧ c ≤ 90 then c + 32 else c

/-- `strcasecmp(a, b) == 0`. -/
def strcaseEq (a b : Bytes) : Bool := (cstr a).map toLower == (cstr b).map toLower

/-- Is `c` one of the characters `'0'`..`'9'`? -/
def isDigit (c : UInt8) : Bool := 48 ≤ c && c ≤ 57

/-! ## Buffered reads -/

/-- Cut after the first newline, or after `k` bytes if that comes first. -/
def splitLine : Nat → Bytes → Bytes × Bytes
  | 0, inp => ([], inp)
  | _ + 1, [] => ([], [])
  | k + 1, c :: inp =>
    if c = 10 then ([c], inp)
    else ((c :: (splitLine k inp).1), (splitLine k inp).2)

/-- `fgets(buf, size, fp)`: the line read (newline included) and the input left; `none` is the NULL
    returned when the end of the file is reached before any byte was read. -/
def fgets (size : Nat) (inp : Bytes) : Option (Bytes × Bytes) :=
  match inp with
  | [] => none
  | _ :: _ => some (splitLine (size - 1) inp)

/-- `fread(ptr, len, 1, fp)`: one item of `len` bytes, or `none` for the return value 0. -/
def fread (len : Nat) (inp : Bytes) : Option (Bytes × Bytes) :=
  if len ≤ inp.length then some (inp.take len, inp.drop len) else none

/-- Bytes before the first newline are read one by one. -/
theorem splitLine_append {l : Bytes} (hnl : (10 : UInt8) ∉ l) (rest : Bytes) (k : Nat) :
    splitLine (l.length + k) (l ++ rest) = (l ++ (splitLine k rest).1, (splitLine k rest).2) := by
  induction l with
  | nil => rw [List.length_nil, Nat.zero_add, List.nil_append, List.nil_append]
  | cons c l ih =>
    obtain ⟨hc, hl⟩ := not_or.mp (mt List.mem_cons.mpr hnl)
    rw [List.length_cons, Nat.add_right_comm, List.cons_append, splitLine, if_neg (Ne.symm hc), ih hl]
    rfl

theorem fgets_of_ne {inp : Bytes} (hne : inp ≠ []) (size : Nat) : fgets size inp = some (splitLine (size - 1) inp) := by
  cases inp with
  | nil => exact absurd rfl hne
  | cons c inp => rfl

/-- A line that ends in its only newline and fits the buffer is read whole. -/
theorem fgets_line {l rest : Bytes} {size : Nat} (hnl : (10 : UInt8) ∉ l)
    (hk : l.length + 1 < size) : fgets size (l ++ 10 :: rest) = some (l ++ [10], rest) := by
  rw [fgets_of_ne (by simp), show size - 1 = l.length + (size - l.length - 2 + 1) by omega, splitLine_append hnl, splitLine,
    if_pos rfl]

/-- A last line without newline is read up to the end of the file. -/
theorem fgets_eof {l : Bytes} {size : Nat} (hne : l ≠ []) (hnl : (10 : UInt8) ∉ l)
    (hk : l.length < size) : fgets size l = some (l, []) := by
  have hs := splitLine_append hnl [] (size - 1 - l.length)
  rw [List.append_nil, Nat.add_sub_cancel' (by omega)] at hs
  rw [fgets_of_ne hne, hs]
  cases size - 1 - l.length <;> simp [splitLine]

/-- A line that does not fit the buffer is cut. -/
theorem fgets_cut {l : Bytes} {size : Nat} (hnl : (10 : UInt8) ∉ l) (hne : l ≠ []) (hk : size ≤ l.length + 1) (rest : Bytes) :
    fgets size (l ++ rest) = some (l.take (size - 1), l.drop (size - 1) ++ rest) := by
  have hs := splitLine_append (l := l.take (size - 1)) (fun h => hnl (List.mem_of_mem_take h)) (l.drop (size - 1) ++ rest) 0
  rw [List.length_take, min_eq_left (by omega), ← List.append_assoc, List.take_append_drop, splitLine, List.append_nil] at hs
  rw [fgets_of_ne (by simp [hne])]
  exact congrArg some hs

theorem fread_append (b rest : Bytes) : fread b.length (b ++ rest) = some (b, rest) := by
  simp [fread]

theorem fread_short {len : Nat} {inp : Bytes} (h : inp.length < len) : fread len inp = none := by
  rw [fread, if_neg (by omega)]

/-! ## Numbers in text -/

/-- The value of the longest digit prefix, continuing from `acc`. -/
def digitsValue (acc : Nat) : Bytes → Nat
  | [] => acc
  | c :: b => if isDigit c then digitsValue (acc * 10 + (c.toNat - 48)) b else acc

/-- `strtol(s, NULL, 10)` on a 64-bit `long`: blanks, an optional sign, digits; saturating. -/
def strtol (s : Bytes) : Int :=
  match (cstr s).dropWhile isSpace with
  | 45 :: b => max (-(digitsValue 0 b : Int)) (-(2 ^ 63))
  | 43 :: b => min (digitsValue 0 b : Int) (2 ^ 63 - 1)
  | b => min (digitsValue 0 b : Int) (2 ^ 63 - 1)

/-- A `long long` converted to a 64-bit unsigned type. -/
def toULong (x : Int) : Int := if x < 0 then x + 2 ^ 64 else x

/-- A `long` converted to a 32-bit `int`, two's complement. -/
def toInt32 (x : Int) : Int := (x + 2 ^ 31) % 2 ^ 32 - 2 ^ 31

theorem toInt32_range (x : Int) : -(2 ^ 31) ≤ toInt32 x ∧ toInt32 x < 2 ^ 31 := by
  unfold toInt32
  omega

/-- `atoi(s)`. -/
def atoi (s : Bytes) : Int := toInt32 (strtol s)

/-- The values a `long long` can hold. -/
def LongLong (x : Int) : Prop := -(2 ^ 63) ≤ x ∧ x < 2 ^ 63
deriving Decidable

end Lib
