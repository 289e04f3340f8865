import Prez.Lib.Bytes

/-!
# `Lib.Words` — machine words and fixed-size fields in memory

Little- and big-endian words, two's complement, zero-padded string fields and slices of a byte string: what
the layout of a C struct is read and written with.
-/

namespace Lib

/-! ## Words -/

/-- The `k` low bytes of `x`, least significant first. -/
def leBytes : Nat → Nat → Bytes
  | 0, _ => []
  | k + 1, x => UInt8.ofNat x :: leBytes k (x / 256)

/-- The number with the given bytes, least significant first. -/
def leNat : Bytes → Nat
  | [] => 0
  | c :: b => c.toNat + 256 * leNat b

/-- Network byte order. -/
def beBytes (k x : Nat) : Bytes := (leBytes k x).reverse

def beNat (b : Bytes) : Nat := leNat b.reverse

@[simp] theorem leBytes_length (k x : Nat) : (leBytes k x).length = k := by
  induction k generalizing x with
  | zero => rfl
  | succ k ih => simp [leBytes, ih]

@[simp] theorem beBytes_length (k x : Nat) : (beBytes k x).length = k := by
  simp [beBytes]

theorem leNat_leBytes (k x : Nat) : leNat (leBytes k x) = x % 256 ^ k := by
  induction k generalizing x with
  | zero => simp [leBytes, leNat, Nat.mod_one]
  | succ k ih =>
    rw [leBytes, leNat, ih, UInt8.toNat_ofNat', Nat.pow_succ' (m := 256), Nat.mod_mul]

theorem beNat_beBytes {k x : Nat} (h : x < 256 ^ k) : beNat (beBytes k x) = x := by
  rw [beNat, beBytes, List.reverse_reverse, leNat_leBytes, Nat.mod_eq_of_lt h]

/-- A `long long` in memory. -/
def longLongBytes (x : Int) : Bytes := leBytes 8 (x % 2 ^ 64).toNat

/-- The `long long` with the given bytes. -/
def longLongOf (b : Bytes) : Int := ((leNat b : Int) + 2 ^ 63) % 2 ^ 64 - 2 ^ 63

@[simp] theorem longLongBytes_length (x : Int) : (longLongBytes x).length = 8 := leBytes_length 8 _

theorem longLongOf_longLongBytes {x : Int} (h : LongLong x) : longLongOf (longLongBytes x) = x := by
  rw [longLongOf, longLongBytes, leNat_leBytes]
  obtain ⟨h1, h2⟩ := h
  have hnn : 0 ≤ x % 2 ^ 64 := Int.emod_nonneg x (by decide)
  have hlt : x % 2 ^ 64 < 2 ^ 64 := Int.emod_lt_of_pos x (by decide)
  have hmod : (x % 2 ^ 64).toNat % 256 ^ 8 = (x % 2 ^ 64).toNat := Nat.mod_eq_of_lt (by omega)
  rw [hmod]
  omega

/-! ## Fields -/

/-- A zeroed field of `k` bytes with `b` copied to its start. -/
def field (k : Nat) (b : Bytes) : Bytes := b ++ List.replicate (k - b.length) 0

theorem field_length {k : Nat} {b : Bytes} (h : b.length ≤ k) : (field k b).length = k := by
  simp only [field, List.length_append, List.length_replicate]
  omega

/-- The C string in a field that leaves room for the terminator. -/
theorem cstr_field_append {n : Nat} (s : CStr n) (rest : Bytes) : cstr (field n s.bytes ++ rest) = s.bytes := by
  have hpos : n - s.bytes.length = (n - s.bytes.length - 1) + 1 := by
    have := s.fits
    omega
  rw [field, hpos, List.replicate_succ, List.append_assoc, List.cons_append, cstr_append_nul s.nulFree]

/-- The `k` bytes that are copied from a C string: the string, its terminator and what stands behind it. -/
def window (k : Nat) (behind : Nat → UInt8) (s : Bytes) : Bytes := (s ++ 0 :: List.ofFn fun j : Fin k => behind j).take k

@[simp] theorem window_length (k : Nat) (behind : Nat → UInt8) (s : Bytes) : (window k behind s).length = k := by
  rw [window, List.length_take, List.length_append, List.length_cons, List.length_ofFn]
  omega

/-- The copy of a string that leaves room for its terminator. -/
theorem window_eq {k : Nat} (behind : Nat → UInt8) {s : Bytes} (h : s.length < k) :
    ∃ junk, window k behind s = s ++ 0 :: junk := by
  obtain ⟨m, rfl⟩ : ∃ m, k = s.length + (m + 1) := ⟨k - s.length - 1, by omega⟩
  exact ⟨_, by rw [window, List.take_length_add_append, List.take_succ_cons]⟩

/-! ## Slices -/

/-- `len` bytes at offset `off`. -/
def slice (off len : Nat) (b : Bytes) : Bytes := (b.drop off).take len

/-- The slice behind a part of known length. -/
theorem slice_append_right {a : Bytes} {off : Nat} (len : Nat) (b : Bytes) (h : a.length ≤ off) :
    slice off len (a ++ b) = slice (off - a.length) len b := by
  rw [slice, slice, List.drop_append, List.drop_eq_nil_of_le h, List.nil_append]

theorem slice_append_left {a : Bytes} {off len : Nat} (b : Bytes) (h : off + len ≤ a.length) :
    slice off len (a ++ b) = slice off len a := by
  rw [slice, slice, List.drop_append_of_le_length (by omega), List.take_append_of_le_length]
  rw [List.length_drop]
  omega

/-- The slice behind a part of known length, with the offset it has there. -/
theorem slice_skip {a : Bytes} {off len : Nat} (k : Nat) (b : Bytes) (h : off = a.length + k) :
    slice off len (a ++ b) = slice k len b := by
  rw [slice_append_right _ _ (by omega), h, Nat.add_sub_cancel_left]

/-- The slice that is the first part. -/
theorem slice_first {a : Bytes} {len : Nat} (b : Bytes) (h : a.length = len) : slice 0 len (a ++ b) = a := by
  rw [slice_append_left _ (by omega), slice, List.drop_zero, List.take_of_length_le (by omega)]

end Lib
