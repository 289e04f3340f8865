import Mathlib.Data.List.Basic
import Mathlib.Tactic.Common

/-!
# `Lib.Prefix` — cutting lists

How a prefix of a concatenation falls on its parts.
-/

namespace Lib

variable {α : Type*}

/-- A prefix of a concatenation either stays strictly inside the first part or contains it. -/
theorem prefix_append_cases {t a b : List α} (h : t <+: a ++ b) :
    t <+: a ∧ t ≠ a ∨ ∃ t', t = a ++ t' ∧ t' <+: b := by
  rcases List.prefix_or_prefix_of_prefix h (List.prefix_append a b) with h' | h'
  · by_cases hta : t = a
    · exact .inr ⟨[], by simp [hta], List.nil_prefix⟩
    · exact .inl ⟨h', hta⟩
  · obtain ⟨t', rfl⟩ := h'
    exact .inr ⟨t', rfl, (List.prefix_append_right_inj a).mp h⟩

/-- A proper prefix is shorter. -/
theorem length_lt_of_prefix {t a : List α} (h : t <+: a) (hne : t ≠ a) : t.length < a.length :=
  Nat.lt_of_le_of_ne h.length_le fun hl => hne (h.eq_of_length hl)

/-- A list and an extension of it have the same short prefixes. -/
theorem take_of_isPrefix {l l' : List α} (h : l <+: l') {i : Nat} (hi : i ≤ l.length) : l'.take i = l.take i := by
  obtain ⟨r, rfl⟩ := h
  exact List.take_append_of_le_length hi

theorem take_prefix_take_of_le (l : List α) {i j : Nat} (h : i ≤ j) : l.take i <+: l.take j :=
  List.take_prefix_take_left h

/-- Two prefixes of one list are ordered by length. -/
theorem prefix_of_length_le {a b l : List α} (ha : a <+: l) (hb : b <+: l) (h : a.length ≤ b.length) : a <+: b :=
  List.prefix_of_prefix_length_le ha hb h

/-- An extension of a list has its entries. -/
theorem getElem?_of_isPrefix {l l' : List α} (h : l <+: l') {k : Nat} {a : α} (hk : l[k]? = some a) :
    l'[k]? = some a := by
  obtain ⟨r, rfl⟩ := h
  rw [List.getElem?_append_left (List.getElem?_eq_some_iff.mp hk).1]
  exact hk

end Lib
