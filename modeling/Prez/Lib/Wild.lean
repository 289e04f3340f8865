import Mathlib.Tactic.SplitIfs
import Mathlib.Tactic.Tauto

/-!
# `Lib.Wild` — wildcard patterns and their languages

A pattern is a list of tokens: a star, which stands for any sequence, or a test for one element. `Matches` is
its language. A backtracking matcher walks the string from the left, so the module gives the language in that
form: one lemma for each token at the head of the pattern and each form of the string.

`Reaches` is about a pattern that goes on: a proper prefix of the string matches what there is of it, so a
matcher gets to its end with something of the string left.
-/

namespace Lib

/-- A token of a wildcard pattern. -/
inductive Wild (α : Type) where
  | star
  | one (p : α → Bool)

namespace Wild

variable {α : Type}

def isStar : Wild α → Bool
  | .star => true
  | .one _ => false

/-- The language of a pattern. -/
def Matches : List (Wild α) → List α → Prop
  | [], s => s = []
  | .star :: ts, s => ∃ u v, s = u ++ v ∧ Matches ts v
  | .one p :: ts, s => ∃ a r, s = a :: r ∧ p a = true ∧ Matches ts r

variable {ts : List (Wild α)} {p : α → Bool} {a : α} {s : List α}

/-- One element for one token. -/
theorem matches_one_cons : Matches (.one p :: ts) (a :: s) ↔ p a = true ∧ Matches ts s := by
  constructor
  · rintro ⟨b, r, heq, hp, hm⟩
    cases heq
    exact ⟨hp, hm⟩
  · rintro ⟨hp, hm⟩
    exact ⟨a, s, rfl, hp, hm⟩

theorem not_matches_one_nil : ¬ Matches (.one p :: ts) [] := by
  rintro ⟨b, r, heq, _⟩
  cases heq

/-- A star takes nothing. -/
theorem matches_star_nil : Matches (.star :: ts) [] ↔ Matches ts [] := by
  constructor
  · rintro ⟨u, v, heq, hm⟩
    obtain ⟨rfl, rfl⟩ := List.append_eq_nil_iff.mp heq.symm
    exact hm
  · exact fun hm => ⟨[], [], rfl, hm⟩

theorem matches_star_of (hm : Matches ts s) : Matches (.star :: ts) s := ⟨[], s, rfl, hm⟩

/-- A star takes nothing, or one element and goes on. -/
theorem matches_star_cons : Matches (.star :: ts) (a :: s) ↔ Matches ts (a :: s) ∨ Matches (.star :: ts) s := by
  constructor
  · rintro ⟨u, v, heq, hm⟩
    cases u with
    | nil => exact .inl (by rw [List.nil_append] at heq; rw [heq]; exact hm)
    | cons b u =>
      cases heq
      exact .inr ⟨u, v, rfl, hm⟩
  · rintro (hm | ⟨u, v, rfl, hm⟩)
    · exact matches_star_of hm
    · exact ⟨a :: u, v, rfl, hm⟩

/-- Two stars are one. -/
theorem matches_star_star : Matches (.star :: .star :: ts) s ↔ Matches (.star :: ts) s := by
  constructor
  · rintro ⟨u, v, rfl, u', v', rfl, hm⟩
    exact ⟨u ++ u', v', by rw [List.append_assoc], hm⟩
  · exact matches_star_of

/-- Stars in a row are one star. -/
theorem matches_dropStars (ts : List (Wild α)) :
    Matches (.star :: ts.dropWhile isStar) s ↔ Matches (.star :: ts) s := by
  induction ts with
  | nil => rfl
  | cons t ts ih =>
    cases t with
    | star =>
      rw [List.dropWhile_cons_of_pos rfl, ih]
      exact matches_star_star.symm
    | one p => rw [List.dropWhile_cons_of_neg (by simp [isStar])]

theorem matches_nil_iff (ts : List (Wild α)) : Matches ts [] ↔ ts.dropWhile isStar = [] := by
  induction ts with
  | nil => exact ⟨fun _ => rfl, fun _ => rfl⟩
  | cons t ts ih =>
    cases t with
    | star => rw [matches_star_nil, ih, List.dropWhile_cons_of_pos rfl]
    | one p =>
      rw [List.dropWhile_cons_of_neg (by simp [isStar])]
      exact ⟨fun h => absurd h not_matches_one_nil, fun h => by cases h⟩

/-- What is left of a pattern behind its leading stars starts with a test, or is nothing. -/
theorem dropStars_cases (ts : List (Wild α)) :
    ts.dropWhile isStar = [] ∨ ∃ p ts', ts.dropWhile isStar = .one p :: ts' := by
  induction ts with
  | nil => exact .inl rfl
  | cons t ts ih =>
    cases t with
    | star => rw [List.dropWhile_cons_of_pos rfl]; exact ih
    | one p => exact .inr ⟨p, ts, List.dropWhile_cons_of_neg (by simp [isStar])⟩

theorem matches_star_all : Matches ([.star] : List (Wild α)) s := ⟨s, [], by simp, rfl⟩

/-! ## Patterns that go on -/

/-- A proper prefix of the string is in the language. -/
def Reaches (ts : List (Wild α)) (s : List α) : Prop := ∃ u v, s = u ++ v ∧ v ≠ [] ∧ Matches ts u

theorem not_reaches_nil : ¬ Reaches ts [] := by
  rintro ⟨u, v, heq, hne, _⟩
  exact hne (List.append_eq_nil_iff.mp heq.symm).2

theorem reaches_empty : Reaches ([] : List (Wild α)) (a :: s) := ⟨[], a :: s, rfl, List.cons_ne_nil _ _, rfl⟩

/-- A token is passed by its element. -/
theorem reaches_one_cons : Reaches (.one p :: ts) (a :: s) ↔ p a = true ∧ Reaches ts s := by
  constructor
  · rintro ⟨u, v, heq, hne, b, r, rfl, hp, hm⟩
    cases heq
    exact ⟨hp, r, v, rfl, hne, hm⟩
  · rintro ⟨hp, u, v, rfl, hne, hm⟩
    exact ⟨a :: u, v, rfl, hne, a, u, rfl, hp, hm⟩

/-- A star takes nothing more, or one element more. -/
theorem reaches_star_cons : Reaches (.star :: ts) (a :: s) ↔ Reaches ts (a :: s) ∨ Reaches (.star :: ts) s := by
  constructor
  · rintro ⟨u, v, heq, hne, x, y, rfl, hm⟩
    cases x with
    | nil => exact .inl ⟨y, v, heq, hne, hm⟩
    | cons b x =>
      cases heq
      exact .inr ⟨x ++ y, v, rfl, hne, x, y, rfl, hm⟩
  · rintro (⟨u, v, heq, hne, hm⟩ | ⟨u, v, rfl, hne, x, y, rfl, hm⟩)
    · exact ⟨u, v, heq, hne, matches_star_of hm⟩
    · exact ⟨a :: (x ++ y), v, rfl, hne, a :: x, y, rfl, hm⟩

theorem reaches_dropStars (ts : List (Wild α)) :
    Reaches (.star :: ts.dropWhile isStar) s ↔ Reaches (.star :: ts) s := by
  constructor
  · rintro ⟨u, v, heq, hne, hm⟩
    exact ⟨u, v, heq, hne, (matches_dropStars ts).mp hm⟩
  · rintro ⟨u, v, heq, hne, hm⟩
    exact ⟨u, v, heq, hne, (matches_dropStars ts).mpr hm⟩

end Wild

end Lib
