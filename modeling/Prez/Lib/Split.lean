import Mathlib.Data.List.Infix
import Mathlib.Tactic.SplitIfs

/-!
# `Lib.Split` — cutting a list at a separator of any length

`pieces sep l` cuts `l` at the leftmost occurrence of `sep`, goes on behind it, and so on: occurrences that
overlap one already used do not count.

* `intercalate_pieces` — the pieces with the separator between them are the list again.
* `not_infix_of_mem_pieces` — no piece contains the separator.
* `pieces_singleton` — for a single element this is `List.splitOn`.
-/

namespace Lib

variable {α : Type} [DecidableEq α]

/-- The pieces of `l`, with the elements `cur` of the first one already read. -/
def piecesFrom (sep cur l : List α) : List (List α) :=
  if sep ≠ [] ∧ sep <+: l then cur :: piecesFrom sep [] (l.drop sep.length)
  else
    match l with
    | [] => [cur]
    | a :: l => piecesFrom sep (cur ++ [a]) l
termination_by l.length
decreasing_by
  · rename_i h
    have hpos : 0 < sep.length := List.length_pos_iff.mpr h.1
    have hle := h.2.length_le
    rw [List.length_drop]
    omega
  · simp

theorem mem_of_mem_intercalate {α : Type} {sep : List α} {a : α} (ls : List (List α)) (h : a ∈ sep.intercalate ls) :
    a ∈ sep ∨ ∃ l ∈ ls, a ∈ l := by
  induction ls with
  | nil => exact absurd h (by simp [List.intercalate])
  | cons l ls ih =>
    cases ls with
    | nil =>
      rw [List.intercalate_singleton] at h
      exact .inr ⟨l, List.mem_cons_self, h⟩
    | cons k ls =>
      rw [List.intercalate_cons_cons, List.mem_append, List.mem_append] at h
      rcases h with (h | h) | h
      · exact .inr ⟨l, List.mem_cons_self, h⟩
      · exact .inl h
      · rcases ih h with h | ⟨m, hm, h⟩
        · exact .inl h
        · exact .inr ⟨m, List.mem_cons_of_mem _ hm, h⟩

/-- `l` cut at every occurrence of `sep`, from the left. -/
def pieces (sep l : List α) : List (List α) := piecesFrom sep [] l

variable {sep : List α}

theorem piecesFrom_match (hne : sep ≠ []) (cur l : List α) :
    piecesFrom sep cur (sep ++ l) = cur :: piecesFrom sep [] l := by
  rw [piecesFrom.eq_def, if_pos ⟨hne, List.prefix_append sep l⟩, List.drop_left]

theorem piecesFrom_cons {a : α} {cur l : List α} (h : ¬ sep <+: a :: l) :
    piecesFrom sep cur (a :: l) = piecesFrom sep (cur ++ [a]) l := by
  rw [piecesFrom, if_neg fun hp => h hp.2]

/-- Too short for the separator: the rest is the last piece. -/
theorem piecesFrom_short {l : List α} (h : l.length < sep.length) :
    ∀ cur, piecesFrom sep cur l = [cur ++ l] := by
  induction l with
  | nil =>
    intro cur
    rw [piecesFrom, if_neg fun hp => hp.1 (List.prefix_nil.mp hp.2)]
    simp
  | cons a l ih =>
    intro cur
    rw [piecesFrom_cons fun hp => absurd hp.length_le (by omega), ih (by rw [List.length_cons] at h; omega)]
    simp

theorem piecesFrom_ne_nil (sep cur l : List α) : piecesFrom sep cur l ≠ [] := by
  fun_induction piecesFrom sep cur l with
  | case1 => exact List.cons_ne_nil _ _
  | case2 => exact List.cons_ne_nil _ _
  | case3 _ _ _ _ ih => exact ih

/-- **Nothing is lost.** -/
theorem intercalate_piecesFrom (sep cur l : List α) : sep.intercalate (piecesFrom sep cur l) = cur ++ l := by
  fun_induction piecesFrom sep cur l with
  | case1 cur l h ih =>
    obtain ⟨_, r, rfl⟩ := h
    rw [List.drop_left] at ih ⊢
    obtain ⟨p, ps, hps⟩ := List.exists_cons_of_ne_nil (piecesFrom_ne_nil sep [] r)
    rw [hps] at ih ⊢
    rw [List.intercalate_cons_cons, ih]
    simp
  | case2 cur h => simp
  | case3 cur a l h ih => rw [ih]; simp

/-- **Joining the pieces gives the list back.** -/
theorem intercalate_pieces (l : List α) : sep.intercalate (pieces sep l) = l := intercalate_piecesFrom sep [] l

/-- **No piece contains the separator.** The induction carries that no occurrence starts inside `cur`, even
    one that would reach into the rest of the list. -/
theorem not_infix_of_mem_piecesFrom (hne : sep ≠ []) (cur l : List α)
    (hcur : ∀ k < cur.length, ¬ sep <+: (cur ++ l).drop k) : ∀ p ∈ piecesFrom sep cur l, ¬ sep <:+: p := by
  have hfree : ∀ cur l : List α, (∀ k < cur.length, ¬ sep <+: (cur ++ l).drop k) → ¬ sep <:+: cur := by
    rintro cur l hcur ⟨a, b, rfl⟩
    have hpos : 0 < sep.length := List.length_pos_iff.mpr hne
    refine hcur a.length (by simp only [List.length_append]; omega) ?_
    rw [List.append_assoc, List.append_assoc, List.drop_left]
    exact List.prefix_append _ _
  fun_induction piecesFrom sep cur l with
  | case1 cur l h ih =>
    intro p hp
    rcases List.mem_cons.mp hp with rfl | hp
    · exact hfree _ _ hcur
    · exact ih (by simp) p hp
  | case2 cur h =>
    intro p hp
    rw [List.mem_singleton.mp hp]
    exact hfree _ _ hcur
  | case3 cur a l h ih =>
    refine ih fun k hk => ?_
    rw [List.append_assoc, List.singleton_append]
    by_cases hlt : k < cur.length
    · exact hcur k hlt
    · have hk' : k = cur.length := by
        rw [List.length_append, List.length_singleton] at hk
        omega
      rw [hk', List.drop_left]
      exact fun hp => h ⟨hne, hp⟩

theorem not_infix_of_mem_pieces (hne : sep ≠ []) {l p : List α} (hp : p ∈ pieces sep l) : ¬ sep <:+: p :=
  not_infix_of_mem_piecesFrom hne [] l (by simp) p hp

theorem mem_of_mem_piecesFrom (cur l : List α) :
    ∀ p ∈ piecesFrom sep cur l, ∀ a ∈ p, a ∈ cur ++ l := by
  fun_induction piecesFrom sep cur l with
  | case1 cur l h ih =>
    intro p hp a ha
    rcases List.mem_cons.mp hp with rfl | hp
    · exact List.mem_append_left _ ha
    · exact List.mem_append_right _ (List.mem_of_mem_drop (ih p hp a ha))
  | case2 cur h =>
    intro p hp a ha
    rw [List.mem_singleton.mp hp] at ha
    exact List.mem_append_left _ ha
  | case3 cur b l h ih =>
    intro p hp a ha
    have := ih p hp a ha
    rwa [List.append_assoc, List.singleton_append] at this

/-- Every cut takes a separator's length out of the list. -/
theorem length_piecesFrom_mul_le (sep cur l : List α) :
    (piecesFrom sep cur l).length * sep.length ≤ l.length + sep.length := by
  fun_induction piecesFrom sep cur l with
  | case1 cur l h ih =>
    have hle := h.2.length_le
    rw [List.length_drop] at ih
    rw [List.length_cons, Nat.succ_mul]
    omega
  | case2 cur h => simp
  | case3 cur a l h ih => rw [List.length_cons]; omega

/-! ## A separator of one element -/

theorem piecesFrom_singleton (x : α) (l : List α) :
    ∀ cur, piecesFrom [x] cur l = (l.splitOn x).modifyHead (cur ++ ·) := by
  induction l with
  | nil =>
    intro cur
    rw [piecesFrom_short (by simp)]
    rfl
  | cons a l ih =>
    intro cur
    rw [List.splitOn, List.splitOnP_cons_eq_if_modifyHead, ← List.splitOn]
    by_cases hx : a = x
    · subst hx
      rw [show a :: l = [a] ++ l from rfl, piecesFrom_match (by simp), ih]
      simp only [beq_self_eq_true, if_true, List.modifyHead_cons, List.append_nil]
      cases l.splitOn a <;> rfl
    · rw [piecesFrom_cons fun hp => hx (List.cons_prefix_cons.mp hp).1.symm, ih, if_neg (by simpa using hx),
        List.modifyHead_modifyHead]
      congr 1
      funext r
      simp

/-- With one element between, it is `splitOn`. -/
theorem pieces_singleton (x : α) (l : List α) : pieces [x] l = l.splitOn x := by
  rw [pieces, piecesFrom_singleton]
  cases l.splitOn x <;> rfl

/-- One piece more than there are separators. -/
theorem length_piecesFrom_singleton (x : α) (l : List α) :
    ∀ cur, (piecesFrom [x] cur l).length = l.count x + 1 := by
  induction l with
  | nil => intro cur; rw [piecesFrom_short (by simp)]; rfl
  | cons a l ih =>
    intro cur
    by_cases hx : a = x
    · subst hx
      rw [show a :: l = [a] ++ l from rfl, piecesFrom_match (by simp), List.length_cons, ih]
      simp
    · rw [piecesFrom_cons fun hp => hx (List.cons_prefix_cons.mp hp).1.symm, ih, List.count_cons_of_ne hx]

/-- The last piece is empty exactly when the list ends in the separator, or is empty itself. -/
theorem last_piecesFrom_singleton (x : α) (l : List α) :
    ∀ cur p, (piecesFrom [x] cur l).getLast? = some p →
      (p = [] ↔ if l = [] then cur = [] else l.getLast? = some x) := by
  induction l with
  | nil =>
    intro cur p hp
    rw [piecesFrom_short (by simp)] at hp
    simp only [List.append_nil, List.getLast?_singleton, Option.some.injEq] at hp
    rw [if_pos rfl, hp]
  | cons a l ih =>
    intro cur p hp
    rw [if_neg (List.cons_ne_nil a l)]
    by_cases hx : a = x
    · subst hx
      obtain ⟨q, qs, hqs⟩ := List.exists_cons_of_ne_nil (piecesFrom_ne_nil [a] [] l)
      rw [show a :: l = [a] ++ l from rfl, piecesFrom_match (by simp), hqs, List.getLast?_cons_cons, ← hqs] at hp
      rw [ih [] p hp]
      cases l with
      | nil => simp
      | cons b l => rw [if_neg (List.cons_ne_nil b l), List.getLast?_cons_cons]
    · rw [piecesFrom_cons fun hp => hx (List.cons_prefix_cons.mp hp).1.symm] at hp
      rw [ih _ p hp]
      cases l with
      | nil => simpa using hx
      | cons b l => rw [if_neg (List.cons_ne_nil b l), List.getLast?_cons_cons]

end Lib
