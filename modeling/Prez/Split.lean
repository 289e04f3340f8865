import Prez.Sds
import Prez.Lib.Split

/-!
# `Prez.Split` — `sdssplitlen` with its token array

`sdssplitlen` cuts a string at a separator of any length and collects the tokens in an array that it doubles
as it fills. Here the array keeps its number of slots: a store behind them has no result, nor has a doubling
that leaves `int`. Within these limits the tokens are `Lib.pieces` of the string.

## Contents
- **The code.** `Tokens`, `sdssplitlenLoop`, `sdssplitlen`, and `sdsjoin`, which puts C strings together again.
- **Room.** `Tokens.Room` is what every turn keeps: the next element always has its slot.
- **The loop.** `sdssplitlenLoop_spec`, from it `sdssplitlen_eq` and `sdssplitlen_none`.
- **Lossless.** `sdssplitlen_lossless`.
-/

namespace Prez

open Lib

namespace Split

/-! ## The code -/

/-- `tokens`, `elements` and `slots`: what is stored, and how many pointers fit the block. -/
structure Tokens where
  stored : List Bytes
  slots : Nat
deriving DecidableEq

/-- `if (slots < elements+2) { slots *= 2; … }`, where `slots` is an `int`. -/
def Tokens.reserve (t : Tokens) : Option Tokens :=
  if t.slots < t.stored.length + 2 then
    if t.slots * 2 < 2 ^ 31 then some { t with slots := t.slots * 2 } else none
  else some t

/-- `tokens[elements] = sdsnewlen(…); elements++`, a store that has to stay within the block. -/
def Tokens.store (t : Tokens) (token : Bytes) : Option Tokens :=
  if t.stored.length < t.slots then some { t with stored := t.stored ++ [token] } else none

/-- The loop `for (j = 0; j < (len-(seplen-1)); j++)` from `j` on: `start` and the array at its end. One
    unit of fuel for each turn, of which there are at most `len`. -/
def sdssplitlenLoop (s sep : Bytes) : (fuel j start : Nat) → Tokens → Option (Nat × Tokens)
  | 0, _, _, _ => none
  | fuel + 1, j, start, t =>
    if j + (sep.length - 1) < s.length then
      t.reserve.bind fun t =>
        if (s.drop j).take sep.length = sep then
          (t.store ((s.drop start).take (j - start))).bind fun t =>
            -- `j = j+seplen-1` and the `j++` of the loop
            sdssplitlenLoop s sep fuel (j + sep.length) (j + sep.length) t
        else sdssplitlenLoop s sep fuel (j + 1) start t
    else some (start, t)

/-- `sdssplitlen(s, len, sep, seplen, &count)`: `some none` is the returned `NULL`, `none` a store outside
    the array or an `int` that overflows. -/
def sdssplitlen (s sep : Bytes) : Option (Option (List Bytes)) :=
  if sep.length < 1 then some none
  else if s.length = 0 then some (some [])
  else
    (sdssplitlenLoop s sep (s.length + 1) 0 0 ⟨[], 5⟩).bind fun (start, t) =>
      (t.store (s.drop start)).map fun t => some t.stored

/-- `sdsjoin(argv, argc, sep)`, on C strings. -/
def sdsjoin (sep : Bytes) : List Bytes → Bytes
  | [] => []
  | [a] => cstr a
  | a :: argv => cstr a ++ cstr sep ++ sdsjoin sep argv

/-! ## Room -/

/-- The number of stored tokens at which a turn can no longer double the array: `5*2^28 - 1`. -/
def maxTokens : Nat := 1342177279

/-- Between turns: the next element has its slot, and `slots` has been doubled from 5. -/
structure Tokens.Room (t : Tokens) : Prop where
  free : t.stored.length < t.slots
  doubled : ∃ k ≤ 28, t.slots = 5 * 2 ^ k

theorem Tokens.Room.start : (⟨[], 5⟩ : Tokens).Room := ⟨by simp, 0, by omega, by simp⟩

theorem Tokens.Room.slots_le {t : Tokens} (h : t.Room) : t.slots ≤ 1342177280 := by
  obtain ⟨k, hk, hs⟩ := h.doubled
  have := Nat.pow_le_pow_right (show 0 < 2 by omega) hk
  omega

/-- The doubling overflows only at `maxTokens`, where it is due in any case. -/
theorem Tokens.Room.reserve {t : Tokens} (h : t.Room) :
    (t.stored.length = maxTokens ∧ t.reserve = none) ∨
      t.stored.length < maxTokens ∧ ∃ n, t.reserve = some ⟨t.stored, n⟩ ∧ t.stored.length + 2 ≤ n ∧
        Tokens.Room ⟨t.stored, n⟩ := by
  have hle := h.slots_le
  have hfree := h.free
  obtain ⟨k, hk, hs⟩ := h.doubled
  unfold Tokens.reserve maxTokens
  by_cases hroom : t.slots < t.stored.length + 2
  · rw [if_pos hroom]
    by_cases h28 : k = 28
    · subst h28
      left
      rw [if_neg (by omega)]
      exact ⟨by omega, rfl⟩
    · right
      have hpow : 2 ^ (k + 1) ≤ 2 ^ 28 := Nat.pow_le_pow_right (by omega) (by omega)
      rw [Nat.pow_succ] at hpow
      rw [if_pos (by omega)]
      exact ⟨by omega, _, rfl, by omega, by simp only; omega, k + 1, by omega, by simp only [Nat.pow_succ]; omega⟩
  · right
    rw [if_neg hroom]
    exact ⟨by omega, t.slots, rfl, by omega, hfree, k, hk, hs⟩

theorem Tokens.Room.store {st : List Bytes} {n : Nat} (h : Tokens.Room ⟨st, n⟩) (hn : st.length + 2 ≤ n) (token : Bytes) :
    Tokens.store ⟨st, n⟩ token = some ⟨st ++ [token], n⟩ ∧ Tokens.Room ⟨st ++ [token], n⟩ := by
  have hlt : st.length < n := by omega
  refine ⟨if_pos hlt, ?_, h.doubled⟩
  simp only [List.length_append, List.length_singleton]
  omega

/-! ## The loop -/

/-- The tokens still to come fit behind the `n` stored ones: the array is not doubled past `int`. -/
def Fits (sep : Bytes) (n : Nat) (ps : List Bytes) : Prop :=
  n + ps.length ≤ maxTokens ∨ n + ps.length = maxTokens + 1 ∧ ∀ p ∈ ps.getLast?, p.length < sep.length

theorem fits_cons {sep p : Bytes} {n : Nat} {ps : List Bytes} (hne : ps ≠ []) :
    Fits sep n (p :: ps) ↔ Fits sep (n + 1) ps := by
  obtain ⟨q, qs, rfl⟩ := List.exists_cons_of_ne_nil hne
  unfold Fits
  rw [List.getLast?_cons_cons, List.length_cons, Nat.add_assoc n 1, Nat.add_comm 1]

/-- What the loop is to do from a state: collect all pieces but the last, or fail. -/
structure LoopSpec (s sep : Bytes) (st ps : List Bytes) (r : Option (Nat × Tokens)) : Prop where
  collects : Fits sep st.length ps → ∃ start n, r = some (start, ⟨st ++ ps.dropLast, n⟩) ∧
    ps = ps.dropLast ++ [s.drop start] ∧ Tokens.Room ⟨st ++ ps.dropLast, n⟩
  fails : ¬ Fits sep st.length ps → r = none

variable {s sep : Bytes}

/-- The end of the loop: what is left is shorter than the separator. -/
theorem LoopSpec.done {t : Tokens} {start j : Nat} (hr : t.Room)
    (hshort : (s.drop j).length < sep.length) (hmax : t.stored.length = maxTokens → start = j) :
    LoopSpec s sep t.stored [s.drop start] (some (start, t)) := by
  have hle := hr.slots_le
  have hfree := hr.free
  refine ⟨fun _ => ⟨start, t.slots, by simp, by simp, by simpa using hr⟩, fun hfit => absurd ?_ hfit⟩
  unfold Fits
  by_cases heq : t.stored.length = maxTokens
  · right
    rw [hmax heq]
    exact ⟨by rw [heq, List.length_singleton], by simpa using hshort⟩
  · left
    unfold maxTokens at heq ⊢
    rw [List.length_singleton]
    omega

/-- A turn with `maxTokens` tokens stored: there is still room for a separator, so the pieces do not fit. -/
theorem not_fits {n : Nat} (cur : Bytes) {l : Bytes} (hn : n = maxTokens) (hl : sep.length ≤ l.length) :
    ¬ Fits sep n (piecesFrom sep cur l) := by
  have hne := piecesFrom_ne_nil sep cur l
  have hwhole := intercalate_piecesFrom sep cur l
  unfold Fits
  cases hps : piecesFrom sep cur l with
  | nil => exact absurd hps hne
  | cons p ps =>
    cases ps with
    | nil =>
      rw [hps, List.intercalate_singleton] at hwhole
      rw [hwhole]
      simp only [List.length_singleton, List.getLast?_singleton, Option.mem_def, Option.some.injEq, forall_eq',
        List.length_append]
      omega
    | cons q ps =>
      simp only [List.length_cons]
      omega

/-- **The loop collects the pieces.** The token in progress is what lies between `start` and `j`; with
    `maxTokens` stored it is empty, because the turn after the last store fails. -/
theorem sdssplitlenLoop_spec (hne : sep ≠ []) :
    ∀ (fuel j start : Nat) (t : Tokens), s.length - j < fuel → start ≤ j → j ≤ s.length → t.Room →
      (t.stored.length = maxTokens → start = j) →
      LoopSpec s sep t.stored (piecesFrom sep ((s.drop start).take (j - start)) (s.drop j))
        (sdssplitlenLoop s sep fuel j start t) := by
  have hpos : 0 < sep.length := List.length_pos_iff.mpr hne
  intro fuel
  induction fuel with
  | zero => intro j start t hf; exact absurd hf (Nat.not_lt_zero _)
  | succ fuel ih =>
    intro j start t hf hsj hjl hroom hmax
    unfold sdssplitlenLoop
    by_cases hturn : j + (sep.length - 1) < s.length
    · rw [if_pos hturn]
      rcases hroom.reserve with ⟨hfull, hres⟩ | ⟨hlt, n, hres, hn, hroom'⟩
      · rw [hres]
        have hroomy : sep.length ≤ (s.drop j).length := by rw [List.length_drop]; omega
        have hnot := not_fits ((s.drop start).take (j - start)) hfull hroomy
        exact ⟨fun hfit => absurd hfit hnot, fun _ => rfl⟩
      · rw [hres, Option.bind_some]
        by_cases hmatch : (s.drop j).take sep.length = sep
        · -- a separator: the token ends, the next one starts behind it
          obtain ⟨hstore, hroom''⟩ := hroom'.store hn ((s.drop start).take (j - start))
          rw [if_pos hmatch, hstore, Option.bind_some]
          have hsplit : s.drop j = sep ++ s.drop (j + sep.length) := by
            rw [← List.drop_drop]
            nth_rewrite 1 [← List.take_append_drop sep.length (s.drop j)]
            rw [hmatch]
          have hrec := ih (j + sep.length) (j + sep.length) _ (by omega) le_rfl (by omega) hroom'' fun _ => rfl
          rw [Nat.sub_self, List.take_zero] at hrec
          rw [hsplit, piecesFrom_match hne]
          have hps := piecesFrom_ne_nil sep [] (s.drop (j + sep.length))
          obtain ⟨hcollect, hfail⟩ := hrec
          simp only [List.length_append, List.length_singleton] at hcollect hfail
          refine ⟨fun hfit => ?_, fun hfit => hfail fun h => hfit ((fits_cons hps).mpr h)⟩
          obtain ⟨start', n', hrun, hlast, hr⟩ := hcollect ((fits_cons hps).mp hfit)
          rw [List.dropLast_cons_of_ne_nil hps]
          rw [List.append_assoc, List.singleton_append] at hrun hr
          exact ⟨start', n', hrun, by rw [List.cons_append, ← hlast], hr⟩
        · rw [if_neg hmatch]
          have hrec := ih (j + 1) start ⟨t.stored, n⟩ (by omega) (by omega) (by omega) hroom' fun h => absurd h (by simp only; omega)
          have hjs : j < s.length := by omega
          have hcons : s.drop j = s[j] :: s.drop (j + 1) := List.drop_eq_getElem_cons hjs
          have hpre : ¬ sep <+: s[j] :: s.drop (j + 1) := by
            rw [← hcons]
            exact fun hp => hmatch (List.prefix_iff_eq_take.mp hp).symm
          have hcur : (s.drop start).take (j + 1 - start) = (s.drop start).take (j - start) ++ [s[j]] := by
            rw [show j + 1 - start = j - start + 1 by omega, List.take_add_one, List.getElem?_drop,
              show start + (j - start) = j by omega, List.getElem?_eq_getElem hjs]
            rfl
          rw [hcons, piecesFrom_cons hpre, ← hcur]
          exact hrec
    · rw [if_neg hturn]
      have hshort : (s.drop j).length < sep.length := by rw [List.length_drop]; omega
      have hwhole : (s.drop start).take (j - start) ++ s.drop j = s.drop start := by
        nth_rewrite 2 [← List.take_append_drop (j - start) (s.drop start)]
        rw [List.drop_drop, show start + (j - start) = j by omega]
      rw [piecesFrom_short hshort, hwhole]
      exact .done hroom hshort hmax

/-! ## Lossless -/

/-- A separator of one byte does not occur so often that the array would be doubled past `int`: fewer than
    `maxTokens` times, or just as often with nothing behind the last one. -/
def FewTokens (s sep : Bytes) : Prop :=
  ∀ c, sep = [c] → s.count c < maxTokens ∨ s.count c = maxTokens ∧ s.getLast? = some c

/-- In a string with an `int` length only a one-byte separator can occur too often. -/
theorem fits_iff (hne : sep ≠ []) (hs : s.length < 2 ^ 31) : Fits sep 0 (pieces sep s) ↔ FewTokens s sep := by
  obtain ⟨c, sep, rfl⟩ := List.exists_cons_of_ne_nil hne
  cases sep with
  | cons d sep =>
    -- two bytes at least for each token: half of 2³¹ is below the limit
    have hmul := length_piecesFrom_mul_le (c :: d :: sep) [] s
    have hbound : (pieces (c :: d :: sep) s).length * 2 ≤ s.length + 2 := by
      have h2 : 2 ≤ (c :: d :: sep).length := by simp
      by_contra hlt
      have hgt : s.length < ((pieces (c :: d :: sep) s).length - 1) * 2 := by omega
      have hge := Nat.mul_le_mul_left ((pieces (c :: d :: sep) s).length - 1) h2
      have hsub : ((pieces (c :: d :: sep) s).length - 1) * (c :: d :: sep).length ≤ s.length := by
        rw [Nat.sub_mul, Nat.one_mul]
        exact Nat.sub_le_iff_le_add.mpr hmul
      omega
    have hfits : Fits (c :: d :: sep) 0 (pieces (c :: d :: sep) s) := by
      left
      unfold maxTokens
      omega
    have hfew : FewTokens s (c :: d :: sep) := by
      intro e he
      cases he
    exact ⟨fun _ => hfew, fun _ => hfits⟩
  | nil =>
    have hlen : (pieces [c] s).length = s.count c + 1 := length_piecesFrom_singleton c s []
    have hempty : s.count c = maxTokens → ((∀ p ∈ (pieces [c] s).getLast?, p.length < 1) ↔ s.getLast? = some c) := by
      intro hcount
      have hs0 : s ≠ [] := by
        rintro rfl
        rw [List.count_nil] at hcount
        exact absurd hcount (by decide)
      have hlast := List.getLast?_eq_getLast_of_ne_nil (piecesFrom_ne_nil [c] [] s)
      have hiff := last_piecesFrom_singleton c s [] _ hlast
      rw [if_neg hs0] at hiff
      rw [pieces, hlast, ← hiff]
      simp
    have hone : FewTokens s [c] ↔ s.count c < maxTokens ∨ s.count c = maxTokens ∧ s.getLast? = some c := by
      constructor
      · exact fun h => h c rfl
      · intro h e he
        cases he
        exact h
    rw [hone, Fits, hlen, List.length_singleton]
    constructor
    · rintro (h | ⟨h, hp⟩)
      · exact .inl (by omega)
      · have hcount : s.count c = maxTokens := by omega
        exact .inr ⟨hcount, (hempty hcount).mp hp⟩
    · rintro (h | ⟨h, hp⟩)
      · exact .inl (by omega)
      · exact .inr ⟨by omega, (hempty h).mpr hp⟩

theorem sdssplitlen_start (hne : sep ≠ []) :
    LoopSpec s sep [] (pieces sep s) (sdssplitlenLoop s sep (s.length + 1) 0 0 ⟨[], 5⟩) := by
  exact sdssplitlenLoop_spec (s := s) hne (s.length + 1) 0 0 ⟨[], 5⟩ (by omega) le_rfl (by omega) .start fun _ => rfl

/-- As long as the pieces fit, they are the tokens. -/
theorem sdssplitlen_eq (hne : sep ≠ []) (hs : s ≠ []) (hfit : Fits sep 0 (pieces sep s)) :
    sdssplitlen s sep = some (some (pieces sep s)) := by
  have hpos : 0 < sep.length := List.length_pos_iff.mpr hne
  have hlen : s.length ≠ 0 := fun h => hs (List.eq_nil_of_length_eq_zero h)
  obtain ⟨start, n, hrun, hlast, hroom⟩ := (sdssplitlen_start hne).collects hfit
  have hstore : Tokens.store ⟨[] ++ (pieces sep s).dropLast, n⟩ (s.drop start) = some ⟨pieces sep s, n⟩ := by
    rw [Tokens.store, if_pos hroom.free]
    simp only [List.nil_append, ← hlast]
  rw [sdssplitlen, if_neg (by omega), if_neg hlen, hrun, Option.bind_some]
  simp only [hstore, Option.map_some]

theorem sdssplitlen_none (hne : sep ≠ []) (hs : s ≠ []) (hfit : ¬ Fits sep 0 (pieces sep s)) :
    sdssplitlen s sep = none := by
  have hpos : 0 < sep.length := List.length_pos_iff.mpr hne
  have hlen : s.length ≠ 0 := fun h => hs (List.eq_nil_of_length_eq_zero h)
  rw [sdssplitlen, if_neg (by omega), if_neg hlen, (sdssplitlen_start hne).fails hfit]
  rfl

/-- What splitting is to deliver: the tokens with the separator between them are the string, none for the
    empty string, and no token contains the separator. -/
structure Lossless (s sep : Bytes) (tokens : List Bytes) : Prop where
  joined : sep.intercalate tokens = s
  empty : s = [] → tokens = []
  free : ∀ token ∈ tokens, ¬ sep <:+: token

theorem pieces_lossless (hne : sep ≠ []) (hs : s ≠ []) : Lossless s sep (pieces sep s) where
  joined := intercalate_pieces s
  empty := fun h => absurd h hs
  free := fun _ hp => not_infix_of_mem_pieces hne hp

/-- **Splitting loses nothing.** For a string and a separator with `int` lengths, the call returns lossless
    tokens and stores each of them within the array exactly when a one-byte separator does not occur so often
    that `slots` overflows. -/
theorem sdssplitlen_lossless (s sep : Bytes) (hne : 1 ≤ sep.length) (hs : s.length < 2 ^ 31) :
    (∃ tokens, sdssplitlen s sep = some (some tokens) ∧ Lossless s sep tokens) ↔ FewTokens s sep := by
  have hsep : sep ≠ [] := List.length_pos_iff.mp hne
  by_cases h0 : s = []
  · subst h0
    have hfew : FewTokens [] sep := fun c _ => .inl (by simp [maxTokens])
    have hrun : sdssplitlen [] sep = some (some []) := by
      rw [sdssplitlen, if_neg (by omega), if_pos List.length_nil]
    exact ⟨fun _ => hfew, fun _ => ⟨[], hrun, by simp [List.intercalate], fun _ => rfl, by simp⟩⟩
  · rw [← fits_iff hsep hs]
    constructor
    · rintro ⟨tokens, hrun, _⟩
      by_contra hfit
      rw [sdssplitlen_none hsep h0 hfit] at hrun
      cases hrun
    · exact fun hfit => ⟨_, sdssplitlen_eq hsep h0 hfit, pieces_lossless hsep h0⟩

/-- A separator that overlaps itself: `aaa` at `aa` gives the empty token and `a`. -/
theorem sdssplitlen_lossless_overlap :
    ∃ tokens, sdssplitlen [97, 97, 97] [97, 97] = some (some tokens) ∧ Lossless [97, 97, 97] [97, 97] tokens :=
  (sdssplitlen_lossless [97, 97, 97] [97, 97] (by decide) (by decide)).mpr fun _ h => by cases h

theorem sdssplitlen_replicate {n : Nat} (hn : maxTokens < n) (hlt : n < 2 ^ 31) (c : UInt8) :
    sdssplitlen (List.replicate n c) [c] = none := by
  have hs : List.replicate n c ≠ [] := by
    intro h
    have := congrArg List.length h
    rw [List.length_replicate, List.length_nil] at this
    omega
  have hlen : (List.replicate n c).length < 2 ^ 31 := by rwa [List.length_replicate]
  refine sdssplitlen_none (by simp) hs ?_
  rw [fits_iff (by simp) hlen]
  intro hfew
  have := hfew c rfl
  rw [List.count_replicate_self] at this
  omega

/-- A string of 1342177280 newlines: the turn at the last one doubles `slots` to `5*2^29`, which is no `int`. -/
theorem sdssplitlen_slots_overflow :
    (List.replicate 1342177280 (10 : UInt8)).length < 2 ^ 31 ∧
      ¬ ∃ tokens, sdssplitlen (List.replicate 1342177280 10) [10] = some (some tokens) ∧
        Lossless (List.replicate 1342177280 10) [10] tokens := by
  refine ⟨by rw [List.length_replicate]; decide, ?_⟩
  rintro ⟨tokens, hrun, _⟩
  rw [sdssplitlen_replicate (by decide) (by decide)] at hrun
  cases hrun

/-! ## Joining -/

/-- `sdsjoin` puts the strings together up to their first zero bytes. -/
theorem sdsjoin_eq (argv : List Bytes) : sdsjoin sep argv = (cstr sep).intercalate (argv.map cstr) := by
  induction argv with
  | nil => rfl
  | cons a argv ih =>
    cases argv with
    | nil => simp [sdsjoin]
    | cons b argv =>
      rw [sdsjoin, ih, List.map_cons, List.map_cons, List.map_cons, List.intercalate_cons_cons]
      simp

/-- On strings without zero bytes joining undoes splitting. -/
theorem sdsjoin_pieces (hs : (0 : UInt8) ∉ s) (hsep : (0 : UInt8) ∉ sep) : sdsjoin sep (pieces sep s) = s := by
  have hmap : (pieces sep s).map cstr = pieces sep s := by
    refine (List.map_congr_left fun p hp => cstr_eq_self fun h0 => hs ?_).trans (List.map_id _)
    exact mem_of_mem_piecesFrom [] s p hp 0 h0
  rw [sdsjoin_eq, hmap, cstr_eq_self hsep, intercalate_pieces]

end Split

end Prez
