import Prez.Config.Glob
import Prez.Lib.Wild

/-!
# `Prez.Config.Language` — what `stringmatchlen` decides

The matcher of `Prez.Config.Glob` reads the pattern as it goes. Here the pattern is read first, into the tokens
of a wildcard pattern (`parse`), and the matcher is compared with their language.

* On a string that is not empty the matcher decides the language (`stringmatchlen_verdict`), unless the pattern
  ends inside a class right behind a backslash: there it steps over the terminator as soon as it gets to that
  class with something of the string left.
* The ends of a range are compared as signed `char`s, so a range from below 128 to above it has the other bytes
  (`Item.Narrow.hit_eq`).
* On the empty string there is nothing to match a class with, but the matcher compares the class with the
  terminator. A class that the terminator passes takes `stringLen` to -1 (`stringmatchBeyond`), and what follows
  is read behind the string.

`stringmatch_language` says exactly when all is well.
-/

namespace Prez

open Lib

namespace Glob

/-! ## Patterns -/

/-- A member of a class. -/
inductive Item where
  | one (c : UInt8)
  | range (a b : UInt8)
deriving DecidableEq

/-- The bytes that a member stands for: a range for those between its ends, in either order. -/
def Item.has (c : UInt8) : Item → Bool
  | .one a => a == c
  | .range a b => decide (a ≤ c ∧ c ≤ b ∨ b ≤ c ∧ c ≤ a)

/-- The bytes that the matcher finds in a member: it compares them with the ends of a range as values of type
    `char`. -/
def Item.hit (c : UInt8) : Item → Bool
  | .one a => a == c
  | .range a b => inRange false a b c

inductive Token where
  | star
  | any
  | cls (neg : Bool) (items : List Item)
  | lit (c : UInt8)
deriving DecidableEq

/-- Does a token other than the star stand for the character `c`? -/
def Token.stands : Token → UInt8 → Bool
  | .star, _ => true
  | .any, _ => true
  | .cls neg items, c => items.any (·.has c) != neg
  | .lit a, c => a == c

/-- Does the matcher find the character `c` in such a token? -/
def Token.test : Token → UInt8 → Bool
  | .star, _ => true
  | .any, _ => true
  | .cls neg items, c => items.any (·.hit c) != neg
  | .lit a, c => a == c

def Token.wild (t : Token) : Wild UInt8 := if t = .star then .star else .one t.test

/-- How a pattern ends: well, inside a class, inside a class right behind a backslash, or with a backslash. -/
inductive Ending where
  | good | openClass | cutClass | cutEscape
deriving DecidableEq

/-- Outside of a class, or inside one with the members read so far. -/
inductive Mode where
  | out
  | cls (neg : Bool) (items : List Item)

def consToken (t : Token) (r : List Token × Ending) : List Token × Ending := (t :: r.1, r.2)

/-- The tokens of a pattern. A class is closed by the first `]` that is no member of a range or escape; three
    characters with `-` in the middle are a range whatever the third one is. -/
def parse : Mode → Bytes → List Token × Ending
  | .out, [] => ([], .good)
  | .cls neg items, [] => ([.cls neg items], .openClass)
  | .out, b :: p =>
    if b = 42 then consToken .star (parse .out p)
    else if b = 63 then consToken .any (parse .out p)
    else if b = 91 then
      match p with
      | [] => parse (.cls false []) []
      | d :: q => if d = 94 then parse (.cls true []) q else parse (.cls false []) (d :: q)
    else if b = 92 then
      match p with
      | [] => ([.lit 92], .cutEscape)
      | e :: q => consToken (.lit e) (parse .out q)
    else consToken (.lit b) (parse .out p)
  | .cls neg items, b :: p =>
    if b = 92 then
      match p with
      | [] => ([], .cutClass)
      | e :: q => parse (.cls neg (items ++ [.one e])) q
    else if b = 93 then consToken (.cls neg items) (parse .out p)
    else
      match p with
      | [] => parse (.cls neg (items ++ [.one b])) []
      | [d] => parse (.cls neg (items ++ [.one b])) [d]
      | d :: stop :: q =>
        if d = 45 then parse (.cls neg (items ++ [.range b stop])) q
        else parse (.cls neg (items ++ [.one b])) (d :: stop :: q)

def tokens (p : Bytes) : List Token := (parse .out p).1

def ending (p : Bytes) : Ending := (parse .out p).2

/-- The pattern ends inside a class, right behind a backslash. -/
def cutOff (p : Bytes) : Bool := ending p == .cutClass

/-- The wildcard pattern that a pattern stands for. -/
def language (p : Bytes) : List (Wild UInt8) := (tokens p).map fun t => if t = .star then .star else .one t.stands

/-- The wildcard pattern that the matcher compares with. -/
def wilds (ts : List Token) : List (Wild UInt8) := ts.map Token.wild

/-- Every class is closed, and no escape is cut off. -/
def WellFormed (p : Bytes) : Prop := ending p = .good

/-! ## The empty string -/

/-- Turns with the string pointer behind the terminator and `stringLen` negative: a read of the string is outside
    of it. A star that is not the last token counts `stringLen` down from there, which overflows unless the
    first try succeeds. -/
def stringmatchBeyond : (fuel : Nat) → (pattern : Bytes) → (len : Int) → Option Bool
  | 0, _, _ => none
  | fuel + 1, pattern, len =>
    if len = 0 then some false
    else
      match pattern with
      | [] => none
      | b :: pattern =>
        if b = 42 then
          (skipStars pattern len).bind fun (pattern, len) =>
          if len = 1 then some true
          else (stringmatchBeyond fuel pattern (len - 1)).bind fun found => if found then some true else none
        else if b = 63 then stringmatchBeyond fuel pattern (len - 1)
        else if b = 91 then
          pattern.head?.bind fun b =>
          let not := b == 94
          let (pattern, len) := if b = 94 then (pattern.drop 1, len - 2) else (pattern, len - 1)
          -- only a class without members is left without a look at the string
          match pattern with
          | [] => none
          | d :: rest =>
            if d = 93 then if not then stringmatchBeyond fuel rest (len - 1) else some false
            else if d ≠ 92 ∧ len = 0 then if not then stringmatchBeyond fuel (d :: rest) 0 else some false
            else none
        else none

/-- The loop on the empty string: `string[0]` is the terminator, and a `*` has nothing to try. -/
def stringmatchEmpty (nocase : Bool) (fuel : Nat) (pattern : Bytes) (len : Int) : Option Bool :=
  if len = 0 then some true
  else
    match pattern with
    | [] => none
    | b :: pattern =>
      if b = 42 then (skipStars pattern len).map fun r => r.2 == 1
      else if b = 63 then some false
      else if b = 91 then
        pattern.head?.bind fun b =>
        (if b = 94 then matchClass nocase 0 (pattern.drop 1) (len - 2) false
          else matchClass nocase 0 pattern (len - 1) false).bind fun (found, pattern, len) =>
        if found == (b == 94) then some false else stringmatchBeyond fuel pattern len
      else if b = 92 ∧ len ≥ 2 then
        pattern.head?.bind fun b =>
        if sameChar nocase b 0 then stringmatchBeyond fuel (pattern.drop 1) (len - 2) else some false
      else if sameChar nocase b 0 then stringmatchBeyond fuel pattern (len - 1)
      else some false

/-- `stringmatch(pattern, string, nocase)` on C strings whose lengths are `int`s. -/
def stringmatch (pattern string : Bytes) (nocase : Bool) : Option Bool :=
  if 2 ^ 31 ≤ string.length then none
  else
    match string with
    | [] => stringmatchEmpty nocase (pattern.length + 2) (pattern ++ [0]) (toInt32 (cstr pattern).length)
    | c :: string => Prez.stringmatch pattern (c :: string) nocase

/-! ## Reading the pattern -/

/-- What the class loop and the parser make of the same text behind a `[`. -/
inductive ClassRead (neg : Bool) (items : List Item) (c : UInt8) (q : Bytes) (found : Bool) : Option (Bool × Bytes × Int) → Prop where
  | closed (more : List Item) (rest : Bytes) (hlen : rest.length < q.length) (h0 : (0 : UInt8) ∉ rest)
      (hp : parse (.cls neg items) q = consToken (.cls neg (items ++ more)) (parse .out rest)) :
      ClassRead neg items c q found (some (found || more.any (·.hit c), rest ++ [0], rest.length))
  | opened (more : List Item) (hp : parse (.cls neg items) q = ([.cls neg (items ++ more)], .openClass)) :
      ClassRead neg items c q found (some (found || more.any (·.hit c), [0], 0))
  | cut (hp : parse (.cls neg items) q = ([], .cutClass)) : ClassRead neg items c q found none

theorem parse_cls_close (neg : Bool) (items : List Item) (p : Bytes) :
    parse (.cls neg items) (93 :: p) = consToken (.cls neg items) (parse .out p) := by
  rw [parse.eq_def]
  rfl

variable {q : Bytes} {p r : Bytes} {neg : Bool} {t : Token} {b : UInt8}

theorem parse_cls_single {items : List Item} {b d stop : UInt8} (h92 : b ≠ 92) (h93 : b ≠ 93) (hd : d ≠ 45) :
    parse (.cls neg items) (b :: d :: stop :: q) = parse (.cls neg (items ++ [.one b])) (d :: stop :: q) := by
  conv_lhs => rw [parse.eq_def]
  simp only [if_neg h92, if_neg h93, if_neg hd]

/-- One more member in front of what is still to be read. -/
theorem ClassRead.member {items : List Item} {c : UInt8} {q q' : Bytes} {found : Bool} (i : Item)
    {r : Option (Bool × Bytes × Int)} (hlen : q'.length ≤ q.length)
    (hp : parse (.cls neg items) q = parse (.cls neg (items ++ [i])) q')
    (h : ClassRead neg (items ++ [i]) c q' (found || i.hit c) r) : ClassRead neg items c q found r := by
  have hany : ∀ more : List Item, (found || i.hit c || more.any (·.hit c)) = (found || (i :: more).any (·.hit c)) := by
    intro more
    rw [List.any_cons, Bool.or_assoc]
  cases h with
  | closed more rest hlen' h0 hp' =>
    rw [hany]
    exact .closed (i :: more) rest (by omega) h0 (by rw [hp, hp', List.append_assoc]; rfl)
  | opened more hp' =>
    rw [hany]
    exact .opened (i :: more) (by rw [hp, hp', List.append_assoc]; rfl)
  | cut hp' => exact .cut (by rw [hp, hp'])

/-- **The class loop reads what the parser reads.** -/
theorem matchClass_read (neg : Bool) (c : UInt8) :
    ∀ (n : Nat) (q : Bytes) (items : List Item) (found : Bool), q.length ≤ n → (0 : UInt8) ∉ q →
      ClassRead neg items c q found (matchClass false c (q ++ [0]) q.length found) := by
  intro n
  induction n with
  | zero =>
    intro q items found hn h0
    obtain rfl := List.eq_nil_of_length_eq_zero (Nat.le_zero.mp hn)
    have h := @ClassRead.opened neg items c [] found [] (by simp [parse])
    rw [List.any_nil, Bool.or_false] at h
    rw [List.nil_append, List.length_nil]
    exact matchClass_stop false c [] found ▸ h
  | succ n ih =>
    intro q items found hn h0
    cases q with
    | nil => exact ih [] items found (Nat.zero_le _) h0
    | cons b p =>
      rw [List.length_cons] at hn
      have hb0 : b ≠ 0 := fun h => h0 (h ▸ List.mem_cons_self)
      have hp0 : (0 : UInt8) ∉ p := fun h => h0 (List.mem_cons_of_mem _ h)
      rw [List.cons_append, matchClass.eq_def]
      dsimp only
      by_cases h92 : b = 92
      · subst h92
        rw [if_pos rfl]
        cases p with
        | nil =>
          -- the escape is cut off: the loop takes the terminator for the escaped character
          exact .cut (by simp [parse])
        | cons e q =>
          have hq0 : (0 : UInt8) ∉ q := fun h => hp0 (List.mem_cons_of_mem _ h)
          have hrec := ih q (items ++ [.one e]) (found || e == c) (by simp only [List.length_cons] at hn; omega) hq0
          rw [List.cons_append, show (((92 : UInt8) :: e :: q).length : Int) - 2 = q.length by
            simp only [List.length_cons]; omega]
          exact .member (.one e) (by simp only [List.length_cons]; omega) (by simp [parse]) hrec
      rw [if_neg h92]
      by_cases h93 : b = 93
      · subst h93
        rw [if_pos rfl, show (((93 : UInt8) :: p).length : Int) - 1 = p.length by rw [List.length_cons]; omega]
        have h := @ClassRead.closed neg items c (93 :: p) found [] p
          (by simp) hp0 (by rw [parse_cls_close, List.append_nil])
        rwa [List.any_nil, Bool.or_false] at h
      have hlen0 : ¬ (((b :: p).length : Nat) : Int) = 0 := by rw [List.length_cons]; omega
      rw [if_neg h93, if_neg hlen0, if_neg (by simp)]
      -- a single character, unless a range starts here
      have hone : parse (.cls neg items) (b :: p) = parse (.cls neg (items ++ [.one b])) p →
          ClassRead neg items c (b :: p) found
            (matchClass false c (p ++ [0]) (((b :: p).length : Nat) - 1) (found || sameChar false b c)) := by
        intro hparse
        have hrec := ih p (items ++ [.one b]) (found || b == c) (by omega) hp0
        rw [show (((b :: p).length : Nat) : Int) - 1 = p.length by rw [List.length_cons]; omega]
        exact .member (.one b) (by rw [List.length_cons]; omega) hparse hrec
      rcases p with _ | ⟨d, _ | ⟨stop, q⟩⟩
      · rw [if_neg (by simp)]
        exact hone (by simp [parse, h92, h93])
      · rw [if_neg (by simp)]
        exact hone (by simp [parse, h92, h93])
      · by_cases hd : d = 45
        · subst hd
          have hq0 : (0 : UInt8) ∉ q := fun h => hp0 (List.mem_cons_of_mem _ (List.mem_cons_of_mem _ h))
          have hrec := ih q (items ++ [.range b stop]) (found || inRange false b stop c)
            (by simp only [List.length_cons] at hn; omega) hq0
          rw [if_pos ⟨rfl, by simp only [List.length_cons]; omega⟩]
          simp only [List.cons_append]
          rw [show (((b :: 45 :: stop :: q).length : Nat) : Int) - 3 = q.length by simp only [List.length_cons]; omega]
          exact .member (.range b stop) (by simp only [List.length_cons]; omega) (by simp [parse, h92, h93]) hrec
        · rw [if_neg (by simp [hd])]
          exact hone (parse_cls_single h92 h93 hd)

/-- A class starts behind its bracket, or behind the caret if there is one. -/
theorem class_cases (q : Bytes) :
    (∃ body, q = 94 :: body ∧ parse .out (91 :: q) = parse (.cls true []) body) ∨
      (∃ d r, q ++ [0] = d :: r ∧ d ≠ 94) ∧ parse .out (91 :: q) = parse (.cls false []) q := by
  cases q with
  | nil => exact .inr ⟨⟨0, [], rfl, by decide⟩, by simp [parse]⟩
  | cons d q =>
    by_cases hd : d = 94
    · subst hd
      exact .inl ⟨q, rfl, by simp [parse]⟩
    · refine .inr ⟨⟨d, q ++ [0], rfl, hd⟩, ?_⟩
      conv_lhs => rw [parse.eq_def]
      simp [hd]

/-- A text that starts with a token `t` for one character and goes on with `r`. A class that is not closed ends the
    pattern as if it were closed there. -/
structure Test (p : Bytes) (t : Token) (r : Bytes) : Prop where
  tokens : tokens p = t :: tokens r
  one : t ≠ .star
  cut : cutOff p = cutOff r
  ending : ending p = ending r ∨ r = []
  zero : (0 : UInt8) ∉ r

theorem Test.wilds (h : Test p t r) : wilds (Glob.tokens p) = .one t.test :: wilds (Glob.tokens r) := by
  rw [h.tokens, Glob.wilds, List.map_cons, Token.wild, if_neg h.one]
  rfl

theorem Test.of_parse (hp : parse .out p = consToken t (parse .out r)) (ht : t ≠ .star) (h0 : (0 : UInt8) ∉ r) :
    Test p t r := by
  have hend : Glob.ending p = Glob.ending r := by
    rw [Glob.ending, hp]
    rfl
  exact ⟨by rw [Glob.tokens, hp]; rfl, ht, by rw [cutOff, hend, cutOff], .inl hend, h0⟩

/-- What the matcher makes of a class, behind its bracket and caret: the class is cut off, or it is a test. -/
theorem class_read (h0 : (0 : UInt8) ∉ q) (c : UInt8) :
    ∃ neg body, (q = 94 :: body ∧ neg = true ∨ (∃ d r, q ++ [0] = d :: r ∧ d ≠ 94) ∧ q = body ∧ neg = false) ∧
      ((wilds (tokens (91 :: q)) = [] ∧ cutOff (91 :: q) = true ∧ matchClass false c (body ++ [0]) body.length false = none) ∨
        ∃ more r, Test (91 :: q) (.cls neg more) r ∧ r.length ≤ q.length ∧
          matchClass false c (body ++ [0]) body.length false = some (more.any (·.hit c), r ++ [0], (r.length : Int))) := by
  have hclass : ∀ (neg : Bool) (body : Bytes), (0 : UInt8) ∉ body → body.length ≤ q.length →
      parse .out (91 :: q) = parse (.cls neg []) body →
      (wilds (tokens (91 :: q)) = [] ∧ cutOff (91 :: q) = true ∧ matchClass false c (body ++ [0]) body.length false = none) ∨
        ∃ more r, Test (91 :: q) (.cls neg more) r ∧ r.length ≤ q.length ∧
          matchClass false c (body ++ [0]) body.length false = some (more.any (·.hit c), r ++ [0], (r.length : Int)) := by
    intro neg body hb0 hle hparse
    have hread := matchClass_read neg c _ body [] false le_rfl hb0
    generalize matchClass false c (body ++ [0]) body.length false = m at hread
    cases hread with
    | closed more r hlt hr0 hp =>
      refine .inr ⟨more, r, .of_parse (by rw [hparse, hp, List.nil_append]) (by simp) hr0, by omega, ?_⟩
      rw [Bool.false_or]
    | opened more hp =>
      refine .inr ⟨more, [], ⟨?_, by simp, ?_, .inr rfl, by simp⟩, Nat.zero_le _, ?_⟩
      · rw [tokens, hparse, hp, tokens, parse]
        rfl
      · rw [cutOff, ending, hparse, hp, cutOff, ending, parse]
        rfl
      · rw [Bool.false_or]
        rfl
    | cut hp =>
      refine .inl ⟨?_, ?_, rfl⟩
      · rw [tokens, hparse, hp]
        rfl
      · rw [cutOff, ending, hparse, hp]
        rfl
  rcases class_cases q with ⟨body, rfl, hparse⟩ | ⟨hd, hparse⟩
  · exact ⟨true, body, .inl ⟨rfl, rfl⟩,
      hclass true body (fun h => h0 (List.mem_cons_of_mem _ h)) (by rw [List.length_cons]; omega) hparse⟩
  · exact ⟨false, q, .inr ⟨hd, rfl, rfl⟩, hclass false q h0 le_rfl hparse⟩

/-- The class loop is entered behind the bracket and the caret. -/
theorem class_start {q body : Bytes} (c : UInt8)
    (h : q = 94 :: body ∧ neg = true ∨ (∃ d r, q ++ [0] = d :: r ∧ d ≠ 94) ∧ q = body ∧ neg = false)
    (g : Bool → Bool × Bytes × Int → Option Bool) :
    ((q ++ [0]).head?.bind fun b =>
      (if b = 94 then matchClass false c ((q ++ [0]).drop 1) ((q.length : Int) + 1 - 2) false
        else matchClass false c (q ++ [0]) ((q.length : Int) + 1 - 1) false).bind (g (b == 94)))
      = (matchClass false c (body ++ [0]) body.length false).bind (g neg) := by
  rcases h with ⟨rfl, rfl⟩ | ⟨⟨d, r, hq, hd⟩, rfl, rfl⟩
  · rw [List.cons_append, List.head?_cons, Option.bind_some, if_pos rfl, List.drop_one, List.tail_cons, List.length_cons,
      show ((body.length + 1 : Nat) : Int) + 1 - 2 = body.length by omega]
    rfl
  · rw [hq, List.head?_cons, Option.bind_some, if_neg hd, Int.add_sub_cancel, show (d == 94) = false by simpa using hd]

theorem parse_star (q : Bytes) : parse .out (42 :: q) = consToken .star (parse .out q) := by
  rw [parse.eq_def]
  rfl

theorem test_any (h0 : (0 : UInt8) ∉ q) : Test (63 :: q) .any q :=
  .of_parse (by rw [parse.eq_def]; rfl) (by simp) h0

/-- A literal is an escaped character, a backslash at the end, or a character that is not special. -/
theorem test_escape {e : UInt8} (h0 : (0 : UInt8) ∉ q) : Test (92 :: e :: q) (.lit e) q :=
  .of_parse (by rw [parse.eq_def]; rfl) (by simp) h0

theorem test_backslash : Test [92] (.lit 92) [] where
  tokens := rfl
  one := by simp
  cut := rfl
  ending := .inr rfl
  zero := by simp

theorem test_lit (h0 : (0 : UInt8) ∉ q) (h42 : b ≠ 42) (h63 : b ≠ 63) (h91 : b ≠ 91) (h92 : b ≠ 92) :
    Test (b :: q) (.lit b) q := by
  refine .of_parse ?_ (by simp) h0
  rw [parse.eq_def]
  simp only [if_neg h42, if_neg h63, if_neg h91, if_neg h92]

/-- A text that does not start with a star starts with a test, unless it is a class cut off behind a backslash. -/
theorem test_cases (h0 : (0 : UInt8) ∉ q) (hb : b ≠ 42) :
    (wilds (tokens (b :: q)) = [] ∧ cutOff (b :: q) = true) ∨ ∃ t r, Test (b :: q) t r := by
  by_cases h63 : b = 63
  · subst h63
    exact .inr ⟨_, _, test_any h0⟩
  by_cases h91 : b = 91
  · subst h91
    obtain ⟨neg, body, -, hcut | ⟨more, r, ht, -⟩⟩ := class_read h0 0
    · exact .inl ⟨hcut.1, hcut.2.1⟩
    · exact .inr ⟨_, r, ht⟩
  by_cases h92 : b = 92
  · subst h92
    cases q with
    | nil => exact .inr ⟨_, _, test_backslash⟩
    | cons e q => exact .inr ⟨_, _, test_escape fun h => h0 (List.mem_cons_of_mem _ h)⟩
  · exact .inr ⟨_, _, test_lit h0 hb h63 h91 h92⟩

/-- What is left behind the leading stars of a text. -/
structure Stripped (q q' : Bytes) : Prop where
  le : q'.length ≤ q.length
  zero : (0 : UInt8) ∉ q'
  wilds : wilds (tokens q') = (wilds (tokens q)).dropWhile Wild.isStar
  ending : ending q' = ending q
  empty : q' = [] ↔ (Glob.wilds (tokens q)).dropWhile Wild.isStar = [] ∧ cutOff q = false

theorem Stripped.cut {q q' : Bytes} (h : Stripped q q') : cutOff q' = cutOff q := by
  rw [cutOff, h.ending, cutOff]

theorem wilds_star (q : Bytes) : wilds (tokens (42 :: q)) = .star :: wilds (tokens q) := by
  rw [tokens, parse_star]
  rfl

theorem cutOff_star (q : Bytes) : cutOff (42 :: q) = cutOff q := by
  rw [cutOff, ending, parse_star]
  rfl

/-- Skipping stars in the text skips them in the pattern. -/
theorem skipStars_read (h0 : (0 : UInt8) ∉ q) (d : Int) :
    ∃ q', skipStars (q ++ [0]) (q.length + d) = some (q' ++ [0], q'.length + d) ∧ Stripped q q' := by
  induction q with
  | nil => exact ⟨[], rfl, le_rfl, h0, rfl, rfl, fun _ => ⟨rfl, rfl⟩, fun _ => rfl⟩
  | cons b q ih =>
    have hq0 : (0 : UInt8) ∉ q := fun h => h0 (List.mem_cons_of_mem _ h)
    by_cases hb : b = 42
    · subst hb
      obtain ⟨q', hskip, hs⟩ := ih hq0
      have htok : (wilds (tokens (42 :: q))).dropWhile Wild.isStar = (wilds (tokens q)).dropWhile Wild.isStar := by
        rw [wilds_star]
        rfl
      refine ⟨q', ?_, Nat.le_succ_of_le hs.le, hs.zero, by rw [htok, hs.wilds],
        by rw [hs.ending, ending, ending, parse_star]; rfl, by rw [htok, cutOff_star]; exact hs.empty⟩
      rw [List.cons_append, skipStars, if_pos rfl, ← hskip, List.length_cons]
      congr 1
      push_cast
      omega
    · have hkeep : (wilds (tokens (b :: q))).dropWhile Wild.isStar = wilds (tokens (b :: q)) := by
        rcases test_cases hq0 hb with ⟨h, -⟩ | ⟨t, r, ht⟩
        · rw [h]
          rfl
        · rw [ht.wilds]
          rfl
      refine ⟨b :: q, by rw [List.cons_append, skipStars, if_neg hb], le_rfl, h0, hkeep.symm, rfl, ?_⟩
      rw [hkeep]
      refine ⟨fun h => absurd h (List.cons_ne_nil _ _), fun h => ?_⟩
      rcases test_cases hq0 hb with ⟨-, hcut⟩ | ⟨t, r, ht⟩
      · rw [hcut] at h
        cases h.2
      · rw [ht.wilds] at h
        cases h.1

/-! ## Strings that are not empty -/

/-- What the matcher is to answer on `s`: membership, or for a pattern that is cut off no answer once it gets there. -/
structure Verdict (ts : List (Wild UInt8)) (cut : Bool) (s : Bytes) (r : Option Bool) : Prop where
  decides : cut = false → ∃ b, r = some b ∧ (b = true ↔ Wild.Matches ts s)
  fails : cut = true → Wild.Reaches ts s → r = none
  stops : cut = true → ¬ Wild.Reaches ts s → r = some false

section

variable {ts : List (Wild UInt8)} {cut : Bool} {s : Bytes} {c : UInt8} {f : UInt8 → Bool} {r : Option Bool}

theorem Verdict.reject (hf : f c = false) : Verdict (.one f :: ts) cut (c :: s) (some false) where
  decides := fun _ => ⟨false, rfl, by rw [Wild.matches_one_cons, hf]; simp⟩
  fails := fun _ h => by
    rw [Wild.reaches_one_cons, hf] at h
    exact absurd h.1 (by simp)
  stops := fun _ _ => rfl

theorem Verdict.accept (hf : f c = true) (h : Verdict ts cut s r) : Verdict (.one f :: ts) cut (c :: s) r where
  decides := by
    intro he
    obtain ⟨b, hr, hb⟩ := h.decides he
    exact ⟨b, hr, by rw [hb, Wild.matches_one_cons, hf]; simp⟩
  fails := fun he hreach => h.fails he (Wild.reaches_one_cons.mp hreach).2
  stops := fun he hreach => h.stops he fun hr => hreach (Wild.reaches_one_cons.mpr ⟨hf, hr⟩)

/-- The tries of a star, one after the other. The pattern behind it does not match the empty string. -/
theorem Verdict.tries (hne : cut = false → ¬ Wild.Matches ts []) {f : UInt8 → Bytes → Option Bool}
    (hf : ∀ c s, Verdict ts cut (c :: s) (f c s)) :
    ∀ (s : Bytes) (c : UInt8), Verdict (.star :: ts) cut (c :: s) (anySuffix f c s) := by
  intro s
  induction s with
  | nil =>
    intro c
    have h := hf c []
    have hreach : Wild.Reaches (.star :: ts) [c] ↔ Wild.Reaches ts [c] := by
      rw [Wild.reaches_star_cons]
      exact ⟨fun hr => hr.resolve_right Wild.not_reaches_nil, .inl⟩
    refine ⟨fun he => ?_, fun he hr => h.fails he (hreach.mp hr), fun he hr => h.stops he fun hr' => hr (hreach.mpr hr')⟩
    obtain ⟨b, hb, hiff⟩ := h.decides he
    refine ⟨b, hb, ?_⟩
    rw [hiff, Wild.matches_star_cons, Wild.matches_star_nil]
    exact ⟨.inl, fun hm => hm.resolve_right (hne he)⟩
  | cons c' s ih =>
    intro c
    have h := hf c (c' :: s)
    have hrec := ih c'
    rw [anySuffix]
    constructor
    · intro he
      obtain ⟨b, hb, hiff⟩ := h.decides he
      obtain ⟨b', hb', hiff'⟩ := hrec.decides he
      rw [hb, Option.bind_some]
      cases b with
      | true => exact ⟨true, if_pos rfl, by rw [Wild.matches_star_cons, ← hiff]; simp⟩
      | false => exact ⟨b', hb', by rw [Wild.matches_star_cons, ← hiff, ← hiff']; simp⟩
    · intro he hr
      rw [Wild.reaches_star_cons] at hr
      by_cases hnow : Wild.Reaches ts (c :: c' :: s)
      · rw [h.fails he hnow]
        rfl
      · rw [h.stops he hnow]
        exact hrec.fails he (hr.resolve_left hnow)
    · intro he hr
      rw [Wild.reaches_star_cons, not_or] at hr
      rw [h.stops he hr.1]
      exact hrec.stops he hr.2

/-- Stars in a row are one star. -/
theorem Verdict.ofDropStars (h : Verdict (.star :: ts.dropWhile Wild.isStar) cut s r) : Verdict (.star :: ts) cut s r where
  decides := by
    intro he
    obtain ⟨b, hb, hiff⟩ := h.decides he
    exact ⟨b, hb, by rw [hiff, Wild.matches_dropStars]⟩
  fails := fun he hr => h.fails he ((Wild.reaches_dropStars _).mpr hr)
  stops := fun he hr => h.stops he fun hr' => hr ((Wild.reaches_dropStars _).mp hr')

end

/-- The string is at its end: only stars may be left. -/
theorem Verdict.atEnd (h0 : (0 : UInt8) ∉ q) :
    Verdict (wilds (tokens q)) (cutOff q) [] ((skipStars (q ++ [0]) q.length).map fun r => r.2 == 0) := by
  obtain ⟨q', hskip, hs⟩ := skipStars_read h0 0
  rw [Int.add_zero, Int.add_zero] at hskip
  rw [hskip, Option.map_some]
  have hempty : ((q'.length : Int) == 0) = true ↔ q' = [] := by
    rw [beq_iff_eq, Int.natCast_eq_zero, List.length_eq_zero_iff]
  refine ⟨fun he => ⟨_, rfl, ?_⟩, fun _ h => absurd h Wild.not_reaches_nil, fun he _ => ?_⟩
  · rw [hempty, hs.empty, Wild.matches_nil_iff]
    exact ⟨And.left, fun h => ⟨h, he⟩⟩
  · have hne : q' ≠ [] := fun h => by
      have := (hs.empty.mp h).2
      rw [he] at this
      cases this
    rw [Option.some.injEq, ← Bool.not_eq_true, hempty]
    exact hne

/-- A turn at a star. -/
theorem Verdict.star {later : Bytes → Int → UInt8 → Bytes → Option Bool} (h0 : (0 : UInt8) ∉ q)
    (hlater : ∀ (r : Bytes) (c : UInt8) (s : Bytes), r.length ≤ q.length → (0 : UInt8) ∉ r →
      Verdict (wilds (tokens r)) (cutOff r) (c :: s) (later (r ++ [0]) r.length c s)) (c : UInt8) (s : Bytes) :
    Verdict (wilds (tokens (42 :: q))) (cutOff (42 :: q)) (c :: s)
      (matchTurn false later (42 :: (q ++ [0])) (q.length + 1) c s) := by
  rw [matchTurn, if_pos rfl, wilds_star, cutOff_star]
  obtain ⟨q', hskip, hs⟩ := skipStars_read h0 1
  rw [hskip, Option.bind_some]
  dsimp only
  by_cases hq' : q' = []
  · subst hq'
    obtain ⟨hall, hcut⟩ := hs.empty.mp rfl
    rw [if_pos (by simp), hcut]
    refine ⟨fun _ => ⟨true, rfl, ?_⟩, fun he => Bool.noConfusion he, fun he => Bool.noConfusion he⟩
    rw [← Wild.matches_dropStars, hall]
    simp [Wild.matches_star_all]
  · have hne : ¬ ((q'.length : Int) + 1 = 1) := by
      have := List.length_pos_iff.mpr hq'
      omega
    rw [if_neg hne, Int.add_sub_cancel]
    apply Verdict.ofDropStars
    rw [← hs.wilds, ← hs.cut]
    refine Verdict.tries ?_ (fun c s => hlater q' c s hs.le hs.zero) s c
    intro hcut hm
    -- what is left starts with a test, which the empty string does not pass
    rw [hs.wilds] at hm
    rcases Wild.dropStars_cases (wilds (tokens q)) with hnil | ⟨f, ts, hcons⟩
    · exact hq' (hs.empty.mpr ⟨hnil, by rw [← hs.cut, hcut]⟩)
    · rw [hcons] at hm
      exact Wild.not_matches_one_nil hm

/-- A turn at anything else: the matcher gets to a class that is cut off, or makes the test and goes on. -/
theorem matchTurn_read (h0 : (0 : UInt8) ∉ q) (hb : b ≠ 42) (later : Bytes → Int → UInt8 → Bytes → Option Bool)
    (c : UInt8) (s : Bytes) :
    (wilds (tokens (b :: q)) = [] ∧ cutOff (b :: q) = true ∧ matchTurn false later (b :: (q ++ [0])) (q.length + 1) c s = none) ∨
      ∃ t r, Test (b :: q) t r ∧ r.length ≤ q.length ∧ matchTurn false later (b :: (q ++ [0])) (q.length + 1) c s
        = if t.test c then endTurn later s (r ++ [0]) r.length else some false := by
  rw [matchTurn, if_neg hb]
  by_cases h63 : b = 63
  · subst h63
    refine .inr ⟨_, q, test_any h0, le_rfl, ?_⟩
    rw [if_pos rfl, Int.add_sub_cancel]
    rfl
  rw [if_neg h63]
  by_cases h91 : b = 91
  · subst h91
    obtain ⟨neg, body, hstart, hread⟩ := class_read h0 c
    have hturn := class_start c hstart fun neg x => if x.1 == neg then some false else endTurn later s x.2.1 x.2.2
    rw [if_pos rfl, hturn]
    rcases hread with ⟨hnil, hcut, hnone⟩ | ⟨more, r, ht, hle, hsome⟩
    · rw [hnone]
      exact .inl ⟨hnil, hcut, rfl⟩
    · refine .inr ⟨_, r, ht, hle, ?_⟩
      rw [hsome, Option.bind_some]
      dsimp only [Token.test]
      cases hm : (more.any fun x => x.hit c) == neg with
      | true => simp [bne, hm]
      | false => simp [bne, hm]
  rw [if_neg h91]
  have hsame : ∀ a : UInt8, sameChar false a c = (Token.lit a).test c := fun _ => rfl
  by_cases h92 : b = 92
  · subst h92
    cases q with
    | nil =>
      refine .inr ⟨_, [], test_backslash, le_rfl, ?_⟩
      rw [if_neg (by simp), hsame]
      rfl
    | cons e q =>
      refine .inr ⟨_, q, test_escape fun h => h0 (List.mem_cons_of_mem _ h), by simp, ?_⟩
      rw [if_pos ⟨rfl, by simp only [List.length_cons]; omega⟩, List.cons_append, List.head?_cons, Option.bind_some, hsame,
        List.drop_one, List.tail_cons, List.length_cons, show ((q.length + 1 : Nat) : Int) + 1 - 2 = q.length by omega]
  · refine .inr ⟨_, q, test_lit h0 hb h63 h91 h92, le_rfl, ?_⟩
    rw [if_neg fun h => h92 h.1, hsame, Int.add_sub_cancel]

/-- **The matcher decides the language** on strings that are not empty, or gets to the class that is cut off. -/
theorem stringmatchlen_verdict :
    ∀ (fuel : Nat) (p : Bytes) (c : UInt8) (s : Bytes), p.length < fuel → (0 : UInt8) ∉ p →
      Verdict (wilds (tokens p)) (cutOff p) (c :: s) (stringmatchlen false fuel (p ++ [0]) p.length c s) := by
  intro fuel
  induction fuel with
  | zero => intro p c s h; exact absurd h (Nat.not_lt_zero _)
  | succ fuel ih =>
    intro p c s hfuel h0
    rw [stringmatchlen]
    dsimp only
    cases p with
    | nil =>
      rw [if_pos (by simp)]
      exact ⟨fun _ => ⟨false, rfl, by simp [tokens, parse, wilds, Wild.Matches]⟩, fun he => Bool.noConfusion he,
        fun he => Bool.noConfusion he⟩
    | cons b q =>
      have hq0 : (0 : UInt8) ∉ q := fun h => h0 (List.mem_cons_of_mem _ h)
      rw [List.length_cons] at hfuel
      have hlen : (((b :: q).length : Nat) : Int) = q.length + 1 := by simp
      rw [hlen, if_neg (by omega), List.cons_append]
      by_cases hb : b = 42
      · subst hb
        exact .star hq0 (fun r c s hr => ih r c s (by omega)) c s
      rcases matchTurn_read hq0 hb (stringmatchlen false fuel) c s with ⟨hnil, hcut, hturn⟩ | ⟨t, r, ht, hle, hturn⟩
      · rw [hnil, hcut, hturn]
        exact ⟨fun he => Bool.noConfusion he, fun _ _ => rfl, fun _ h => absurd Wild.reaches_empty h⟩
      · rw [ht.wilds, ht.cut, hturn]
        cases hf : t.test c with
        | false => exact .reject hf
        | true =>
          refine .accept hf ?_
          cases s with
          | nil => exact .atEnd ht.zero
          | cons c' s => exact ih r c' s (by omega) ht.zero

/-! ## The empty string -/

/-- Tokens that are passed behind the end of the string without a read of it and without a false match: `?` and
    classes without members. -/
def quiet (cut : Bool) : List Token → Bool
  | [] => !cut
  | .any :: ts => quiet cut ts
  | .cls true [] :: ts => quiet cut ts
  | .cls false [] :: _ => true
  | _ => false

/-- The matcher may be given the empty string: the pattern does not start with a class that is cut off, and if it
    starts with a class that the terminator passes, then only quiet tokens follow. -/
def emptyOk (p : Bytes) : Bool :=
  match tokens p with
  | [] => !cutOff p
  | .cls neg items :: ts => !(Token.cls neg items).test 0 || quiet (cutOff p) ts
  | _ => true

/-- The tokens of a class that has a member are not quiet. -/
theorem not_quiet_member (neg : Bool) (i : Item) {body : Bytes} (h0 : (0 : UInt8) ∉ body) {p : Bytes}
    (hp : parse .out p = parse (.cls neg [i]) body) : quiet (cutOff p) (tokens p) = false := by
  have hread := matchClass_read neg 0 _ body [i] false le_rfl h0
  generalize matchClass false 0 (body ++ [0]) body.length false = r at hread
  cases hread with
  | closed more rest _ _ hc =>
    rw [tokens, hp, hc]
    cases neg <;> rfl
  | opened more hc =>
    rw [tokens, hp, hc]
    cases neg <;> rfl
  | cut hc => rw [tokens, cutOff, ending, hp, hc]; rfl

theorem not_quiet_class {d : UInt8} {q p : Bytes} (hd : d ≠ 93) (h0 : (0 : UInt8) ∉ q)
    (hp : parse .out p = parse (.cls neg []) (d :: q)) : quiet (cutOff p) (tokens p) = false := by
  by_cases h92 : d = 92
  · subst h92
    cases q with
    | nil => rw [tokens, cutOff, ending, hp]; rfl
    | cons e q => exact not_quiet_member neg (.one e) (fun h => h0 (List.mem_cons_of_mem _ h)) (by rw [hp]; simp [parse])
  · rcases q with _ | ⟨a, _ | ⟨stop, q⟩⟩
    · exact not_quiet_member neg (.one d) h0 (by rw [hp]; simp [parse, h92, hd])
    · exact not_quiet_member neg (.one d) h0 (by rw [hp]; simp [parse, h92, hd])
    · by_cases ha : a = 45
      · subst ha
        exact not_quiet_member neg (.range d stop) (fun h => h0 (List.mem_cons_of_mem _ (List.mem_cons_of_mem _ h)))
          (by rw [hp]; simp [parse, h92, hd])
      · exact not_quiet_member neg (.one d) h0 (by rw [hp, parse_cls_single h92 hd ha, List.nil_append])

/-- The answer behind the end of the string: no match exactly for quiet tokens, and a match only for a pattern that
    ends well. -/
structure BeyondSpec (p : Bytes) (r : Option Bool) : Prop where
  quiet : r = some false ↔ quiet (cutOff p) (tokens p) = true
  good : r = some true → ending p = .good

theorem BeyondSpec.outside {p : Bytes} (h : Glob.quiet (cutOff p) (tokens p) = false) : BeyondSpec p none :=
  ⟨by rw [h]; simp, fun hr => by cases hr⟩

/-- A token that is passed. -/
theorem BeyondSpec.pass {res : Option Bool} (ht : Test p t r)
    (hq : Glob.quiet (cutOff p) (tokens p) = Glob.quiet (cutOff r) (tokens r)) (hnil : r = [] → res = some false)
    (h : BeyondSpec r res) : BeyondSpec p res where
  quiet := by rw [hq]; exact h.quiet
  good := by
    intro hr
    rcases ht.ending with he | rfl
    · rw [he]
      exact h.good hr
    · rw [hnil rfl] at hr
      cases hr

/-- The step at a class: without members it is passed or rejects, otherwise the string is read. -/
theorem stringmatchBeyond_class (h0 : (0 : UInt8) ∉ q) {fuel : Nat} (hfuel : q.length < fuel)
    (ih : ∀ r : Bytes, r.length ≤ q.length → (0 : UInt8) ∉ r → BeyondSpec r (stringmatchBeyond fuel (r ++ [0]) r.length)) :
    BeyondSpec (91 :: q) (stringmatchBeyond (fuel + 1) (91 :: (q ++ [0])) (q.length + 1)) := by
  have hnil : ∀ r : Bytes, r = [] → stringmatchBeyond fuel (r ++ [0]) r.length = some false := by
    rintro r rfl
    obtain ⟨n, rfl⟩ := Nat.exists_eq_succ_of_ne_zero (Nat.ne_of_gt (Nat.lt_of_le_of_lt (Nat.zero_le _) hfuel))
    rfl
  -- the three forms of what follows the bracket and the caret
  have hbody : ∀ (neg : Bool) (body : Bytes), body.length ≤ q.length → (0 : UInt8) ∉ body →
      parse .out (91 :: q) = parse (.cls neg []) body →
      BeyondSpec (91 :: q) (match body ++ [0] with
        | [] => none
        | d :: rest =>
          if d = 93 then if neg then stringmatchBeyond fuel rest ((body.length : Int) - 1) else some false
          else if d ≠ 92 ∧ (body.length : Int) = 0 then if neg then stringmatchBeyond fuel (d :: rest) 0 else some false
          else none) := by
    intro neg body hle hb0 hparse
    cases body with
    | nil =>
      have ht : Test (91 :: q) (.cls neg []) [] := by
        refine ⟨?_, by simp, ?_, .inr rfl, by simp⟩
        · rw [tokens, hparse]
          rfl
        · rw [cutOff, ending, hparse]
          rfl
      simp only [List.nil_append, List.length_nil]
      rw [if_neg (by decide), if_pos (by decide)]
      cases neg with
      | true => exact .pass ht (by rw [ht.tokens, ht.cut]; rfl) (hnil []) (ih [] (Nat.zero_le _) (by simp))
      | false => exact ⟨by rw [ht.tokens]; simp [quiet], fun h => by cases h⟩
    | cons d r =>
      have hr0 : (0 : UInt8) ∉ r := fun h => hb0 (List.mem_cons_of_mem _ h)
      rw [List.length_cons] at hle
      simp only [List.cons_append, List.length_cons]
      by_cases hd : d = 93
      · subst hd
        have ht : Test (91 :: q) (.cls neg []) r := .of_parse (by rw [hparse, parse_cls_close]) (by simp) hr0
        rw [if_pos rfl, show ((r.length + 1 : Nat) : Int) - 1 = r.length by omega]
        cases neg with
        | true => exact .pass ht (by rw [ht.tokens, ht.cut]; rfl) (hnil r) (ih r (by omega) hr0)
        | false => exact ⟨by rw [ht.tokens]; simp [quiet], fun h => by cases h⟩
      · rw [if_neg hd, if_neg fun h => absurd h.2 (by omega)]
        exact .outside (not_quiet_class hd hr0 hparse)
  rw [stringmatchBeyond.eq_def]
  dsimp only
  rw [if_neg (by omega), if_neg (by decide), if_neg (by decide), if_pos rfl]
  rcases class_cases q with ⟨body, rfl, hparse⟩ | ⟨⟨d, r, hq, hd⟩, hparse⟩
  · have h := hbody true body (by simp) (fun h => h0 (List.mem_cons_of_mem _ h)) hparse
    rw [List.cons_append, List.head?_cons, Option.bind_some, if_pos rfl, List.drop_one, List.tail_cons, List.length_cons,
      show ((body.length + 1 : Nat) : Int) + 1 - 2 = body.length by omega]
    exact h
  · have h := hbody false q le_rfl h0 hparse
    rw [hq] at h ⊢
    rw [List.head?_cons, Option.bind_some, if_neg hd, Int.add_sub_cancel, show (d == 94) = false by simpa using hd]
    exact h

theorem stringmatchBeyond_spec :
    ∀ (fuel : Nat) (p : Bytes), p.length < fuel → (0 : UInt8) ∉ p →
      BeyondSpec p (stringmatchBeyond fuel (p ++ [0]) p.length) := by
  intro fuel
  induction fuel with
  | zero => intro p h; exact absurd h (Nat.not_lt_zero _)
  | succ fuel ih =>
    intro p hfuel h0
    cases p with
    | nil => exact ⟨by simp [stringmatchBeyond, quiet, tokens, cutOff, ending, parse], fun _ => rfl⟩
    | cons b q =>
      have hq0 : (0 : UInt8) ∉ q := fun h => h0 (List.mem_cons_of_mem _ h)
      rw [List.length_cons] at hfuel
      have hlen : (((b :: q).length : Nat) : Int) = q.length + 1 := by simp
      rw [hlen, List.cons_append]
      by_cases h91 : b = 91
      · subst h91
        exact stringmatchBeyond_class hq0 (by omega) fun r hr => ih r (by omega)
      rw [stringmatchBeyond.eq_def]
      dsimp only
      rw [if_neg (by omega)]
      by_cases h42 : b = 42
      · subst h42
        obtain ⟨q', hskip, hs⟩ := skipStars_read hq0 1
        have hnq : quiet (cutOff (42 :: q)) (tokens (42 :: q)) = false := by
          rw [tokens, parse_star]
          rfl
        have hend : ending (42 :: q) = ending q' := by
          rw [ending, parse_star, hs.ending]
          rfl
        rw [if_pos rfl, hskip, Option.bind_some]
        dsimp only
        by_cases hq' : q' = []
        · subst hq'
          rw [if_pos (by simp)]
          exact ⟨by rw [hnq]; simp, fun _ => by rw [hend]; rfl⟩
        · have hle := hs.le
          have hne : ¬ ((q'.length : Int) + 1 = 1) := by
            have := List.length_pos_iff.mpr hq'
            omega
          have hrec := ih q' (by omega) hs.zero
          rw [if_neg hne, Int.add_sub_cancel]
          cases hr : stringmatchBeyond fuel (q' ++ [0]) q'.length with
          | none => exact .outside hnq
          | some found =>
            cases found with
            | false => exact .outside hnq
            | true => exact ⟨by rw [hnq]; simp, fun _ => by rw [hend]; exact hrec.good hr⟩
      rw [if_neg h42]
      by_cases h63 : b = 63
      · subst h63
        have ht := test_any hq0
        rw [if_pos rfl, Int.add_sub_cancel]
        refine .pass ht (by rw [ht.tokens, ht.cut]; rfl) ?_ (ih q (by omega) hq0)
        rintro rfl
        obtain ⟨n, rfl⟩ := Nat.exists_eq_succ_of_ne_zero (show fuel ≠ 0 by simp at hfuel; omega)
        rfl
      rw [if_neg h63, if_neg h91]
      refine .outside ?_
      by_cases h92 : b = 92
      · subst h92
        cases q with
        | nil => rfl
        | cons e q =>
          rw [(test_escape (e := e) fun h => hq0 (List.mem_cons_of_mem _ h)).tokens]
          rfl
      · rw [(test_lit hq0 h42 h63 h91 h92).tokens]
        rfl

/-- There is an answer, and for a well-formed pattern it is membership in the language of `ts`. -/
def Answers (ts : List (Wild UInt8)) (p s : Bytes) (r : Option Bool) : Prop :=
  ∃ b, r = some b ∧ (WellFormed p → (b = true ↔ Wild.Matches ts s))

theorem Answers.reject (ht : Test p t r) : Answers (wilds (tokens p)) p [] (some false) :=
  ⟨false, rfl, fun _ => by rw [ht.wilds]; simp [Wild.not_matches_one_nil]⟩

/-- **The empty string.** -/
theorem stringmatchEmpty_answers {p : Bytes} (h0 : (0 : UInt8) ∉ p) {fuel : Nat} (hfuel : p.length < fuel) :
    Answers (wilds (tokens p)) p [] (stringmatchEmpty false fuel (p ++ [0]) p.length) ↔ emptyOk p = true := by
  cases p with
  | nil => exact ⟨fun _ => rfl, fun _ => ⟨true, rfl, fun _ => by simp [tokens, parse, wilds, Wild.Matches]⟩⟩
  | cons b q =>
    have hq0 : (0 : UInt8) ∉ q := fun h => h0 (List.mem_cons_of_mem _ h)
    rw [List.length_cons] at hfuel
    have hlen : (((b :: q).length : Nat) : Int) = q.length + 1 := by simp
    rw [hlen, List.cons_append]
    unfold stringmatchEmpty
    rw [if_neg (by omega)]
    dsimp only
    by_cases h42 : b = 42
    · subst h42
      obtain ⟨q', hskip, hs⟩ := skipStars_read hq0 1
      have hok : emptyOk (42 :: q) = true := by
        rw [emptyOk, tokens, parse_star]
        rfl
      rw [if_pos rfl, hskip, Option.map_some, hok]
      refine ⟨fun _ => rfl, fun _ => ⟨_, rfl, fun hwf => ?_⟩⟩
      have hcut : cutOff q = false := by
        rw [← cutOff_star, cutOff, hwf]
        rfl
      have hempty : ((q'.length : Int) + 1 == 1) = true ↔ q' = [] := by
        rw [beq_iff_eq, ← List.length_eq_zero_iff]
        omega
      rw [hempty, hs.empty, hcut, wilds_star, Wild.matches_star_nil, Wild.matches_nil_iff]
      simp
    rw [if_neg h42]
    by_cases h63 : b = 63
    · subst h63
      have ht := test_any hq0
      have hok : emptyOk (63 :: q) = true := by
        rw [emptyOk, ht.tokens]
      rw [if_pos rfl, hok]
      exact ⟨fun _ => rfl, fun _ => .reject ht⟩
    rw [if_neg h63]
    by_cases h91 : b = 91
    · subst h91
      obtain ⟨neg, body, hstart, hread⟩ := class_read hq0 0
      have hturn := class_start 0 hstart fun neg x => if x.1 == neg then some false else stringmatchBeyond fuel x.2.1 x.2.2
      rw [if_pos rfl, hturn]
      rcases hread with ⟨hnil, hcut, hnone⟩ | ⟨more, r, ht, hle, hsome⟩
      · have hok : emptyOk (91 :: q) = false := by
          rw [emptyOk, List.map_eq_nil_iff.mp hnil, hcut]
          rfl
        rw [hnone, hok]
        refine ⟨?_, fun h => Bool.noConfusion h⟩
        rintro ⟨b, hb, -⟩
        cases hb
      · have hok : emptyOk (91 :: q) = (!(Token.cls neg more).test 0 || quiet (cutOff r) (tokens r)) := by
          rw [emptyOk, ht.tokens, ht.cut]
        have hrec := stringmatchBeyond_spec fuel r (by omega) ht.zero
        rw [hsome, Option.bind_some, hok]
        dsimp only [Token.test]
        cases hm : (more.any fun x => x.hit 0) == neg with
        | true =>
          simp only [bne, hm, if_true, Bool.not_true, Bool.not_false, Bool.true_or, iff_true]
          exact .reject ht
        | false =>
          simp only [bne, hm, Bool.false_eq_true, if_false, Bool.not_false, Bool.not_true, Bool.false_or]
          rw [← hrec.quiet]
          constructor
          · rintro ⟨b, hb, hwf⟩
            cases b with
            | false => exact hb
            | true =>
              -- a match would be wrong: the pattern ends well and needs a character
              rcases ht.ending with he | rfl
              · have hmatch := (hwf (he.trans (hrec.good hb))).mp rfl
                rw [ht.wilds] at hmatch
                exact absurd hmatch Wild.not_matches_one_nil
              · exact hrec.quiet.mpr rfl
          · intro hb
            rw [hb]
            exact .reject ht
    rw [if_neg h91]
    -- a literal is compared with the terminator, which is not in the pattern
    have hlit : ∀ {a : UInt8} {r : Bytes} (x : Option Bool), a ∈ b :: q → Test (b :: q) (.lit a) r →
        (Answers (wilds (tokens (b :: q))) (b :: q) [] (if sameChar false a 0 then x else some false) ↔
          emptyOk (b :: q) = true) := by
      intro a r x ha ht
      have hne : sameChar false a 0 = false := by
        have : a ≠ 0 := fun h => h0 (h ▸ ha)
        simpa [sameChar] using this
      have hok : emptyOk (b :: q) = true := by
        rw [emptyOk, ht.tokens]
      rw [hne, if_neg (by simp), hok]
      exact ⟨fun _ => rfl, fun _ => .reject ht⟩
    by_cases h92 : b = 92
    · subst h92
      cases q with
      | nil =>
        rw [if_neg (by simp)]
        exact hlit _ List.mem_cons_self test_backslash
      | cons e q =>
        rw [if_pos ⟨rfl, by simp only [List.length_cons]; omega⟩, List.cons_append, List.head?_cons, Option.bind_some]
        exact hlit _ (List.mem_cons_of_mem _ List.mem_cons_self) (test_escape fun h => hq0 (List.mem_cons_of_mem _ h))
    · rw [if_neg fun h => h92 h.1]
      exact hlit _ List.mem_cons_self (test_lit hq0 h42 h63 h91 h92)

/-- Only the stars decide on the empty string, so it does not matter how ranges are read. -/
theorem language_nil (p : Bytes) : Wild.Matches (language p) [] ↔ Wild.Matches (wilds (tokens p)) [] := by
  rw [language, wilds]
  induction tokens p with
  | nil => rfl
  | cons t ts ih =>
    rw [List.map_cons, List.map_cons, Token.wild]
    by_cases ht : t = .star
    · rw [if_pos ht, if_pos ht, Wild.matches_star_nil, Wild.matches_star_nil, ih]
    · rw [if_neg ht, if_neg ht]
      exact iff_of_false Wild.not_matches_one_nil Wild.not_matches_one_nil

/-! ## Ranges -/

/-- A range with both ends below 128, or both above. -/
def Item.Narrow : Item → Prop
  | .one _ => True
  | .range a b => a < 128 ↔ b < 128

def Token.Narrow : Token → Prop
  | .cls _ items => ∀ i ∈ items, i.Narrow
  | _ => True

/-- The order of `char`s: that of the bytes on either side of 128, and the upper half is below the lower one. -/
theorem schar_le_iff {a b : UInt8} : schar a ≤ schar b ↔
    (a.toNat < 128 ↔ b.toNat < 128) ∧ a.toNat ≤ b.toNat ∨ 128 ≤ a.toNat ∧ b.toNat < 128 := by
  have hschar : ∀ d : UInt8, schar d = if d.toNat < 128 then (d.toNat : Int) else d.toNat - 256 := fun _ => rfl
  have ha := a.toNat_lt
  have hb := b.toNat_lt
  rw [hschar, hschar]
  split <;> split <;> omega

/-- **Such a range is read as it is meant.** -/
theorem Item.Narrow.hit_eq {i : Item} (h : i.Narrow) (c : UInt8) : i.hit c = i.has c := by
  cases i with
  | one a => rfl
  | range a b =>
    have hends : a.toNat < 128 ↔ b.toNat < 128 := h
    rw [hit, has, inRange, decide_eq_decide]
    simp only [Bool.false_eq_true, if_false, gt_iff_lt, ← not_le, UInt8.le_iff_toNat_le]
    split <;> simp only [schar_le_iff] at * <;> omega

/-- A pattern with such ranges only is compared with the language that it stands for. -/
theorem wilds_eq_language {p : Bytes} (h : ∀ t ∈ tokens p, t.Narrow) : wilds (tokens p) = language p := by
  refine List.map_congr_left fun t ht => ?_
  have htest : t.test = t.stands := by
    funext c
    cases t with
    | cls neg items =>
      have hitems : items.any (·.hit c) = items.any (·.has c) := by
        rw [Bool.eq_iff_iff, List.any_eq_true, List.any_eq_true]
        exact exists_congr fun i => and_congr_right fun hi => by rw [(h _ ht i hi).hit_eq c]
      rw [Token.test, Token.stands, hitems]
    | _ => rfl
  rw [Token.wild, htest]

/-! ## All strings -/

/-- What the matcher is to do with a string: an answer, and for a well-formed pattern the right one. -/
def Proper (p s : Bytes) (r : Option Bool) : Prop := Answers (language p) p s r

/-- When the matcher does as it should. On the empty string `emptyOk`. Otherwise it must not get to a class that is
    cut off behind a backslash, which it does if a proper prefix of the string matches what stands before that class;
    and it must make no difference for the string that the ends of ranges are compared as `char`s. -/
def Harmless (p s : Bytes) : Prop :=
  if s = [] then emptyOk p = true
  else (cutOff p = true → ¬ Wild.Reaches (wilds (tokens p)) s) ∧
    (WellFormed p → (Wild.Matches (wilds (tokens p)) s ↔ Wild.Matches (language p) s))

/-- **Glob matching.** On C strings the matcher returns, without a read outside of them and with the right answer for a
    well-formed pattern, exactly when the pattern and the string are harmless; and ranges do no harm if none has one end
    below 128 and the other above. -/
theorem stringmatch_language (p s : Bytes) (h0 : (0 : UInt8) ∉ p) (hp : p.length < 2 ^ 31) (hs : s.length < 2 ^ 31) :
    (Proper p s (stringmatch p s false) ↔ Harmless p s) ∧
      ((∀ t ∈ tokens p, t.Narrow) → wilds (tokens p) = language p) := by
  refine ⟨?_, wilds_eq_language⟩
  have hint : toInt32 (cstr p).length = p.length := by
    rw [cstr_eq_self h0, toInt32]
    omega
  unfold stringmatch Harmless Proper
  rw [if_neg (by omega)]
  cases s with
  | nil =>
    rw [if_pos rfl]
    dsimp only
    rw [hint, ← stringmatchEmpty_answers h0 (show p.length < p.length + 2 by omega)]
    simp only [Answers, language_nil]
  | cons c s =>
    have h := stringmatchlen_verdict (p.length + 2) p c s (by omega) h0
    rw [if_neg (List.cons_ne_nil _ _)]
    dsimp only
    rw [Prez.stringmatch, hint]
    constructor
    · rintro ⟨b, hb, hright⟩
      refine ⟨fun hcut hreach => ?_, fun hwf => ?_⟩
      · rw [h.fails hcut hreach] at hb
        cases hb
      · obtain ⟨b', hb', hiff⟩ := h.decides (by rw [cutOff, hwf]; rfl)
        cases hb.symm.trans hb'
        exact hiff.symm.trans (hright hwf)
    · rintro ⟨hharm, hranges⟩
      cases hcut : cutOff p with
      | false =>
        obtain ⟨b, hb, hiff⟩ := h.decides hcut
        exact ⟨b, hb, fun hwf => hiff.trans (hranges hwf)⟩
      | true =>
        -- a pattern that is cut off is not well-formed
        refine ⟨false, h.stops hcut (hharm hcut), fun hwf => ?_⟩
        rw [cutOff, hwf] at hcut
        cases hcut

/-- `[f-j]?*` on `hz`. -/
theorem stringmatch_language_hz :
    Proper [91, 102, 45, 106, 93, 63, 42] [104, 122] (stringmatch [91, 102, 45, 106, 93, 63, 42] [104, 122] false) := by
  have hlanguage := stringmatch_language [91, 102, 45, 106, 93, 63, 42] [104, 122] (by decide) (by decide) (by decide)
  have htokens : tokens [91, 102, 45, 106, 93, 63, 42] = [.cls false [.range 102 106], .any, .star] := by decide +kernel
  have hcut : cutOff [91, 102, 45, 106, 93, 63, 42] = false := by decide +kernel
  refine hlanguage.1.mpr ⟨fun h => Bool.noConfusion (h.symm.trans hcut), fun _ => ?_⟩
  rw [hlanguage.2 (by simp [htokens, Token.Narrow, Item.Narrow])]

/-- `[^a]*` matches the empty string, `[^a]b` reads behind it, `[\` steps over its own terminator, and the range from `a`
    to the byte 255 does not have `b`. -/
theorem stringmatch_empty_wrong :
    WellFormed [91, 94, 97, 93, 42] ∧ ¬ Wild.Matches (language [91, 94, 97, 93, 42]) [] ∧
      stringmatch [91, 94, 97, 93, 42] [] false = some true ∧
      stringmatch [91, 94, 97, 93, 98] [] false = none ∧ stringmatch [91, 92] [97] false = none ∧
      WellFormed [91, 97, 45, 255, 93] ∧ Wild.Matches (language [91, 97, 45, 255, 93]) [98] ∧
      stringmatch [91, 97, 45, 255, 93] [98] false = some false := by
  have hneg : language [91, 94, 97, 93, 42] = [.one (Token.cls true [.one 97]).stands, .star] := by
    rw [language, show tokens [91, 94, 97, 93, 42] = [.cls true [.one 97], .star] by decide +kernel]
    rfl
  have hrange : language [91, 97, 45, 255, 93] = [.one (Token.cls false [.range 97 255]).stands] := by
    rw [language, show tokens [91, 97, 45, 255, 93] = [.cls false [.range 97 255]] by decide +kernel]
    rfl
  have hends : ending [91, 94, 97, 93, 42] = .good ∧ ending [91, 97, 45, 255, 93] = .good := by decide +kernel
  refine ⟨hends.1, ?_, by decide +kernel, by decide +kernel, by decide +kernel, hends.2, ?_, by decide +kernel⟩
  · rw [hneg]
    exact Wild.not_matches_one_nil
  · rw [hrange, Wild.matches_one_cons]
    exact ⟨by decide, rfl⟩

/-! ## Words -/

/-- A byte that stands for itself in a pattern. -/
def isLiteral (b : UInt8) : Bool := b != 42 && b != 63 && b != 91 && b != 92

theorem parse_word {w : Bytes} (hw : ∀ b ∈ w, isLiteral b = true) : parse .out w = (w.map .lit, .good) := by
  induction w with
  | nil => rfl
  | cons b w ih =>
    have hb := hw b List.mem_cons_self
    simp only [isLiteral, Bool.and_eq_true, bne_iff_ne] at hb
    obtain ⟨⟨⟨h42, h63⟩, h91⟩, h92⟩ := hb
    rw [parse.eq_def]
    simp only [if_neg h42, if_neg h63, if_neg h91, if_neg h92, ih fun d hd => hw d (List.mem_cons_of_mem _ hd)]
    rfl

/-- A word without special characters matches itself and nothing else. -/
theorem matches_word (w : Bytes) : ∀ s, Wild.Matches (wilds (w.map .lit)) s ↔ s = w := by
  induction w with
  | nil => exact fun s => Iff.rfl
  | cons b w ih =>
    intro s
    have hcons : wilds ((b :: w).map .lit) = .one (Token.lit b).test :: wilds (w.map .lit) := rfl
    rw [hcons]
    cases s with
    | nil => exact ⟨fun h => absurd h Wild.not_matches_one_nil, fun h => absurd h.symm (List.cons_ne_nil _ _)⟩
    | cons c s =>
      rw [Wild.matches_one_cons, ih, List.cons.injEq, eq_comm (a := c)]
      simp [Token.test]

theorem stringmatch_word {w : Bytes} (hw : ∀ b ∈ w, isLiteral b = true) (h0 : (0 : UInt8) ∉ w) (hlen : w.length < 2 ^ 31)
    {s : Bytes} (hs : s ≠ []) : Prez.stringmatch w s false = some (decide (s = w)) := by
  obtain ⟨c, s, rfl⟩ := List.exists_cons_of_ne_nil hs
  have hint : toInt32 (cstr w).length = w.length := by
    rw [cstr_eq_self h0, toInt32]
    omega
  have hparse := parse_word hw
  have htok : tokens w = w.map .lit := by rw [tokens, hparse]
  have hcut : cutOff w = false := by
    rw [cutOff, ending, hparse]
    rfl
  obtain ⟨b, hb, hiff⟩ := (stringmatchlen_verdict (w.length + 2) w c s (by omega) h0).decides hcut
  rw [htok, matches_word] at hiff
  rw [Prez.stringmatch, hint, hb, Option.some.injEq, Bool.eq_iff_iff, hiff, decide_eq_true_iff]

end Glob

end Prez
