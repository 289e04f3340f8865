import Prez.Lib.Bytes

/-!
# `Lib.Printf` — a format string applied to one `size_t`

What `vsnprintf` writes for a format whose only argument is a `size_t`. A conversion is defined when it
takes an integer of that width (`l`, `z`, `j` and `t` with one of `d i u o x X`) and the argument is still
there; every other conversion reads an argument that was not passed, or one of another type, and has no
defined result (`none`).

The interest is in what formatting can do to the text: `printf_plain` (a format without `%` is printed
as it is) and `printf_marks` (every `%` of a format costs a `%`).
-/

namespace Lib

/-! ## Conversion specifications -/

/-- The conversions that print an integer. -/
inductive Conv where
  | decimal
  | octal
  | hex
  | hexUpper
deriving DecidableEq

/-- One conversion specification: `%[flags][width][.precision][length]conv`. -/
structure Spec where
  minus : Bool
  plus : Bool
  space : Bool
  alt : Bool
  zero : Bool
  width : Nat
  prec : Option Nat
  conv : Conv
  signed : Bool

/-- `- + space # 0`. -/
def isFlag (c : UInt8) : Bool := c == 45 || c == 43 || c == 32 || c == 35 || c == 48

/-- The conversion a letter stands for, and whether it is signed. -/
def convOf (c : UInt8) : Option (Conv × Bool) :=
  if c = 100 ∨ c = 105 then some (.decimal, true)
  else if c = 117 then some (.decimal, false)
  else if c = 111 then some (.octal, false)
  else if c = 120 then some (.hex, false)
  else if c = 88 then some (.hexUpper, false)
  else none

/-- A length modifier of the width of `size_t`: `l z j t`. -/
def isSizeMod (c : UInt8) : Bool := c == 108 || c == 122 || c == 106 || c == 116

/-- The precision, if there is one, and the rest of the format. -/
def parsePrec (f : Bytes) : Option Nat × Bytes :=
  match f with
  | 46 :: f => (some (digitsValue 0 (f.takeWhile isDigit)), f.dropWhile isDigit)
  | f => (none, f)

/-- The specification behind a `%`, and the rest of the format. -/
def parseSpec (f : Bytes) : Option (Spec × Bytes) :=
  let flags := f.takeWhile isFlag
  let f₁ := f.dropWhile isFlag
  let width := digitsValue 0 (f₁.takeWhile isDigit)
  let (prec, f₂) := parsePrec (f₁.dropWhile isDigit)
  match f₂ with
  | m :: c :: rest =>
    if isSizeMod m then
      (convOf c).map fun (conv, signed) =>
        ({ minus := flags.contains 45, plus := flags.contains 43, space := flags.contains 32,
           alt := flags.contains 35, zero := flags.contains 48, width, prec, conv, signed }, rest)
    else none
  | _ => none

/-! ## The text of a conversion -/

/-- The digit `d` in the alphabet of the conversion. -/
def convDigit (conv : Conv) (d : Nat) : UInt8 :=
  if d < 10 then UInt8.ofNat (48 + d)
  else match conv with
    | .hexUpper => UInt8.ofNat (55 + d)
    | _ => UInt8.ofNat (87 + d)

def Conv.base : Conv → Nat
  | .decimal => 10
  | .octal => 8
  | .hex => 16
  | .hexUpper => 16

/-- The digits of `v`, none for zero; `fuel` bounds their number. -/
def convDigits (conv : Conv) : (fuel : Nat) → Nat → Bytes
  | 0, _ => []
  | fuel + 1, v =>
    if v = 0 then [] else convDigits conv fuel (v / conv.base) ++ [convDigit conv (v % conv.base)]

/-- Sign or base marker in front of the digits. -/
def Spec.lead (s : Spec) (v : Nat) : Bytes :=
  if s.signed then (if s.plus then [43] else if s.space then [32] else [])
  else if s.alt ∧ v ≠ 0 then
    match s.conv with
    | .hex => [48, 120]
    | .hexUpper => [48, 88]
    | _ => []
  else []

/-- The digits, padded with zeros to the precision. -/
def Spec.digits (s : Spec) (v : Nat) : Bytes :=
  let ds := convDigits s.conv 64 v
  let ds := List.replicate (s.prec.getD 1 - ds.length) 48 ++ ds
  if s.conv = .octal ∧ s.alt ∧ ds.head? ≠ some 48 then 48 :: ds else ds

/-- The converted argument, padded to the width. -/
def Spec.format (s : Spec) (v : Nat) : Bytes :=
  let lead := s.lead v
  let ds := s.digits v
  let pad := s.width - (lead.length + ds.length)
  if s.minus then lead ++ ds ++ List.replicate pad 32
  else if s.zero ∧ s.prec = none then lead ++ List.replicate pad 48 ++ ds
  else List.replicate pad 32 ++ lead ++ ds

/-- The formatter; `arg` is the argument while it is unread. Every turn consumes a byte of the format. -/
def printfFrom : (fuel : Nat) → Bytes → Option Nat → Option Bytes
  | 0, _, _ => none
  | _ + 1, [], _ => some []
  | fuel + 1, c :: f, arg =>
    if c ≠ 37 then (printfFrom fuel f arg).map (c :: ·)
    else if f.head? = some 37 then (printfFrom fuel f.tail arg).map (37 :: ·)
    else
      arg.bind fun v => (parseSpec f).bind fun (spec, rest) =>
        (printfFrom fuel rest none).map (spec.format v ++ ·)

/-- The text of `format` applied to the one argument `arg`. -/
def printf (format : Bytes) (arg : Nat) : Option Bytes := printfFrom (format.length + 1) format (some arg)

/-! ## What formatting does to the text -/

/-- Without `%` a format is its own text. -/
theorem printfFrom_plain (f : Bytes) :
    (37 : UInt8) ∉ f → ∀ fuel arg, f.length < fuel → printfFrom fuel f arg = some f := by
  induction f with
  | nil =>
    intro _ fuel arg hfuel
    cases fuel with
    | zero => simp at hfuel
    | succ fuel => rfl
  | cons c f ih =>
    intro hf fuel arg hfuel
    cases fuel with
    | zero => simp at hfuel
    | succ fuel =>
      have hc : c ≠ 37 := fun h => hf (h ▸ List.mem_cons_self)
      have hrec : printfFrom fuel f arg = some f :=
        ih (fun h => hf (List.mem_cons_of_mem _ h)) fuel arg (Nat.lt_of_succ_lt_succ hfuel)
      rw [printfFrom, if_pos hc, hrec]
      rfl

/-- A format without conversions is its own text. -/
theorem printf_plain {f : Bytes} (h : (37 : UInt8) ∉ f) (arg : Nat) : printf f arg = some f :=
  printfFrom_plain f h _ _ (Nat.lt_succ_self _)

/-- The number of `%` and `\` in a text. -/
def marks (b : Bytes) : Nat := b.countP fun c => c == 37 || c == 92

@[simp] theorem marks_nil : marks [] = 0 := rfl

@[simp] theorem marks_append (a b : Bytes) : marks (a ++ b) = marks a + marks b := List.countP_append ..

theorem marks_cons (c : UInt8) (b : Bytes) :
    marks (c :: b) = marks b + if c = 37 ∨ c = 92 then 1 else 0 := by
  unfold marks
  rw [List.countP_cons]
  by_cases h : c = 37 ∨ c = 92 <;> simp [h]

theorem marks_le_of_suffix {a b : Bytes} (h : a <:+ b) : marks a ≤ marks b := h.sublist.countP_le

theorem marks_eq_zero {b : Bytes} (h : ∀ c ∈ b, c ≠ 37 ∧ c ≠ 92) : marks b = 0 := by
  unfold marks
  rw [List.countP_eq_zero]
  intro c hc
  simp [h c hc]

/-- Bytes that conversions print. -/
def Unmarked (b : Bytes) : Prop := ∀ c ∈ b, c ≠ 37 ∧ c ≠ 92

instance (b : Bytes) : Decidable (Unmarked b) := List.decidableBAll (fun c => c ≠ 37 ∧ c ≠ 92) b

theorem Unmarked.append {a b : Bytes} (ha : Unmarked a) (hb : Unmarked b) : Unmarked (a ++ b) := by
  intro c hc
  rcases List.mem_append.mp hc with hc | hc
  · exact ha c hc
  · exact hb c hc

theorem unmarked_replicate {c : UInt8} (h : c ≠ 37 ∧ c ≠ 92) (k : Nat) : Unmarked (List.replicate k c) := by
  intro d hd
  rw [(List.mem_replicate.mp hd).2]
  exact h

theorem convDigit_unmarked (conv : Conv) {d : Nat} (h : d < 16) :
    convDigit conv d ≠ 37 ∧ convDigit conv d ≠ 92 := by
  cases conv <;> revert d <;> decide

theorem convDigits_unmarked (conv : Conv) : ∀ fuel v, Unmarked (convDigits conv fuel v) := by
  intro fuel
  induction fuel with
  | zero => intro v c hc; simp [convDigits] at hc
  | succ fuel ih =>
    intro v
    rw [convDigits]
    split
    · intro c hc; simp at hc
    · refine (ih _).append ?_
      intro c hc
      rw [List.mem_singleton.mp hc]
      apply convDigit_unmarked
      have hbase : 0 < conv.base ∧ conv.base ≤ 16 := by cases conv <;> decide
      exact lt_of_lt_of_le (Nat.mod_lt _ hbase.1) hbase.2

theorem Spec.lead_unmarked (s : Spec) (v : Nat) : Unmarked (s.lead v) := by
  unfold Spec.lead
  split
  · split
    · decide
    · split <;> decide
  · split
    · split <;> decide
    · decide

theorem Spec.digits_unmarked (s : Spec) (v : Nat) : Unmarked (s.digits v) := by
  have hds : Unmarked (List.replicate (s.prec.getD 1 - (convDigits s.conv 64 v).length) 48
      ++ convDigits s.conv 64 v) :=
    (unmarked_replicate (by decide) _).append (convDigits_unmarked _ _ _)
  unfold Spec.digits
  dsimp only
  split
  · exact Unmarked.append (a := [48]) (by decide) hds
  · exact hds

/-- A number has no mark in it. -/
theorem Spec.format_unmarked (s : Spec) (v : Nat) : Unmarked (s.format v) := by
  have hlead := s.lead_unmarked v
  have hds := s.digits_unmarked v
  unfold Spec.format
  dsimp only
  split
  · exact (hlead.append hds).append (unmarked_replicate (by decide) _)
  · split
    · exact (hlead.append (unmarked_replicate (by decide) _)).append hds
    · exact ((unmarked_replicate (by decide) _).append hlead).append hds

theorem parsePrec_suffix (f : Bytes) : (parsePrec f).2 <:+ f := by
  unfold parsePrec
  split
  · exact (List.dropWhile_suffix _).trans (List.suffix_cons _ _)
  · exact List.suffix_rfl

theorem parseSpec_suffix {f rest : Bytes} {s : Spec} (h : parseSpec f = some (s, rest)) : rest <:+ f := by
  unfold parseSpec at h
  dsimp only at h
  have hpp := parsePrec_suffix ((f.dropWhile isFlag).dropWhile isDigit)
  split at h
  · rename_i m c rest' heq
    split at h
    · obtain ⟨conv, _, h⟩ := Option.map_eq_some_iff.mp h
      cases h
      rw [heq] at hpp
      exact ((List.suffix_cons c rest).trans (List.suffix_cons m _)).trans
        (hpp.trans ((List.dropWhile_suffix _).trans (List.dropWhile_suffix _)))
    · cases h
  · cases h

/-- Formatting never adds marks, and loses one at every `%`. -/
theorem printfFrom_marks : ∀ (fuel : Nat) (f : Bytes) (arg : Option Nat) {out : Bytes},
    printfFrom fuel f arg = some out → marks out ≤ marks f ∧ ((37 : UInt8) ∈ f → marks out < marks f) := by
  intro fuel
  induction fuel with
  | zero => intro f arg out h; simp [printfFrom] at h
  | succ fuel ih =>
    intro f arg out h
    cases f with
    | nil => simp [printfFrom] at h; simp [h]
    | cons c f =>
      rw [printfFrom] at h
      split at h
      · -- an ordinary byte
        rename_i hc
        obtain ⟨o, ho, rfl⟩ := Option.map_eq_some_iff.mp h
        obtain ⟨hle, hlt⟩ := ih f arg ho
        refine ⟨by rw [marks_cons, marks_cons]; omega, ?_⟩
        intro hm
        rcases List.mem_cons.mp hm with rfl | hm
        · exact absurd rfl hc
        · have := hlt hm
          rw [marks_cons, marks_cons]
          omega
      · rename_i hc
        have hc : c = 37 := not_not.mp hc
        subst hc
        split at h
        · -- `%%`
          rename_i hhead
          obtain ⟨o, ho, rfl⟩ := Option.map_eq_some_iff.mp h
          obtain ⟨f', rfl⟩ := List.head?_eq_some_iff.mp hhead
          have hle : marks o ≤ marks f' := (ih _ arg ho).1
          rw [marks_cons, marks_cons, marks_cons]
          simp only [true_or, if_true]
          omega
        · -- a conversion of the argument
          obtain ⟨v, _, h⟩ := Option.bind_eq_some_iff.mp h
          obtain ⟨⟨spec, rest⟩, hspec, h⟩ := Option.bind_eq_some_iff.mp h
          obtain ⟨o, ho, rfl⟩ := Option.map_eq_some_iff.mp h
          have hle : marks o ≤ marks rest := (ih _ none ho).1
          have hsuf := marks_le_of_suffix (parseSpec_suffix hspec)
          have hfmt : marks (spec.format v) = 0 := marks_eq_zero (spec.format_unmarked v)
          rw [marks_append, marks_cons, hfmt]
          simp only [true_or, if_true]
          omega

/-- **Every `%` of a format costs a mark.** -/
theorem printf_marks {f out : Bytes} {arg : Nat} (h : printf f arg = some out) :
    marks out ≤ marks f ∧ ((37 : UInt8) ∈ f → marks out < marks f) :=
  printfFrom_marks _ f _ h

end Lib
