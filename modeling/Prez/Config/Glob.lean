import Prez.Util

/-!
# `Prez.Config.Glob` — `stringmatchlen`

The glob matcher of `util.c`. The pattern is a C string inside an sds: what is read of it is the bytes of the sds with
the terminator behind them, and a read behind that has no result (`none`). The length that is counted down is a
signed number beside the pointer, and inside a class it is not always looked at before the pointer moves.

`Prez.Config.Language` says which patterns are matched as they should be. A class that ends in a backslash (`[\`) makes
the matcher step over the terminator.
-/

namespace Prez

open Lib

/-- The value of a `char`, which is signed. -/
def schar (b : UInt8) : Int := if b < 128 then b.toNat else b.toNat - 256

/-- Two characters that match. -/
def sameChar (nocase : Bool) (a b : UInt8) : Bool := if nocase then toLower a == toLower b else a == b

/-- `c` lies between two characters, whichever of them is the smaller one. -/
def inRange (nocase : Bool) (start stop c : UInt8) : Bool :=
  let lower : UInt8 → Int := fun b => schar (if nocase then toLower b else b)
  let (start, stop) := if schar start > schar stop then (stop, start) else (start, stop)
  decide (lower start ≤ lower c ∧ lower c ≤ lower stop)

/-- `while(*pattern == '*') { pattern++; patternLen--; }`. -/
def skipStars : (pattern : Bytes) → (len : Int) → Option (Bytes × Int)
  | [], _ => none
  | b :: pattern, len => if b = 42 then skipStars pattern (len - 1) else some (b :: pattern, len)

/-- The loop over a class, behind its `[` or `[^`: whether `c` is in it, and the pattern and its length behind the class.
    A class without end stops where the length is zero. -/
def matchClass (nocase : Bool) (c : UInt8) : (pattern : Bytes) → (len : Int) → (found : Bool) → Option (Bool × Bytes × Int)
  | [], _, _ => none
  | b :: pattern, len, found =>
    if b = 92 then
      match pattern with
      | [] => none
      | b :: pattern => matchClass nocase c pattern (len - 2) (found || b == c)
    else if b = 93 then some (found, pattern, len - 1)
    else if len = 0 then some (found, b :: pattern, 0)
    else if pattern = [] then none
    else if pattern.head? = some 45 ∧ len ≥ 3 then
      match pattern with
      | _ :: stop :: pattern => matchClass nocase c pattern (len - 3) (found || inRange nocase b stop c)
      | _ => none
    else matchClass nocase c pattern (len - 1) (found || sameChar nocase b c)

/-- The tries of a `*`, at the string `c :: string` and at every later character of it. -/
def anySuffix (f : UInt8 → Bytes → Option Bool) (c : UInt8) : Bytes → Option Bool
  | [] => f c []
  | c' :: string => (f c (c' :: string)).bind fun found => if found then some true else anySuffix f c' string

/-- The end of a turn, after `string++`: the loop is left when the string is at its end. -/
def endTurn (later : Bytes → Int → UInt8 → Bytes → Option Bool) (string pattern : Bytes) (len : Int) : Option Bool :=
  match string with
  | [] => (skipStars pattern len).map fun r => r.2 == 0
  | c :: string => later pattern len c string

/-- One turn of `while(patternLen)` at the string `c :: string`, with what `later` turns find. -/
def matchTurn (nocase : Bool) (later : Bytes → Int → UInt8 → Bytes → Option Bool) (pattern : Bytes) (len : Int) (c : UInt8)
    (string : Bytes) : Option Bool :=
  match pattern with
  | [] => none
  | b :: pattern =>
    if b = 42 then
      (skipStars pattern len).bind fun (pattern, len) =>
      if len = 1 then some true else anySuffix (later pattern (len - 1)) c string
    else if b = 63 then endTurn later string pattern (len - 1)
    else if b = 91 then
      pattern.head?.bind fun b =>
      (if b = 94 then matchClass nocase c (pattern.drop 1) (len - 2) false
        else matchClass nocase c pattern (len - 1) false).bind fun (found, pattern, len) =>
      if found == (b == 94) then some false else endTurn later string pattern len
    else if b = 92 ∧ len ≥ 2 then
      pattern.head?.bind fun b =>
      if sameChar nocase b c then endTurn later string (pattern.drop 1) (len - 2) else some false
    else if sameChar nocase b c then endTurn later string pattern (len - 1)
    else some false

/-- `stringmatchlen(pattern, patternLen, string, stringLen, nocase)` on the string `c :: string`. Every turn moves on in
    the pattern, which bounds their number. -/
def stringmatchlen (nocase : Bool) : (fuel : Nat) → (pattern : Bytes) → (len : Int) → UInt8 → Bytes → Option Bool
  | 0 => fun _ _ _ _ => none
  | fuel + 1 => fun pattern len c string =>
    if len = 0 then some false else matchTurn nocase (stringmatchlen nocase fuel) pattern len c string

/-- `stringmatch(pattern, string, nocase)`, on an sds and a string that is not empty. -/
def stringmatch (pattern string : Bytes) (nocase : Bool) : Option Bool :=
  match string with
  | [] => none
  | c :: string => stringmatchlen nocase (pattern.length + 2) (pattern ++ [0]) (toInt32 (cstr pattern).length) c string

/-- A class that is not closed ends at the terminator. -/
theorem matchClass_stop (nocase : Bool) (c : UInt8) (beyond : Bytes) (found : Bool) :
    matchClass nocase c (0 :: beyond) 0 found = some (found, 0 :: beyond, 0) := by
  rw [matchClass.eq_def]
  rfl

end Prez
