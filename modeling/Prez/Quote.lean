import Prez.Sds
import Prez.Lib.Split

/-!
# `Prez.Quote` — quoting a string and reading it back

`sdscatrepr` appends a string in double quotes, with an escape for every byte that is not printable, and
`sdssplitargs` is meant to read such a line back. One byte at a time: whatever follows, the scanner turns the
representation of a byte into that byte (`splitToken_reprByte`). A line is then a sequence of token texts
with single blanks between them (`TokenText`, `sdssplitargs_texts`).
-/

namespace Prez

open Lib

/-! ## The encoder -/

/-- `isprint(c)` in the C locale. -/
def isPrint (c : UInt8) : Bool := 32 ≤ c && c ≤ 126

/-- A digit of `%02x`. -/
def hexChar (n : UInt8) : UInt8 := if n < 10 then 48 + n else 87 + n

/-- What `sdscatrepr` appends for one byte: the byte, a letter escape or `\xHH`. -/
def reprByte (c : UInt8) : Bytes :=
  if c = 92 ∨ c = 34 then [92, c]
  else if c = 10 then [92, 110]
  else if c = 13 then [92, 114]
  else if c = 9 then [92, 116]
  else if c = 7 then [92, 97]
  else if c = 8 then [92, 98]
  else if isPrint c then [c]
  else [92, 120, hexChar (c / 16), hexChar (c % 16)]

/-- `sdscatrepr(s, p, len)`, on the contents; `none` where the string would outgrow the `int` of its length. -/
def sdscatrepr (s p : Bytes) : Option Bytes :=
  (sdsAppend s [34]).bind fun s =>
    (p.foldlM (fun s c => sdsAppend s (reprByte c)) s).bind fun s => sdsAppend s [34]

/-- The representation of a string. -/
def reprText (p : Bytes) : Bytes := 34 :: (p.flatMap reprByte ++ [34])

theorem sdsAppend_eq {s t : Bytes} (h : (s ++ t).length < 2 ^ 31) : sdsAppend s t = some (s ++ t) := by
  rw [sdsAppend, if_pos (by rwa [List.length_append] at h)]

theorem foldlM_sdsAppend (f : UInt8 → Bytes) (p : Bytes) :
    ∀ s : Bytes, (s ++ p.flatMap f).length < 2 ^ 31 →
      p.foldlM (fun s c => sdsAppend s (f c)) s = some (s ++ p.flatMap f) := by
  induction p with
  | nil => intro s _; simp
  | cons c p ih =>
    intro s h
    rw [List.flatMap_cons, ← List.append_assoc] at h ⊢
    have hstep : (s ++ f c).length < 2 ^ 31 := by
      rw [List.length_append] at h
      omega
    rw [List.foldlM_cons, sdsAppend_eq hstep, Option.bind_eq_bind, Option.bind_some, ih _ h]

/-- **`sdscatrepr`** appends the quoted text. -/
theorem sdscatrepr_eq {s p : Bytes} (h : (s ++ reprText p).length < 2 ^ 31) :
    sdscatrepr s p = some (s ++ reprText p) := by
  have hsplit : s ++ reprText p = s ++ [34] ++ p.flatMap reprByte ++ [34] := by simp [reprText]
  rw [hsplit] at h ⊢
  have h2 : (s ++ [34] ++ p.flatMap reprByte).length < 2 ^ 31 := by
    rw [List.length_append] at h
    omega
  have h1 : (s ++ [34]).length < 2 ^ 31 := by
    rw [List.length_append] at h2
    omega
  rw [sdscatrepr, sdsAppend_eq h1, Option.bind_some, foldlM_sdsAppend _ _ _ h2, Option.bind_some, sdsAppend_eq h]

theorem sdsAppend_some {s t r : Bytes} (h : sdsAppend s t = some r) : r = s ++ t ∧ r.length < 2 ^ 31 := by
  unfold sdsAppend at h
  split at h
  · cases h
    exact ⟨rfl, by rwa [List.length_append]⟩
  · cases h

/-- A representation that was written is the right one and fits. -/
theorem sdscatrepr_some {s p r : Bytes} (h : sdscatrepr s p = some r) : r = s ++ reprText p ∧ r.length < 2 ^ 31 := by
  have hfold : ∀ (p s r : Bytes), p.foldlM (fun s c => sdsAppend s (reprByte c)) s = some r → r = s ++ p.flatMap reprByte := by
    intro p
    induction p with
    | nil => intro s r h; cases h; simp
    | cons c p ih =>
      intro s r h
      rw [List.foldlM_cons] at h
      obtain ⟨s', hs', h⟩ := Option.bind_eq_some_iff.mp h
      rw [ih s' r h, (sdsAppend_some hs').1, List.flatMap_cons, List.append_assoc]
  obtain ⟨a, ha, h⟩ := Option.bind_eq_some_iff.mp h
  obtain ⟨b, hb, h⟩ := Option.bind_eq_some_iff.mp h
  obtain ⟨hr, hlen⟩ := sdsAppend_some h
  refine ⟨?_, hlen⟩
  rw [hr, hfold p a b hb, (sdsAppend_some ha).1]
  simp [reprText]

theorem length_le_reprText (p : Bytes) : p.length ≤ (reprText p).length := by
  have hbyte : ∀ c, 1 ≤ (reprByte c).length := by
    intro c
    unfold reprByte
    split_ifs <;> simp
  have hall : p.length ≤ (p.flatMap reprByte).length := by
    induction p with
    | nil => simp
    | cons c p ih =>
      have := hbyte c
      rw [List.flatMap_cons, List.length_append, List.length_cons]
      omega
  simp only [reprText, List.length_cons, List.length_append]
  omega

/-- The representations of a list of strings, with single blanks between them. -/
def sdscatreprs : List Bytes → Bytes → Option Bytes
  | [], s => some s
  | p :: ps, s =>
    (if s.length ≠ 0 then sdsAppend s [32] else some s).bind fun s =>
      (sdscatrepr s p).bind (sdscatreprs ps)

/-- The line of all representations. -/
def reprLine (ps : List Bytes) : Bytes := ([32] : Bytes).intercalate (ps.map reprText)

theorem reprLine_cons_cons (p q : Bytes) (ps : List Bytes) :
    reprLine (p :: q :: ps) = reprText p ++ 32 :: reprLine (q :: ps) := by
  simp [reprLine, List.intercalate_cons_cons]

theorem sdscatreprs_cons {s : Bytes} (hs : s ≠ []) :
    ∀ ps : List Bytes, ps ≠ [] → (s ++ 32 :: reprLine ps).length < 2 ^ 31 →
      sdscatreprs ps s = some (s ++ 32 :: reprLine ps) := by
  intro ps
  induction ps generalizing s with
  | nil => intro h; exact absurd rfl h
  | cons p ps ih =>
    intro _ hlen
    have hs0 : s.length ≠ 0 := fun h => hs (List.eq_nil_of_length_eq_zero h)
    have hone : (s ++ [32] ++ reprText p).length < 2 ^ 31 := by
      cases ps with
      | nil => simpa [reprLine] using hlen
      | cons q ps =>
        rw [reprLine_cons_cons] at hlen
        simp only [List.length_append, List.length_cons, List.length_nil] at hlen ⊢
        omega
    have hblank : (s ++ [32]).length < 2 ^ 31 := by
      rw [List.length_append] at hone
      omega
    rw [sdscatreprs, if_pos hs0, sdsAppend_eq hblank, Option.bind_some, sdscatrepr_eq hone, Option.bind_some]
    cases ps with
    | nil => simp [sdscatreprs, reprLine]
    | cons q ps =>
      have htext : s ++ [32] ++ reprText p ++ 32 :: reprLine (q :: ps) = s ++ 32 :: reprLine (p :: q :: ps) := by
        rw [reprLine_cons_cons]
        simp
      have hne : s ++ [32] ++ reprText p ≠ [] := by simp
      rw [ih hne (List.cons_ne_nil _ _) (by rw [htext]; exact hlen), htext]

/-- A line of quoted words. -/
theorem sdscatreprs_eq {ps : List Bytes} (h : (reprLine ps).length < 2 ^ 31) :
    sdscatreprs ps [] = some (reprLine ps) := by
  cases ps with
  | nil => rfl
  | cons p ps =>
    cases ps with
    | nil =>
      have hp : reprLine [p] = reprText p := by simp [reprLine]
      rw [hp] at h ⊢
      rw [sdscatreprs, if_neg (by simp), Option.bind_some, sdscatrepr_eq (by simpa using h), Option.bind_some]
      simp [sdscatreprs]
    | cons q ps =>
      have hp : ([] ++ reprText p : Bytes).length < 2 ^ 31 := by
        rw [reprLine_cons_cons, List.length_append] at h
        simpa using Nat.lt_of_le_of_lt (Nat.le_add_right _ _) h
      rw [sdscatreprs, if_neg (by simp), Option.bind_some, sdscatrepr_eq hp, Option.bind_some, List.nil_append,
        sdscatreprs_cons (by simp [reprText]) _ (List.cons_ne_nil _ _) (by rw [← reprLine_cons_cons]; exact h),
        ← reprLine_cons_cons]

/-! ## One byte -/

/-- An escaped byte. -/
theorem splitToken_escape {e : UInt8} (he : e ≠ 120) (tail current : Bytes) :
    splitToken (92 :: e :: tail) .inq current = splitToken tail .inq (current ++ [unescape e]) := by
  rcases tail with _ | ⟨a, _ | ⟨b, tail⟩⟩
  · simp [splitToken]
  · conv_lhs => rw [splitToken, if_pos rfl]
  · conv_lhs => rw [splitToken, if_pos rfl, if_neg fun h => he h.1]

/-- A byte inside quotes. -/
theorem splitToken_inq {c : UInt8} (h92 : c ≠ 92) (tail current : Bytes) :
    splitToken (c :: tail) .inq current
      = if c = 34 then closeQuote current tail else splitToken tail .inq (current ++ [c]) := by
  conv_lhs => rw [splitToken.eq_def]
  simp only [if_neg h92]

/-- A byte in hexadecimal. -/
theorem splitToken_hex {a b : UInt8} (ha : isHexDigit a = true) (hb : isHexDigit b = true) (tail current : Bytes) :
    splitToken (92 :: 120 :: a :: b :: tail) .inq current
      = splitToken tail .inq (current ++ [hexDigitToInt a * 16 + hexDigitToInt b]) := by
  rw [splitToken, if_pos rfl, if_pos ⟨rfl, ha, hb⟩]

theorem hexChar_byte : ∀ n < 256, let c := UInt8.ofNat n
    isHexDigit (hexChar (c / 16)) = true ∧ isHexDigit (hexChar (c % 16)) = true ∧
      hexDigitToInt (hexChar (c / 16)) * 16 + hexDigitToInt (hexChar (c % 16)) = c := by
  decide +kernel

/-- Two digits are read back as the byte. -/
theorem hexChar_spec (c : UInt8) :
    isHexDigit (hexChar (c / 16)) = true ∧ isHexDigit (hexChar (c % 16)) = true ∧
      hexDigitToInt (hexChar (c / 16)) * 16 + hexDigitToInt (hexChar (c % 16)) = c := by
  have h := hexChar_byte c.toNat (UInt8.toNat_lt c)
  rwa [UInt8.ofNat_toNat] at h

/-- **One byte.** Inside double quotes the scanner turns the representation of a byte into that byte. -/
theorem splitToken_reprByte (c : UInt8) (tail current : Bytes) :
    splitToken (reprByte c ++ tail) .inq current = splitToken tail .inq (current ++ [c]) := by
  unfold reprByte
  split_ifs with hq h10 h13 h9 h7 h8 hp
  · have hx : c ≠ 120 ∧ unescape c = c := by
      rcases hq with rfl | rfl <;> decide
    rw [List.cons_append, List.cons_append, List.nil_append, splitToken_escape hx.1, hx.2]
  · subst h10; exact splitToken_escape (by decide) _ _
  · subst h13; exact splitToken_escape (by decide) _ _
  · subst h9; exact splitToken_escape (by decide) _ _
  · subst h7; exact splitToken_escape (by decide) _ _
  · subst h8; exact splitToken_escape (by decide) _ _
  · -- a printable byte that is neither a quote nor a backslash stands for itself
    have h92 : c ≠ 92 := fun h => hq (.inl h)
    have h34 : c ≠ 34 := fun h => hq (.inr h)
    rw [List.singleton_append, splitToken_inq h92, if_neg h34]
  · obtain ⟨ha, hb, hval⟩ := hexChar_spec c
    have h := splitToken_hex ha hb tail current
    rw [hval] at h
    exact h

/-- **A quoted text is read back.** -/
theorem splitToken_repr (p tail : Bytes) :
    ∀ current, splitToken (p.flatMap reprByte ++ 34 :: tail) .inq current = closeQuote (current ++ p) tail := by
  induction p with
  | nil =>
    intro current
    rw [List.flatMap_nil, List.nil_append, splitToken_inq (by decide), if_pos rfl, List.append_nil]
  | cons c p ih =>
    intro current
    rw [List.flatMap_cons, List.append_assoc, splitToken_reprByte, ih, List.append_assoc, List.singleton_append]

/-! ## Lines of tokens -/

/-- A text that the scanner reads as the token `value`, at the end of the line and before a blank. -/
structure TokenText (text value : Bytes) : Prop where
  head : ∃ c t, text = c :: t ∧ isSpace c = false
  atEnd : splitToken text .out [] = some (value, [])
  before : ∀ r, ∃ r', splitToken (text ++ 32 :: r) .out [] = some (value, r') ∧ r'.dropWhile isSpace = r.dropWhile isSpace

/-- A quoted text is read as its bytes. -/
theorem tokenText_repr (p : Bytes) : TokenText (reprText p) p where
  head := ⟨34, _, rfl, by decide⟩
  atEnd := by
    have h := splitToken_repr p [] []
    rw [reprText, splitToken, if_neg (by decide), if_pos rfl, h]
    rfl
  before := by
    intro r
    have h := splitToken_repr p (32 :: r) []
    refine ⟨32 :: r, ?_, List.dropWhile_cons_of_pos (by decide)⟩
    rw [reprText, List.cons_append, List.append_assoc, splitToken, if_neg (by decide), if_pos rfl, List.singleton_append, h]
    rfl

/-- A plain word stands for itself. -/
theorem tokenText_plain {w : Bytes} (hw : PlainWord w) : TokenText w w where
  head := hw.2
  atEnd := by
    have h := splitToken_plain w [] [] hw.1
    rw [List.append_nil] at h
    rw [h]
    rfl
  before := by
    intro r
    refine ⟨r, ?_, rfl⟩
    rw [splitToken_plain w _ [] hw.1, splitToken, if_pos (by decide)]
    rfl

/-- Leading blanks of a line do not matter. -/
theorem sdssplitargsFrom_congr {fuel : Nat} {l l' : Bytes} (h : l.dropWhile isSpace = l'.dropWhile isSpace) :
    sdssplitargsFrom fuel l = sdssplitargsFrom fuel l' := by
  cases fuel with
  | zero => rfl
  | succ fuel => rw [sdssplitargsFrom, sdssplitargsFrom, h]

/-- A line of words is read word by word. -/
theorem sdssplitargsFrom_texts (ts : List (Bytes × Bytes)) :
    (∀ t ∈ ts, TokenText t.1 t.2) → ∀ fuel, ts.length < fuel →
      sdssplitargsFrom fuel (([32] : Bytes).intercalate (ts.map Prod.fst)) = some (ts.map Prod.snd) := by
  induction ts with
  | nil =>
    intro _ fuel hf
    obtain ⟨fuel, rfl⟩ := Nat.exists_eq_succ_of_ne_zero (Nat.ne_of_gt (Nat.lt_of_le_of_lt (Nat.zero_le _) hf))
    rfl
  | cons t ts ih =>
    intro hts fuel hf
    obtain ⟨fuel, rfl⟩ := Nat.exists_eq_succ_of_ne_zero (Nat.ne_of_gt (Nat.lt_of_le_of_lt (Nat.zero_le _) hf))
    have ht := hts t List.mem_cons_self
    have hrec := ih (fun u hu => hts u (List.mem_cons_of_mem _ hu)) fuel (Nat.lt_of_succ_lt_succ hf)
    obtain ⟨c, text, htext, hc⟩ := ht.head
    have hskip : ∀ r, (t.1 ++ r).dropWhile isSpace = t.1 ++ r := by
      intro r
      rw [htext]
      exact List.dropWhile_cons_of_neg (by simp [hc])
    cases ts with
    | nil =>
      have h := hskip []
      rw [List.append_nil] at h
      have htok := ht.atEnd
      rw [htext] at h htok
      rw [List.map_singleton, List.intercalate_singleton, htext, sdssplitargsFrom, h]
      simp only [htok, Option.bind_some]
      obtain ⟨fuel, rfl⟩ := Nat.exists_eq_succ_of_ne_zero (show fuel ≠ 0 by simp at hf; omega)
      rfl
    | cons u us =>
      obtain ⟨r', htok, hr'⟩ := ht.before (([32] : Bytes).intercalate ((u :: us).map Prod.fst))
      have h := hskip (32 :: ([32] : Bytes).intercalate ((u :: us).map Prod.fst))
      have hline : ([32] : Bytes).intercalate ((t :: u :: us).map Prod.fst)
          = t.1 ++ 32 :: ([32] : Bytes).intercalate ((u :: us).map Prod.fst) := by
        simp [List.intercalate_cons_cons]
      rw [htext, List.cons_append] at h htok hline
      rw [hline, sdssplitargsFrom, h]
      simp only [htok, Option.bind_some]
      rw [sdssplitargsFrom_congr hr', hrec]
      rfl

/-- **A line of token texts is read back.** -/
theorem sdssplitargs_texts (ts : List (Bytes × Bytes)) (hts : ∀ t ∈ ts, TokenText t.1 t.2)
    (h0 : ∀ t ∈ ts, (0 : UInt8) ∉ t.1) :
    sdssplitargs (([32] : Bytes).intercalate (ts.map Prod.fst)) = some (ts.map Prod.snd) := by
  have hzero : (0 : UInt8) ∉ ([32] : Bytes).intercalate (ts.map Prod.fst) := by
    intro hmem
    rcases mem_of_mem_intercalate _ hmem with h | ⟨l, hl, h⟩
    · simp at h
    · obtain ⟨t, ht, rfl⟩ := List.mem_map.mp hl
      exact h0 t ht h
  -- each token has at least one byte of its own
  have hlen : ∀ ts : List (Bytes × Bytes), (∀ t ∈ ts, TokenText t.1 t.2) →
      ts.length ≤ (([32] : Bytes).intercalate (ts.map Prod.fst)).length := by
    intro ts
    induction ts with
    | nil => intro _; exact Nat.zero_le _
    | cons t ts ih =>
      intro hts
      obtain ⟨c, text, htext, _⟩ := (hts t List.mem_cons_self).head
      have hrec := ih fun u hu => hts u (List.mem_cons_of_mem _ hu)
      cases ts with
      | nil => simp [htext]
      | cons u us =>
        rw [List.map_cons, List.map_cons, List.intercalate_cons_cons, ← List.map_cons, htext]
        simp only [List.length_append, List.length_cons] at hrec ⊢
        omega
  rw [sdssplitargs, cstr_eq_self hzero]
  exact sdssplitargsFrom_texts ts hts _ (Nat.lt_succ_of_le (hlen ts hts))

/-! ## The round trip -/

theorem reprByte_free_all : ∀ n < 256, (0 : UInt8) ∉ reprByte (UInt8.ofNat n) ∧ (10 : UInt8) ∉ reprByte (UInt8.ofNat n) := by
  decide +kernel

/-- A representation has no zero byte and no line break. -/
theorem reprText_free (p : Bytes) : (0 : UInt8) ∉ reprText p ∧ (10 : UInt8) ∉ reprText p := by
  have hbyte : ∀ c, (0 : UInt8) ∉ reprByte c ∧ (10 : UInt8) ∉ reprByte c := by
    intro c
    have h := reprByte_free_all c.toNat (UInt8.toNat_lt c)
    rwa [UInt8.ofNat_toNat] at h
  constructor
  · intro h
    simp only [reprText, List.mem_cons, List.mem_append, List.mem_flatMap, List.not_mem_nil, or_false] at h
    rcases h with h | ⟨c, _, h⟩ | h
    · exact absurd h (by decide)
    · exact (hbyte c).1 h
    · exact absurd h (by decide)
  · intro h
    simp only [reprText, List.mem_cons, List.mem_append, List.mem_flatMap, List.not_mem_nil, or_false] at h
    rcases h with h | ⟨c, _, h⟩ | h
    · exact absurd h (by decide)
    · exact (hbyte c).2 h
    · exact absurd h (by decide)

/-- **What is quoted is read back.** -/
theorem sdssplitargs_reprLine (ps : List Bytes) : sdssplitargs (reprLine ps) = some ps := by
  have h := sdssplitargs_texts (ps.map fun p => (reprText p, p))
    (by
      intro t ht
      obtain ⟨p, _, rfl⟩ := List.mem_map.mp ht
      exact tokenText_repr p)
    (by
      intro t ht
      obtain ⟨p, _, rfl⟩ := List.mem_map.mp ht
      exact (reprText_free p).1)
  rw [List.map_map, List.map_map] at h
  have hid : ps.map (Prod.snd ∘ fun p => (reprText p, p)) = ps := (List.map_congr_left fun _ _ => rfl).trans (List.map_id _)
  rw [hid] at h
  exact h

end Prez
