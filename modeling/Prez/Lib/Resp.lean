import Prez.Lib.Decimal

/-!
# `Lib.Resp` — replies of the protocol as values

A reply is a status line, an error line, a bulk string, which may be absent, or a list of bulk strings. `Resp.encode`
is the text that is sent for it.

No reply is the start of another one (`Resp.encode_inj`), so a text that is a sequence of replies is so in one way
only (`Resp.encodeAll_inj`): whether a text holds one reply or two is a property of the text.
-/

namespace Lib

/-- The end of a line. -/
def crlf : Bytes := [13, 10]

/-- A text without line breaks. -/
structure Line where
  text : Bytes
  plain : ∀ b ∈ text, b ≠ 13 ∧ b ≠ 10

theorem Line.ext {l l' : Line} (h : l.text = l'.text) : l = l' := by
  cases l
  cases l'
  cases h
  rfl

inductive Resp where
  | status (line : Line)
  | error (line : Line)
  | bulk (s : Option Bytes)
  | multi (items : List Bytes)

def bulkString (s : Bytes) : Bytes := 36 :: (decimal s.length ++ (crlf ++ (s ++ crlf)))

namespace Resp

def encode : Resp → Bytes
  | .status line => 43 :: (line.text ++ crlf)
  | .error line => 45 :: (line.text ++ crlf)
  | .bulk none => 36 :: 45 :: 49 :: crlf
  | .bulk (some s) => bulkString s
  | .multi items => 42 :: (decimal items.length ++ (crlf ++ items.flatMap bulkString))

def isError : Resp → Bool
  | .error _ => true
  | _ => false

/-- The text of several replies. -/
def encodeAll (rs : List Resp) : Bytes := rs.flatMap encode

end Resp

/-! ## Lines -/

/-- The first line end is where a line ends. -/
theorem line_inj {l : Bytes} (h : ∀ b ∈ l, b ≠ 13) : ∀ {l' a b : Bytes}, (∀ b ∈ l', b ≠ 13) →
    l ++ (crlf ++ a) = l' ++ (crlf ++ b) → l = l' ∧ a = b := by
  induction l with
  | nil =>
    intro l' a b h' heq
    cases l' with
    | nil => exact ⟨rfl, List.append_cancel_left heq⟩
    | cons c l' =>
      obtain ⟨hc, -⟩ := List.cons.inj heq
      exact absurd hc.symm (h' c (List.mem_cons_self ..))
  | cons c l ih =>
    intro l' a b h' heq
    obtain ⟨hc, hl⟩ := List.forall_mem_cons.mp h
    cases l' with
    | nil =>
      obtain ⟨hc', -⟩ := List.cons.inj heq
      exact absurd hc' hc
    | cons c' l' =>
      obtain ⟨hcc, htail⟩ := List.cons.inj heq
      obtain ⟨hll, hab⟩ := ih hl (List.forall_mem_cons.mp h').2 htail
      exact ⟨by rw [hcc, hll], hab⟩

theorem Line.inj {l l' : Line} {a b : Bytes} (h : l.text ++ (crlf ++ a) = l'.text ++ (crlf ++ b)) : l = l' ∧ a = b := by
  obtain ⟨htext, hab⟩ := line_inj (fun b hb => (l.plain b hb).1) (fun b hb => (l'.plain b hb).1) h
  exact ⟨Line.ext htext, hab⟩

theorem decimal_inj {m n : Nat} (h : decimal m = decimal n) : m = n := by
  have hm := digitsValue_decimal m 0
  rw [h, digitsValue_decimal n 0] at hm
  omega

theorem decimal_noCr (n : Nat) : ∀ b ∈ decimal n, b ≠ 13 := fun b hb =>
  (isDigit_plain (decimal_isDigit n b hb)).2.2.1

/-- A length line. -/
theorem lengthLine_inj {m n : Nat} {a b : Bytes} (h : decimal m ++ (crlf ++ a) = decimal n ++ (crlf ++ b)) :
    m = n ∧ a = b := by
  obtain ⟨hmn, hab⟩ := line_inj (decimal_noCr m) (decimal_noCr n) h
  exact ⟨decimal_inj hmn, hab⟩

/-! ## Bulk strings -/

theorem bulkString_inj {s t a b : Bytes} (h : bulkString s ++ a = bulkString t ++ b) : s = t ∧ a = b := by
  simp only [bulkString, List.cons_append, List.append_assoc] at h
  obtain ⟨hlen, hrest⟩ := lengthLine_inj (List.cons.inj h).2
  obtain ⟨hst, hend⟩ := List.append_inj hrest hlen
  exact ⟨hst, List.append_cancel_left hend⟩

theorem bulkStrings_inj : ∀ {xs ys : List Bytes} {a b : Bytes}, xs.length = ys.length →
    xs.flatMap bulkString ++ a = ys.flatMap bulkString ++ b → xs = ys ∧ a = b := by
  intro xs
  induction xs with
  | nil =>
    intro ys a b hlen h
    cases ys with
    | nil => exact ⟨rfl, h⟩
    | cons y ys => cases hlen
  | cons x xs ih =>
    intro ys a b hlen h
    cases ys with
    | nil => cases hlen
    | cons y ys =>
      rw [List.flatMap_cons, List.flatMap_cons, List.append_assoc, List.append_assoc] at h
      obtain ⟨hxy, hrest⟩ := bulkString_inj h
      obtain ⟨hxs, hab⟩ := ih (Nat.succ.inj hlen) hrest
      exact ⟨by rw [hxy, hxs], hab⟩

/-- The absent bulk string is none of the others: a length has no sign. -/
theorem nullBulk_ne {s a b : Bytes} : 36 :: 45 :: 49 :: crlf ++ a ≠ bulkString s ++ b := by
  intro h
  obtain ⟨c, l, hc⟩ := List.exists_cons_of_ne_nil (decimal_ne_nil s.length)
  have hdigit := decimal_isDigit s.length c (by rw [hc]; exact List.mem_cons_self ..)
  rw [bulkString, hc] at h
  obtain ⟨-, htail⟩ := List.cons.inj h
  obtain ⟨hsign, -⟩ := List.cons.inj htail
  rw [← hsign] at hdigit
  exact absurd hdigit (by decide)

/-! ## Replies -/

namespace Resp

/-- The byte that says what kind of reply follows. -/
def kind : Resp → UInt8
  | .status _ => 43
  | .error _ => 45
  | .bulk _ => 36
  | .multi _ => 42

theorem encode_head (r : Resp) : ∃ tail, r.encode = r.kind :: tail := by
  cases r with
  | bulk s => cases s <;> exact ⟨_, rfl⟩
  | _ => exact ⟨_, rfl⟩

theorem kind_eq {r r' : Resp} {a b : Bytes} (h : r.encode ++ a = r'.encode ++ b) : r.kind = r'.kind := by
  obtain ⟨t, ht⟩ := r.encode_head
  obtain ⟨t', ht'⟩ := r'.encode_head
  rw [ht, ht'] at h
  exact (List.cons.inj h).1

/-- **No reply is the start of another.** -/
theorem encode_inj {r r' : Resp} {a b : Bytes} (h : r.encode ++ a = r'.encode ++ b) : r = r' ∧ a = b := by
  have hkind := kind_eq h
  match r, r' with
  | .status l, .status l' =>
    simp only [encode, List.cons_append, List.append_assoc] at h
    obtain ⟨rfl, hab⟩ := Line.inj (List.cons.inj h).2
    exact ⟨rfl, hab⟩
  | .error l, .error l' =>
    simp only [encode, List.cons_append, List.append_assoc] at h
    obtain ⟨rfl, hab⟩ := Line.inj (List.cons.inj h).2
    exact ⟨rfl, hab⟩
  | .bulk none, .bulk none => exact ⟨rfl, List.append_cancel_left h⟩
  | .bulk none, .bulk (some s) => exact absurd h nullBulk_ne
  | .bulk (some s), .bulk none => exact absurd h.symm nullBulk_ne
  | .bulk (some s), .bulk (some t) =>
    obtain ⟨rfl, hab⟩ := bulkString_inj h
    exact ⟨rfl, hab⟩
  | .multi xs, .multi ys =>
    simp only [encode, List.cons_append, List.append_assoc] at h
    obtain ⟨hlen, hrest⟩ := lengthLine_inj (List.cons.inj h).2
    obtain ⟨rfl, hab⟩ := bulkStrings_inj hlen hrest
    exact ⟨rfl, hab⟩
  | .status _, .error _ | .status _, .bulk _ | .status _, .multi _
  | .error _, .status _ | .error _, .bulk _ | .error _, .multi _
  | .bulk _, .status _ | .bulk _, .error _ | .bulk _, .multi _
  | .multi _, .status _ | .multi _, .error _ | .multi _, .bulk _ => simp [kind] at hkind

theorem encodeAll_singleton (r : Resp) : encodeAll [r] = r.encode := List.flatMap_singleton ..

/-- A text is read as a sequence of replies in one way at most. -/
theorem encodeAll_inj : ∀ {rs rs' : List Resp}, encodeAll rs = encodeAll rs' → rs = rs' := by
  intro rs
  induction rs with
  | nil =>
    intro rs' h
    cases rs' with
    | nil => rfl
    | cons r rs =>
      obtain ⟨tail, htail⟩ := r.encode_head
      rw [encodeAll, encodeAll, List.flatMap_cons, htail] at h
      cases h
  | cons r rs ih =>
    intro rs' h
    cases rs' with
    | nil =>
      obtain ⟨tail, htail⟩ := r.encode_head
      rw [encodeAll, encodeAll, List.flatMap_cons, htail] at h
      cases h
    | cons r' rs' =>
      rw [encodeAll, encodeAll, List.flatMap_cons, List.flatMap_cons] at h
      obtain ⟨hr, hrest⟩ := encode_inj h
      rw [hr, ih hrest]

end Resp

end Lib
