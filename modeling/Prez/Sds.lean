import Prez.Lib.Printf

/-!
# `Prez.Sds` — dynamic strings and the argument splitter

`sds.c` as the replicated log uses it.

* `Sds` — a string with the free space behind it. The free space decides whether an append stays in place
  or moves the string (`sdsMakeRoomFor`), which matters to a caller that keeps the old pointer.
* `sdsrange` — trimming, by which buffers drop what has been sent or parsed.
* `sdssplitargs` — the quoting-aware tokenizer. `sdssplitargsFrom_plain` reads back a line of plain words;
  `sdssplitargsFrom_length` is the converse accounting: a line that ends in a newline pays one byte more than
  it yields for each token, and pays no more only when every token is a plain word.
-/

namespace Prez

open Lib

/-! ## Strings with free space -/

/-- `struct sdshdr`: the contents and the unused bytes behind them. -/
structure Sds where
  buf : Bytes
  free : Nat
deriving DecidableEq

/-- `sdsnew("")`. -/
def Sds.empty : Sds := ⟨[], 0⟩

/-- `SDS_MAX_PREALLOC`. -/
def sdsMaxPrealloc : Nat := 1024 * 1024

/-- `sdsMakeRoomFor(s, addlen)`: a string that has no room is reallocated with twice the length needed. -/
def sdsMakeRoomFor (s : Sds) (addlen : Nat) : Sds :=
  if addlen ≤ s.free then s
  else
    let newlen := s.buf.length + addlen
    let newlen := if newlen < sdsMaxPrealloc then newlen * 2 else newlen + sdsMaxPrealloc
    { s with free := newlen - s.buf.length }

/-- `sdscatlen(s, t, len)`. -/
def sdscatlen (s : Sds) (t : Bytes) : Sds :=
  let s := sdsMakeRoomFor s t.length
  ⟨s.buf ++ t, s.free - t.length⟩

/-- `sdscatprintf(s, fmt, arg)` with one `size_t`; `none` where the format has no defined result. -/
def sdscatprintf (s : Sds) (fmt : Bytes) (arg : Nat) : Option Sds :=
  (printf (cstr fmt) arg).map (sdscatlen s)

@[simp] theorem sdsMakeRoomFor_buf (s : Sds) (k : Nat) : (sdsMakeRoomFor s k).buf = s.buf := by
  unfold sdsMakeRoomFor
  split <;> rfl

@[simp] theorem sdscatlen_buf (s : Sds) (t : Bytes) : (sdscatlen s t).buf = s.buf ++ t := by
  simp [sdscatlen]

/-- `sdscatlen` on the contents alone. `sdshdr.len` is an `int`: a string of 2³¹ bytes has no length. -/
def sdsAppend (s t : Bytes) : Option Bytes := if s.length + t.length < 2 ^ 31 then some (s ++ t) else none

/-- `sdsrange(s, start, end)`, on the contents: both ends inclusive, negative ones counted from the end. -/
def sdsrange (s : Bytes) (start stop : Int) : Bytes :=
  let len : Int := s.length
  if len = 0 then s
  else
    let start := if start < 0 then max (len + start) 0 else start
    let stop := if stop < 0 then max (len + stop) 0 else stop
    let newlen := if start > stop then 0 else stop - start + 1
    if newlen ≠ 0 then
      if start ≥ len then []
      else if stop ≥ len then (s.drop start.toNat).take (if start > len - 1 then 0 else len - 1 - start + 1).toNat
      else (s.drop start.toNat).take newlen.toNat
    else []

/-- The trim that the readers and writers use: the first `k` bytes are gone. -/
theorem sdsrange_drop (s : Bytes) (k : Nat) : sdsrange s k (-1) = s.drop k := by
  unfold sdsrange
  by_cases h0 : s.length = 0
  · simp [List.eq_nil_of_length_eq_zero h0]
  · have hlen : (s.length : Int) ≠ 0 := by omega
    have hstop : max ((s.length : Int) + -1) 0 = s.length - 1 := by omega
    simp only [if_neg hlen, if_neg (show ¬ (k : Int) < 0 by omega), if_pos (show (-1 : Int) < 0 by omega), hstop]
    by_cases hk : k < s.length
    · simp only [if_neg (show ¬ (k : Int) > s.length - 1 by omega),
        if_pos (show (s.length : Int) - 1 - k + 1 ≠ 0 by omega), if_neg (show ¬ (k : Int) ≥ s.length by omega),
        if_neg (show ¬ (s.length : Int) - 1 ≥ s.length by omega), Int.toNat_natCast]
      refine List.take_of_length_le ?_
      rw [List.length_drop]
      omega
    · simp only [if_pos (show (k : Int) > s.length - 1 by omega), ne_eq, not_true_eq_false, if_false]
      exact (List.drop_eq_nil_of_le (by omega)).symm

/-! ## The tokenizer -/

/-- `is_hex_digit(c)`. -/
def isHexDigit (c : UInt8) : Bool :=
  (48 ≤ c && c ≤ 57) || (97 ≤ c && c ≤ 102) || (65 ≤ c && c ≤ 70)

/-- `hex_digit_to_int(c)`. -/
def hexDigitToInt (c : UInt8) : UInt8 :=
  if 48 ≤ c ∧ c ≤ 57 then c - 48
  else if 97 ≤ c ∧ c ≤ 102 then c - 87
  else if 65 ≤ c ∧ c ≤ 70 then c - 55
  else 0

/-- The byte an escape letter stands for inside double quotes. -/
def unescape (c : UInt8) : UInt8 :=
  if c = 110 then 10
  else if c = 114 then 13
  else if c = 116 then 9
  else if c = 98 then 8
  else if c = 97 then 7
  else c

/-- `inq` and `insq`. -/
inductive Quote where
  | out
  | inq
  | insq
deriving DecidableEq

/-- The four bytes that end a token outside quotes. -/
def isSep (c : UInt8) : Bool := c == 32 || c == 10 || c == 13 || c == 9

/-- A closing quote must be followed by a blank or by the end of the line. -/
def closeQuote (current line : Bytes) : Option (Bytes × Bytes) :=
  match line with
  | [] => some (current, [])
  | c :: _ => if isSpace c then some (current, line) else none

/-- The loop `while(!done)` from the given quoting state: the finished token and the unread line. The end
    of the line is the terminator of the C string. -/
def splitToken : Bytes → Quote → Bytes → Option (Bytes × Bytes)
  | [], .out, current => some (current, [])
  | [], .inq, _ => none
  | [], .insq, _ => none
  | c :: line, .out, current =>
    if isSep c then some (current, line)
    else if c = 34 then splitToken line .inq current
    else if c = 39 then splitToken line .insq current
    else splitToken line .out (current ++ [c])
  | c :: line, .inq, current =>
    if c = 92 then
      match line with
      | [] => splitToken [] .inq (current ++ [92])
      | [e] => splitToken [] .inq (current ++ [unescape e])
      | [e, a] => splitToken [a] .inq (current ++ [unescape e])
      | e :: a :: b :: line =>
        if e = 120 ∧ isHexDigit a ∧ isHexDigit b then
          splitToken line .inq (current ++ [hexDigitToInt a * 16 + hexDigitToInt b])
        else splitToken (a :: b :: line) .inq (current ++ [unescape e])
    else if c = 34 then closeQuote current line
    else splitToken line .inq (current ++ [c])
  | c :: line, .insq, current =>
    if c = 92 then
      match line with
      | [] => splitToken [] .insq (current ++ [92])
      | e :: line =>
        if e = 39 then splitToken line .insq (current ++ [39])
        else splitToken (e :: line) .insq (current ++ [92])
    else if c = 39 then closeQuote current line
    else splitToken line .insq (current ++ [c])

/-- The loop `while(1)`, one token a turn; a fuel above the length of the line never runs out. -/
def sdssplitargsFrom : (fuel : Nat) → Bytes → Option (List Bytes)
  | 0, _ => none
  | fuel + 1, line =>
    match line.dropWhile isSpace with
    | [] => some []
    | c :: line =>
      (splitToken (c :: line) .out []).bind fun (current, line) =>
        (sdssplitargsFrom fuel line).map (current :: ·)

/-- `sdssplitargs(line, &argc)`; `none` is the NULL of unbalanced quotes. -/
def sdssplitargs (line : Bytes) : Option (List Bytes) :=
  sdssplitargsFrom ((cstr line).length + 1) (cstr line)

/-! ## Reading plain words back -/

/-- A byte that stands for itself outside quotes. -/
def isPlain (c : UInt8) : Bool := !(isSep c || c == 34 || c == 39)

/-- A plain word: a token that the splitter copies byte by byte. -/
def PlainWord (w : Bytes) : Prop := (∀ c ∈ w, isPlain c = true) ∧ ∃ c w', w = c :: w' ∧ isSpace c = false

variable {line current tok rest : Bytes} {c : UInt8} {q : Quote}

theorem isPlain_iff : isPlain c = true ↔ isSep c = false ∧ c ≠ 34 ∧ c ≠ 39 := by
  simp [isPlain, and_assoc]

theorem isSpace_of_isSep (h : isSep c = true) : isSpace c = true := by
  simp only [isSep, isSpace, Bool.or_eq_true, beq_iff_eq] at h ⊢
  tauto

/-- Plain bytes go into the token. -/
theorem splitToken_plain (w rest : Bytes) :
    ∀ current, (∀ c ∈ w, isPlain c = true) →
      splitToken (w ++ rest) .out current = splitToken rest .out (current ++ w) := by
  induction w with
  | nil => intro current _; simp
  | cons c w ih =>
    intro current hw
    obtain ⟨hsep, h34, h39⟩ := isPlain_iff.mp (hw c List.mem_cons_self)
    have hrec := ih (current ++ [c]) (fun d hd => hw d (List.mem_cons_of_mem _ hd))
    rw [List.cons_append, splitToken, if_neg (by simp [hsep]), if_neg h34, if_neg h39, hrec]
    simp

/-- A line of words, each followed by one separator. -/
def wordLine (ws : List (Bytes × UInt8)) : Bytes := ws.flatMap fun p => p.1 ++ [p.2]

/-- Plain words are read one by one, whatever follows them. -/
theorem sdssplitargsFrom_words (ws : List (Bytes × UInt8)) (rest : Bytes) :
    (∀ p ∈ ws, PlainWord p.1 ∧ isSep p.2 = true) → ∀ fuel,
      sdssplitargsFrom (fuel + ws.length) (wordLine ws ++ rest) = (sdssplitargsFrom fuel rest).map (ws.map Prod.fst ++ ·) := by
  induction ws with
  | nil =>
    intro _ fuel
    exact Option.map_id'.symm
  | cons p ws ih =>
    intro hws fuel
    obtain ⟨w, sep⟩ := p
    obtain ⟨⟨hplain, c, w', rfl, hc⟩, hsep⟩ := hws (w, sep) List.mem_cons_self
    have hrec := ih (fun q hq => hws q (List.mem_cons_of_mem _ hq)) fuel
    have hline : wordLine ((c :: w', sep) :: ws) ++ rest = c :: (w' ++ sep :: (wordLine ws ++ rest)) := by
      simp [wordLine]
    have htok : splitToken (c :: (w' ++ sep :: (wordLine ws ++ rest))) .out [] = some (c :: w', wordLine ws ++ rest) := by
      rw [← List.cons_append, splitToken_plain _ _ _ hplain, splitToken, if_pos hsep]
      rfl
    have hskip : (c :: (w' ++ sep :: (wordLine ws ++ rest))).dropWhile isSpace = c :: (w' ++ sep :: (wordLine ws ++ rest)) :=
      List.dropWhile_cons_of_neg (by simp [hc])
    rw [hline, List.length_cons, ← Nat.add_assoc, sdssplitargsFrom, hskip]
    dsimp only
    rw [htok, Option.bind_some, hrec, Option.map_map]
    rfl

/-- **Plain words are read back.** -/
theorem sdssplitargsFrom_plain (ws : List (Bytes × UInt8)) (hws : ∀ p ∈ ws, PlainWord p.1 ∧ isSep p.2 = true) (fuel : Nat)
    (hfuel : ws.length < fuel) : sdssplitargsFrom fuel (wordLine ws) = some (ws.map Prod.fst) := by
  obtain ⟨k, rfl⟩ : ∃ k, fuel = k + 1 + ws.length := ⟨fuel - ws.length - 1, by omega⟩
  have hread := sdssplitargsFrom_words ws [] hws (k + 1)
  rw [List.append_nil] at hread
  rw [hread, sdssplitargsFrom]
  exact congrArg some (List.append_nil _)

/-- The last word may be ended by the end of the line. -/
theorem sdssplitargsFrom_last {w : Bytes} (hw : PlainWord w) (fuel : Nat) : sdssplitargsFrom (fuel + 2) w = some [w] := by
  obtain ⟨hplain, c, w', rfl, hc⟩ := hw
  have htok : splitToken (c :: w') .out [] = some (c :: w', []) := by
    have h := splitToken_plain (c :: w') [] [] hplain
    rw [List.append_nil] at h
    rw [h, splitToken]
    rfl
  have hskip : (c :: w').dropWhile isSpace = c :: w' := List.dropWhile_cons_of_neg (by simp [hc])
  rw [sdssplitargsFrom, hskip]
  dsimp only
  rw [htok, Option.bind_some, sdssplitargsFrom]
  rfl

/-! ## What a token costs -/

/-- The line is empty or still ends in its newline. -/
def Terminated (line : Bytes) : Prop := line = [] ∨ ∃ l, line = l ++ [10]

theorem Terminated.tail {line : Bytes} (h : Terminated (c :: line)) : Terminated line := by
  rcases h with h | ⟨l, h⟩
  · cases h
  · cases l with
    | nil => exact .inl (List.cons.inj h).2
    | cons d l => exact .inr ⟨l, (List.cons.inj h).2⟩

theorem Terminated.ne_nil {line : Bytes} (h : Terminated (c :: line)) (hc : c ≠ 10) : line ≠ [] := by
  rintro rfl
  rcases h with h | ⟨l, h⟩
  · cases h
  · cases l with
    | nil => exact hc (List.cons.inj h).1
    | cons d l => simp at h

/-- What is left of a line still ends. -/
theorem Terminated.dropWhile {line : Bytes} (h : Terminated line) (p : UInt8 → Bool) :
    Terminated (line.dropWhile p) := by
  induction line with
  | nil => exact h
  | cons c line ih =>
    rw [List.dropWhile_cons]
    split
    · exact ih h.tail
    · exact h

/-- A closing quote ends the token. -/
theorem closeQuote_eq {current line tok rest : Bytes} (h : closeQuote current line = some (tok, rest)) :
    tok = current ∧ rest = line := by
  unfold closeQuote at h
  split at h
  · cases h; exact ⟨rfl, rfl⟩
  · split at h
    · cases h; exact ⟨rfl, rfl⟩
    · cases h

/-- What `splitToken` may have consumed, from any quoting state: the token is paid for with at least one
    byte more than it has, and with exactly one more only if it was copied from outside quotes. -/
structure TokenCost (line : Bytes) (q : Quote) (current tok rest : Bytes) : Prop where
  terminated : Terminated rest
  cost : tok.length + rest.length + 1 ≤ current.length + line.length
  tight : q = .out → tok.length + rest.length + 1 = current.length + line.length →
    ∃ w sep, line = w ++ sep :: rest ∧ tok = current ++ w ∧ isSep sep = true ∧ ∀ c ∈ w, isPlain c = true

/-- A byte inside quotes that stands for another. -/
theorem TokenCost.skip {c b : UInt8} (hq : q ≠ .out) (h : TokenCost line q (current ++ [b]) tok rest) :
    TokenCost (c :: line) q current tok rest where
  terminated := h.terminated
  cost := by
    have := h.cost
    simp only [List.length_append, List.length_cons, List.length_nil] at this ⊢
    omega
  tight := fun hout => absurd hout hq

/-- A byte inside quotes that stands for none. -/
theorem TokenCost.lose (hq : q ≠ .out) (h : TokenCost line q current tok rest) :
    TokenCost (c :: line) q current tok rest where
  terminated := h.terminated
  cost := by
    have := h.cost
    simp only [List.length_cons]
    omega
  tight := fun hout => absurd hout hq

theorem TokenCost.close (hq : q ≠ .out) (hterm : Terminated line) (h : closeQuote current line = some (tok, rest)) :
    TokenCost (c :: line) q current tok rest := by
  obtain ⟨rfl, rfl⟩ := closeQuote_eq h
  exact ⟨hterm, by rw [List.length_cons]; omega, fun hout => absurd hout hq⟩

theorem TokenCost.openQuote (h : TokenCost line q current tok rest) :
    TokenCost (c :: line) .out current tok rest where
  terminated := h.terminated
  cost := by
    have := h.cost
    simp only [List.length_cons]
    omega
  tight := by
    intro _ heq
    have := h.cost
    simp only [List.length_cons] at heq
    omega

/-- A plain byte. -/
theorem TokenCost.copy (hc : isPlain c = true) (h : TokenCost line .out (current ++ [c]) tok rest) :
    TokenCost (c :: line) .out current tok rest where
  terminated := h.terminated
  cost := by
    have := h.cost
    simp only [List.length_append, List.length_cons, List.length_nil] at this ⊢
    omega
  tight := by
    intro _ heq
    obtain ⟨w, sep, rfl, rfl, hsep, hw⟩ := h.tight rfl (by simp at heq ⊢; omega)
    refine ⟨c :: w, sep, rfl, by simp, hsep, ?_⟩
    intro d hd
    rcases List.mem_cons.mp hd with rfl | hd
    · exact hc
    · exact hw d hd

/-- The price of one token on a terminated line. -/
theorem splitToken_cost : ∀ (line : Bytes) (q : Quote) (current : Bytes) {tok rest : Bytes},
    Terminated line → (q = .out → line ≠ []) → splitToken line q current = some (tok, rest) →
      TokenCost line q current tok rest := by
  intro line q current
  have hinq : Quote.inq ≠ .out := nofun
  have hinsq : Quote.insq ≠ .out := nofun
  -- one case for each branch of the loop; those inside quotes only ever lose bytes
  fun_induction splitToken line q current with
  | case1 current => intro tok rest _ hne _; exact absurd rfl (hne rfl)
  | case2 current => intro tok rest _ _ h; cases h
  | case3 current => intro tok rest _ _ h; cases h
  | case4 c line current hsep =>
    intro tok rest hterm _ h
    cases h
    exact ⟨hterm.tail, by rw [List.length_cons]; omega, fun _ _ => ⟨[], c, rfl, by simp, hsep, by simp⟩⟩
  | case5 line current hsep ih =>
    -- an opening quote is paid for and yields nothing
    intro tok rest hterm _ h
    exact (ih hterm.tail nofun h).openQuote
  | case6 line current hsep _ ih =>
    intro tok rest hterm _ h
    exact (ih hterm.tail nofun h).openQuote
  | case7 c line current hsep h34 h39 ih =>
    -- a plain byte: the newline is still to come, so the line does not end here
    intro tok rest hterm _ h
    have hc : c ≠ 10 := by rintro rfl; exact hsep rfl
    have hplain : isPlain c = true := isPlain_iff.mpr ⟨by simpa using hsep, h34, h39⟩
    exact (ih hterm.tail (fun _ => hterm.ne_nil hc) h).copy hplain
  | case8 current ih =>
    intro tok rest hterm _ h
    exact (ih hterm.tail nofun h).skip hinq
  | case9 current e ih =>
    intro tok rest hterm _ h
    exact ((ih hterm.tail.tail nofun h).skip hinq).lose hinq
  | case10 current e a ih =>
    intro tok rest hterm _ h
    exact ((ih hterm.tail.tail nofun h).skip hinq).lose hinq
  | case11 current e a b line _ ih =>
    -- `\xHH`: four bytes for one
    intro tok rest hterm _ h
    exact ((((ih hterm.tail.tail.tail.tail nofun h).skip hinq).lose hinq).lose hinq).lose hinq
  | case12 current e a b line _ ih =>
    intro tok rest hterm _ h
    exact ((ih hterm.tail.tail nofun h).skip hinq).lose hinq
  | case13 line current _ =>
    intro tok rest hterm _ h
    exact .close hinq hterm.tail h
  | case14 c line current _ _ ih =>
    intro tok rest hterm _ h
    exact (ih hterm.tail nofun h).skip hinq
  | case15 current ih =>
    intro tok rest hterm _ h
    exact (ih hterm.tail nofun h).skip hinsq
  | case16 current line ih =>
    intro tok rest hterm _ h
    exact ((ih hterm.tail.tail nofun h).skip hinsq).lose hinsq
  | case17 current e line _ ih =>
    intro tok rest hterm _ h
    exact (ih hterm.tail nofun h).skip hinsq
  | case18 line current _ =>
    intro tok rest hterm _ h
    exact .close hinsq hterm.tail h
  | case19 c line current _ _ ih =>
    intro tok rest hterm _ h
    exact (ih hterm.tail nofun h).skip hinsq

/-- The bytes a list of tokens needs, one separator for each. -/
def wordsLength (toks : List Bytes) : Nat := (toks.map fun t => t.length + 1).sum

@[simp] theorem wordsLength_cons (t : Bytes) (toks : List Bytes) :
    wordsLength (t :: toks) = t.length + 1 + wordsLength toks := by simp [wordsLength]

/-- **Tokens are paid for.** A terminated line has at least one byte more than each token, and if it has
    no more than that, every token is a plain word. -/
theorem sdssplitargsFrom_length : ∀ (fuel : Nat) (line : Bytes) {toks : List Bytes}, Terminated line →
    sdssplitargsFrom fuel line = some toks →
      wordsLength toks ≤ line.length ∧ (wordsLength toks = line.length → ∀ t ∈ toks, PlainWord t) := by
  intro fuel
  induction fuel with
  | zero => intro line toks _ h; cases h
  | succ fuel ih =>
    intro line toks hterm h
    rw [sdssplitargsFrom] at h
    have hdrop := hterm.dropWhile isSpace
    have hlen : (line.dropWhile isSpace).length ≤ line.length := (List.dropWhile_suffix _).length_le
    split at h
    · cases h
      exact ⟨Nat.zero_le _, by simp⟩
    · rename_i c line' heq
      rw [heq] at hdrop hlen
      obtain ⟨⟨tok, rest⟩, htok, h⟩ := Option.bind_eq_some_iff.mp h
      obtain ⟨toks', htoks, rfl⟩ := Option.map_eq_some_iff.mp h
      have hcost := splitToken_cost _ _ _ hdrop (fun _ => List.cons_ne_nil _ _) htok
      obtain ⟨hle, hplain⟩ := ih rest hcost.terminated htoks
      have hpay := hcost.cost
      simp only [List.length_nil, Nat.zero_add] at hpay
      refine ⟨by rw [wordsLength_cons]; omega, ?_⟩
      intro htight t ht
      rw [wordsLength_cons] at htight
      rcases List.mem_cons.mp ht with rfl | ht
      · -- the token started at a byte that is no blank, and was copied
        obtain ⟨w, sep, hline, rfl, hsep, hw⟩ := hcost.tight rfl (by simp only [List.length_nil]; omega)
        have hc : isSpace c = false := by
          have := List.head_dropWhile_not isSpace (by rw [heq]; exact List.cons_ne_nil _ _)
          simpa [heq] using this
        refine ⟨hw, ?_⟩
        cases t with
        | nil =>
          rw [List.nil_append, List.cons.injEq] at hline
          rw [hline.1, isSpace_of_isSep hsep] at hc
          cases hc
        | cons d w =>
          rw [List.cons_append, List.cons.injEq] at hline
          exact ⟨d, w, rfl, hline.1 ▸ hc⟩
      · exact hplain (by omega) t ht

/-! ## Marks -/

theorem marks_singleton_le (b : UInt8) : marks [b] ≤ 1 := by
  rw [marks_cons]
  split <;> simp

/-- An escape pays for the byte it yields with its backslash. -/
theorem marks_escape {current line line' tok rest : Bytes} {b : UInt8} (hsuf : line' <:+ line)
    (h : marks tok + marks rest ≤ marks (current ++ [b]) + marks line') :
    marks tok + marks rest ≤ marks current + marks (92 :: line) := by
  have hb := marks_singleton_le b
  have hle := marks_le_of_suffix hsuf
  rw [marks_append] at h
  rw [marks_cons, if_pos (by decide)]
  omega

theorem marks_copy {current line tok rest : Bytes}
    (h : marks tok + marks rest ≤ marks (current ++ [c]) + marks line) :
    marks tok + marks rest ≤ marks current + marks (c :: line) := by
  rw [marks_append, marks_cons, marks_nil] at h
  rw [marks_cons]
  omega

theorem marks_lose {current line tok rest : Bytes} (h : marks tok + marks rest ≤ marks current + marks line) :
    marks tok + marks rest ≤ marks current + marks (c :: line) := by
  rw [marks_cons]
  omega

/-- Splitting a token never adds a mark that was not paid for with one. -/
theorem splitToken_marks : ∀ (line : Bytes) (q : Quote) (current : Bytes) {tok rest : Bytes},
    splitToken line q current = some (tok, rest) → marks tok + marks rest ≤ marks current + marks line := by
  intro line q current
  have hclose : ∀ {current line tok rest : Bytes}, closeQuote current line = some (tok, rest) →
      marks tok + marks rest ≤ marks current + marks line := by
    intro current line tok rest h
    obtain ⟨rfl, rfl⟩ := closeQuote_eq h
    exact le_rfl
  fun_induction splitToken line q current with
  | case1 current => intro tok rest h; cases h; exact le_rfl
  | case2 current => intro tok rest h; cases h
  | case3 current => intro tok rest h; cases h
  | case4 c line current hsep => intro tok rest h; cases h; exact marks_lose le_rfl
  | case5 line current hsep ih => intro tok rest h; exact marks_lose (ih h)
  | case6 line current hsep _ ih => intro tok rest h; exact marks_lose (ih h)
  | case7 c line current _ _ _ ih => intro tok rest h; exact marks_copy (ih h)
  | case8 current ih => intro tok rest h; exact marks_copy (ih h)
  | case9 current e ih => intro tok rest h; exact marks_escape (List.suffix_cons _ _) (ih h)
  | case10 current e a ih => intro tok rest h; exact marks_escape (List.suffix_cons _ _) (ih h)
  | case11 current e a b line _ ih =>
    intro tok rest h
    have hsuf : line <:+ e :: a :: b :: line :=
      (List.suffix_cons _ _).trans ((List.suffix_cons _ _).trans (List.suffix_cons _ _))
    exact marks_escape hsuf (ih h)
  | case12 current e a b line _ ih => intro tok rest h; exact marks_escape (List.suffix_cons _ _) (ih h)
  | case13 line current _ => intro tok rest h; exact marks_lose (hclose h)
  | case14 c line current _ _ ih => intro tok rest h; exact marks_copy (ih h)
  | case15 current ih => intro tok rest h; exact marks_copy (ih h)
  | case16 current line ih => intro tok rest h; exact marks_escape (List.suffix_cons _ _) (ih h)
  | case17 current e line _ ih => intro tok rest h; exact marks_copy (ih h)
  | case18 line current _ => intro tok rest h; exact marks_lose (hclose h)
  | case19 c line current _ _ ih => intro tok rest h; exact marks_copy (ih h)

/-- **Marks are paid for.** The tokens of a line hold no more marks than the line. -/
theorem sdssplitargsFrom_marks : ∀ (fuel : Nat) (line : Bytes) {toks : List Bytes},
    sdssplitargsFrom fuel line = some toks → marks toks.flatten ≤ marks line := by
  intro fuel
  induction fuel with
  | zero => intro line toks h; cases h
  | succ fuel ih =>
    intro line toks h
    rw [sdssplitargsFrom] at h
    have hdrop : marks (line.dropWhile isSpace) ≤ marks line := marks_le_of_suffix (List.dropWhile_suffix _)
    split at h
    · cases h
      exact Nat.zero_le _
    · rename_i c line' heq
      rw [heq] at hdrop
      obtain ⟨⟨tok, rest⟩, htok, h⟩ := Option.bind_eq_some_iff.mp h
      obtain ⟨toks', htoks, rfl⟩ := Option.map_eq_some_iff.mp h
      have hone := splitToken_marks _ _ _ htok
      have hrest := ih rest htoks
      rw [marks_nil] at hone
      rw [List.flatten_cons, marks_append]
      omega

end Prez
