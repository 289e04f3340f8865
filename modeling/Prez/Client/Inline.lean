import Prez.Client.Parse

/-!
# `Prez.Client.Inline` — inline requests line by line

A line of an inline request may end in CRLF or in LF alone. `processInlineBuffer` steps back over a CR, splits what is
before it, and then skips two bytes in either case: behind a line that ends in LF alone, the first byte of what
follows is lost, if it is in the buffer already.

`inline_requests` says for which reads that does not happen (`BareLast`), and that then every line is dispatched with
its non-empty tokens, whatever the pieces are in which the bytes arrive.
-/

namespace Prez

open Lib

/-! ## Lines -/

/-- A line and how it ends. -/
structure InlineLine where
  text : Bytes
  crlf : Bool
deriving DecidableEq

/-- The line end. -/
def InlineLine.ending (line : InlineLine) : Bytes := if line.crlf then [13, 10] else [10]

/-- The line as it is sent. -/
def InlineLine.bytes (line : InlineLine) : Bytes := line.text ++ line.ending

def encodeLines (lines : List InlineLine) : Bytes := lines.flatMap InlineLine.bytes

/-- The arguments that a line is dispatched with. -/
def InlineLine.argv (line : InlineLine) : List Bytes := ((sdssplitargs line.text).getD []).filter (· ≠ [])

/-- The requests that lines are: those with an argument. -/
def requestsOf (lines : List InlineLine) : List (List Bytes) := (lines.map InlineLine.argv).filter (· ≠ [])

/-- A line that can be read: short enough, without NUL, CR or LF, with balanced quotes and no `*` in front. -/
structure ValidLine (line : InlineLine) : Prop where
  short : line.text.length < inlineMaxSize
  plain : ∀ b ∈ line.text, b ≠ 0 ∧ b ≠ 13 ∧ b ≠ 10
  balanced : (sdssplitargs line.text).isSome = true
  inline : line.text.head? ≠ some 42

/-- Every LF of the buffer that has no CR before it is its last byte. -/
def BareLast (buf : Bytes) : Prop :=
  ∀ k < buf.length, buf[k]? = some 10 → k + 1 = buf.length ∨ 0 < k ∧ buf[k - 1]? = some 13

instance (buf : Bytes) : Decidable (BareLast buf) :=
  inferInstanceAs (Decidable (∀ k < buf.length, buf[k]? = some 10 → _))

section

variable {line : InlineLine}

theorem InlineLine.bytes_length (line : InlineLine) :
    line.bytes.length = line.text.length + if line.crlf then 2 else 1 := by
  unfold InlineLine.bytes InlineLine.ending
  rw [List.length_append]
  split <;> rfl

/-- Where a line ends: the newline, and the length of what is before its end. -/
theorem ValidLine.newline (h : ValidLine line) (rest : Bytes) :
    strchr 10 (line.bytes ++ rest) = some (line.text.length + if line.crlf then 1 else 0) := by
  unfold InlineLine.bytes InlineLine.ending
  split
  · have hplain : ∀ b ∈ line.text ++ [13], b ≠ 10 ∧ b ≠ 0 := by
      intro b hb
      rcases List.mem_append.mp hb with hb | hb
      · exact ⟨(h.plain b hb).2.2, (h.plain b hb).1⟩
      · rw [List.mem_singleton.mp hb]
        decide
    have := strchr_append hplain rest
    rw [List.length_append, List.length_singleton] at this
    rw [← this]
    simp
  · have hplain : ∀ b ∈ line.text, b ≠ 10 ∧ b ≠ 0 := fun b hb => ⟨(h.plain b hb).2.2, (h.plain b hb).1⟩
    have := strchr_append hplain rest
    rw [Nat.add_zero, ← this]
    simp

/-- **One line.** It is split up to its end, and two bytes are skipped behind that. -/
theorem processInlineBuffer_line (h : ValidLine line) {p : Parser} {rest : Bytes}
    (hbuf : p.querybuf = line.bytes ++ rest) :
    processInlineBuffer p =
      ({ p with querybuf := if line.crlf then rest else rest.drop 1, argv := line.argv }, true) := by
  obtain ⟨argv, hargv⟩ := Option.isSome_iff_exists.mp h.balanced
  have hlen : (if line.text.length + (if line.crlf then 1 else 0) ≠ 0 ∧
      p.querybuf[line.text.length + (if line.crlf then 1 else 0) - 1]? = some 13
        then line.text.length + (if line.crlf then 1 else 0) - 1
        else line.text.length + if line.crlf then 1 else 0) = line.text.length := by
    rw [hbuf, InlineLine.bytes, InlineLine.ending]
    cases line.crlf with
    | true =>
      rw [if_pos rfl, if_pos rfl, if_pos]
      · exact Nat.add_sub_cancel ..
      · refine ⟨Nat.succ_ne_zero _, ?_⟩
        rw [Nat.add_sub_cancel, List.append_assoc, List.getElem?_append_right le_rfl, Nat.sub_self]
        rfl
    | false =>
      rw [if_neg Bool.false_ne_true, if_neg Bool.false_ne_true, if_neg]
      · rfl
      · -- the byte before the newline belongs to the text, if there is one
        rintro ⟨hpos, hcr⟩
        rw [Nat.add_zero, List.append_assoc, List.getElem?_append_left (by omega)] at hcr
        exact (h.plain 13 (List.mem_of_getElem? hcr)).2.1 rfl
  have htake : p.querybuf.take line.text.length = line.text := by
    rw [hbuf, InlineLine.bytes, List.append_assoc, List.take_left]
  have hdrop : p.querybuf.drop (line.text.length + 2) = if line.crlf then rest else rest.drop 1 := by
    rw [hbuf, InlineLine.bytes, InlineLine.ending, List.append_assoc, ← List.drop_drop, List.drop_left]
    cases line.crlf <;> rfl
  unfold processInlineBuffer
  rw [hbuf, h.newline, ← hbuf]
  dsimp only
  rw [hlen, htake, hargv]
  dsimp only
  rw [sdsrange_drop, hdrop, InlineLine.argv, hargv]
  rfl

/-- A buffer without a newline waits for more. -/
theorem processInlineBuffer_wait {p : Parser} (hno : (10 : UInt8) ∉ p.querybuf)
    (hshort : p.querybuf.length ≤ inlineMaxSize) : processInlineBuffer p = (p, false) := by
  unfold processInlineBuffer
  have hnone : strchr 10 p.querybuf = none := strchr_none fun b hb heq => hno (heq ▸ hb)
  rw [hnone]
  dsimp only
  rw [if_neg (not_lt.mpr hshort)]

/-- Before its last byte a line has no newline. -/
theorem ValidLine.dropLast (h : ValidLine line) : (10 : UInt8) ∉ line.bytes.dropLast := by
  have hne : line.ending ≠ [] := by
    unfold InlineLine.ending
    split <;> exact nofun
  rw [InlineLine.bytes, List.dropLast_append_of_ne_nil hne]
  intro hmem
  rcases List.mem_append.mp hmem with hmem | hmem
  · exact (h.plain 10 hmem).2.2 rfl
  · unfold InlineLine.ending at hmem
    split at hmem <;> simp at hmem

/-- The first line is in the buffer with its end, or the buffer is a part of it without a newline. -/
theorem ValidLine.cases (h : ValidLine line) {buf rest more : Bytes} (hbuf : buf ++ rest = line.bytes ++ more) :
    (∃ buf', buf = line.bytes ++ buf' ∧ buf' ++ rest = more) ∨
      (10 : UInt8) ∉ buf ∧ buf.length ≤ inlineMaxSize ∧ rest ≠ [] := by
  rcases List.append_eq_append_iff.mp hbuf with ⟨left, hline, hrest⟩ | ⟨buf', hbuf', hmore⟩
  · rcases List.eq_nil_or_concat' left with rfl | ⟨init, last, rfl⟩
    · rw [List.append_nil] at hline
      exact .inl ⟨[], by rw [hline, List.append_nil], hrest⟩
    · right
      have hinit : line.bytes.dropLast = buf ++ init := by
        rw [hline, ← List.append_assoc, List.dropLast_concat]
      refine ⟨fun hmem => h.dropLast ?_, ?_, ?_⟩
      · rw [hinit]
        exact List.mem_append_left _ hmem
      · have hlen := congrArg List.length hline
        have := h.short
        rw [line.bytes_length, List.length_append, List.length_append, List.length_singleton] at hlen
        split at hlen <;> omega
      · rw [hrest]
        simp
  · exact .inl ⟨buf', hbuf', hmore.symm⟩

/-! ## One read -/

/-- What a buffer that starts with a line leaves behind it: nothing, or what follows a CRLF. -/
theorem ValidLine.bareLast (h : ValidLine line) {buf : Bytes} (hbare : BareLast (line.bytes ++ buf)) :
    (line.crlf = true ∨ buf = []) ∧ BareLast buf := by
  have hpos : 0 < line.bytes.length := by
    rw [line.bytes_length]
    split <;> omega
  have hlast : line.bytes[line.bytes.length - 1]? = some 10 := by
    rw [← List.getLast?_eq_getElem?]
    unfold InlineLine.bytes InlineLine.ending
    split <;> simp
  constructor
  · by_contra hnot
    obtain ⟨hlf, hbuf⟩ := not_or.mp hnot
    have hlen := line.bytes_length
    have hbuf' := List.length_pos_of_ne_nil hbuf
    rw [if_neg hlf] at hlen
    have hat := hbare (line.bytes.length - 1) (by rw [List.length_append]; omega)
      (by rw [List.getElem?_append_left (by omega)]; exact hlast)
    rw [List.length_append] at hat
    rcases hat with hend | ⟨hk, hcr⟩
    · omega
    · -- the byte before the newline belongs to the text
      rw [InlineLine.bytes, List.append_assoc, ← InlineLine.bytes, List.getElem?_append_left (by omega)] at hcr
      exact (h.plain 13 (List.mem_of_getElem? hcr)).2.1 rfl
  · intro k hk h10
    have hat := hbare (line.bytes.length + k) (by rw [List.length_append]; omega)
      (by rw [List.getElem?_append_right (by omega), Nat.add_sub_cancel_left]; exact h10)
    rw [List.length_append] at hat
    rcases hat with hend | ⟨-, hcr⟩
    · exact .inl (by omega)
    · rcases Nat.eq_zero_or_pos k with rfl | hk0
      · -- the byte before is the end of the line
        rw [Nat.add_zero, List.getElem?_append_left (by omega), hlast] at hcr
        cases hcr
      · rw [List.getElem?_append_right (by omega)] at hcr
        refine .inr ⟨hk0, ?_⟩
        rw [← hcr]
        congr 1
        omega

theorem ValidLine.head (h : ValidLine line) (more : Bytes) : (line.bytes ++ more).head? ≠ some 42 := by
  have hhead := h.inline
  unfold InlineLine.bytes InlineLine.ending
  cases htext : line.text with
  | nil => split <;> exact fun h42 => absurd (Option.some.inj h42) (by decide)
  | cons b text =>
    rw [htext] at hhead
    exact hhead

end

theorem encodeLines_cons (line : InlineLine) (lines : List InlineLine) :
    encodeLines (line :: lines) = line.bytes ++ encodeLines lines := List.flatMap_cons

theorem requestsOf_append (lines more : List InlineLine) : requestsOf (lines ++ more) = requestsOf lines ++ requestsOf more := by
  rw [requestsOf, List.map_append, List.filter_append]
  rfl

/-- The parser is at the start of a line or inside one: the buffer, with what is not read yet behind it, is the text
    of the lines to come. -/
structure AtLine (p : Parser) (rest : Bytes) (lines : List InlineLine) : Prop where
  argv : p.argv = []
  type : p.reqtype ≠ some .multibulk
  clean : Clean p
  text : p.querybuf ++ rest = encodeLines lines

/-- A turn at a line takes the inline format. -/
theorem AtLine.parseTurn_eq {p : Parser} {rest : Bytes} {lines : List InlineLine} (h : AtLine p rest lines)
    (hv : ∀ line ∈ lines, ValidLine line) (hne : p.querybuf ≠ []) :
    parseTurn p = some (processInlineBuffer { p with reqtype := some .inline }) := by
  have hhead : p.querybuf.head? ≠ some 42 := by
    intro h42
    obtain ⟨b, buf, hbuf⟩ := List.exists_cons_of_ne_nil hne
    have htext := h.text
    cases lines with
    | nil =>
      rw [hbuf] at htext
      cases htext
    | cons line lines =>
      apply (hv line (List.mem_cons_self ..)).head (encodeLines lines)
      rw [← encodeLines_cons, ← htext, hbuf]
      rw [hbuf] at h42
      exact h42
  rw [parseTurn, if_neg (by rw [h.clean.1]; exact Bool.false_ne_true)]
  have htype := h.type
  obtain ⟨buf, reqtype, argv, mlen, blen, close, errors⟩ := p
  cases reqtype with
  | none => exact if_neg hhead
  | some t =>
    cases t with
    | inline => rfl
    | multibulk => exact absurd rfl htype

section

variable {σ : Type} (run : σ → List Bytes → σ)

/-- Between two reads, `s` having become `s'`: what was dispatched are the requests of some first lines, the others
    are to come, and no whole one is in the buffer. -/
structure LineProgress (s s' : σ) (p : Parser) (rest : Bytes) (lines todo : List InlineLine) : Prop where
  dispatched : ∃ done, lines = done ++ todo ∧ s' = (requestsOf done).foldl run s
  line : AtLine p rest todo
  short : p.querybuf.length ≤ inlineMaxSize
  more : p.querybuf ≠ [] → rest ≠ []

/-- A line in front of what was dispatched. -/
theorem LineProgress.cons {s s' : σ} {p : Parser} {rest : Bytes} {line : InlineLine} {lines todo : List InlineLine}
    (h : LineProgress run ((requestsOf [line]).foldl run s) s' p rest lines todo) :
    LineProgress run s s' p rest (line :: lines) todo := by
  obtain ⟨done, hlines, hstate⟩ := h.dispatched
  refine { h with dispatched := ⟨line :: done, by rw [hlines, List.cons_append], ?_⟩ }
  rw [hstate, ← List.foldl_append, ← requestsOf_append]
  rfl

/-- The loop over the lines of a buffer. -/
theorem processInputBuffer_lines {rest : Bytes} :
    ∀ (fuel : Nat) {s : σ} {p : Parser} {lines : List InlineLine}, p.querybuf.length < fuel →
      (∀ line ∈ lines, ValidLine line) → AtLine p rest lines → BareLast p.querybuf →
      ∃ s' p' todo, processInputBuffer (executes run) fuel s p = some (s', p') ∧
        LineProgress run s s' p' rest lines todo := by
  intro fuel
  induction fuel with
  | zero => exact fun h => absurd h (Nat.not_lt_zero _)
  | succ fuel ih =>
    intro s p lines hfuel hv hp hbare
    rw [processInputBuffer]
    by_cases hnil : p.querybuf = []
    · rw [if_pos hnil]
      refine ⟨s, p, lines, rfl, ⟨[], rfl, rfl⟩, hp, ?_, fun h => absurd hnil h⟩
      rw [hnil]
      exact Nat.zero_le _
    · rw [if_neg hnil, hp.parseTurn_eq hv hnil, Option.bind_some]
      have htext := hp.text
      cases lines with
      | nil => exact absurd (List.append_eq_nil_iff.mp htext).1 hnil
      | cons line lines =>
        obtain ⟨hline, hv'⟩ := List.forall_mem_cons.mp hv
        rw [encodeLines_cons] at htext
        rcases hline.cases htext with ⟨buf, hbuf, hrest⟩ | ⟨hno, hshort, hmore⟩
        · rw [hbuf] at hbare
          obtain ⟨hend, hbare'⟩ := hline.bareLast hbare
          have hleft : (if line.crlf then buf else buf.drop 1) = buf := by
            rcases hend with hcrlf | rfl
            · rw [if_pos hcrlf]
            · split <;> rfl
          have hless : buf.length < fuel := by
            have := line.bytes_length
            rw [hbuf, List.length_append] at hfuel
            split at this <;> omega
          rw [processInlineBuffer_line (p := { p with reqtype := some .inline }) hline hbuf, hleft]
          dsimp only
          have hnext : AtLine { p with querybuf := buf, argv := line.argv, reqtype := some .inline }.reset rest lines :=
            ⟨rfl, show none ≠ some ReqType.multibulk by decide, hp.clean, hrest⟩
          obtain ⟨s', p', todo, hrun, hprogress⟩ := ih (s := (requestsOf [line]).foldl run s) hless hv' hnext hbare'
          refine ⟨s', p', todo, ?_, hprogress.cons run⟩
          rw [← hrun]
          by_cases hargv : line.argv = []
          · simp [hargv, requestsOf, Parser.reset]
          · simp [hargv, requestsOf, executes]
        · rw [processInlineBuffer_wait (p := { p with reqtype := some .inline }) hno hshort]
          have hwait : AtLine { p with reqtype := some .inline } rest (line :: lines) :=
            ⟨hp.argv, show some ReqType.inline ≠ some .multibulk by decide, hp.clean, hp.text⟩
          exact ⟨s, _, line :: lines, rfl, ⟨[], rfl, rfl⟩, hwait, hshort, fun _ => hmore⟩

variable {run}

/-! ## All reads -/

/-- The start: a new client to which the lines were sent. -/
def Delivery.lines (s : σ) (lines : List InlineLine) : Delivery σ := ⟨⟨s, .new, false⟩, encodeLines lines⟩

/-- The buffer when `processInputBuffer` is called after the next `n` bytes. -/
def Delivery.buffered (d : Delivery σ) (n : Nat) : Bytes := d.conn.parser.querybuf ++ d.unread.take n

/-- The next `n` bytes, however many, are appended to the buffer, and `processInputBuffer` is called. -/
def Delivery.feed (run : σ → List Bytes → σ) (d : Delivery σ) (n : Nat) : Option (Delivery σ) :=
  (processInputBuffer (executes run) ((d.buffered n).length + 1) d.conn.state
    { d.conn.parser with querybuf := d.buffered n }).map fun r =>
      ⟨{ d.conn with state := r.1, parser := r.2 }, d.unread.drop n⟩

/-- No bare LF is followed by another byte in the buffer. -/
def BareRead (d : Delivery σ) (n : Nat) : Prop := BareLast (d.buffered n)
deriving Decidable

/-- What holds between reads. -/
structure LineInv (run : σ → List Bytes → σ) (s : σ) (lines : List InlineLine) (d : Delivery σ) : Prop where
  alive : d.conn.freed = false
  progress : ∃ todo, LineProgress run s d.conn.state d.conn.parser d.unread lines todo

theorem LineInv.init (s : σ) (lines : List InlineLine) : LineInv run s lines (.lines s lines) := by
  refine ⟨rfl, lines, ⟨[], rfl, rfl⟩, ⟨rfl, nofun, ⟨rfl, rfl⟩, rfl⟩, Nat.zero_le _, ?_⟩
  exact fun h => absurd rfl h

/-- Any number of bytes can come next, and the invariant is kept. -/
theorem LineInv.feed {s : σ} {lines : List InlineLine} {d : Delivery σ} (h : LineInv run s lines d)
    (hv : ∀ line ∈ lines, ValidLine line) {n : Nat} (hbare : BareRead d n) :
    ∃ d', d.feed run n = some d' ∧ LineInv run s lines d' := by
  obtain ⟨halive, todo, ⟨done, hlines, hstate⟩, hline, -, -⟩ := h
  have hv' : ∀ line ∈ todo, ValidLine line := fun line hmem => hv line (hlines ▸ List.mem_append_right _ hmem)
  have hnext : AtLine { d.conn.parser with querybuf := d.buffered n } (d.unread.drop n) todo := by
    refine ⟨hline.argv, hline.type, hline.clean, ?_⟩
    show d.buffered n ++ d.unread.drop n = encodeLines todo
    rw [Delivery.buffered, List.append_assoc, List.take_append_drop, hline.text]
  obtain ⟨s', p', todo', hrun, hprogress⟩ :=
    processInputBuffer_lines run _ (Nat.lt_succ_self _) (s := d.conn.state) hv' hnext hbare
  obtain ⟨done', hdone', hfold⟩ := hprogress.dispatched
  refine ⟨⟨{ d.conn with state := s', parser := p' }, d.unread.drop n⟩, ?_, halive, todo', ?_⟩
  · rw [Delivery.feed, hrun, Option.map_some]
  · refine { hprogress with dispatched := ⟨done ++ done', ?_, ?_⟩ }
    · rw [hlines, hdone', List.append_assoc]
    · rw [requestsOf_append, List.foldl_append, ← hstate, hfold]

/-- `readQueryFromClient` does just this with the bytes that it reads. -/
theorem LineInv.read_eq {s : σ} {lines : List InlineLine} {d : Delivery σ} (h : LineInv run s lines d) {n : Nat}
    (h1 : 1 ≤ n) (hlen : n ≤ iobufLen) (hmore : n ≤ d.unread.length) : d.read run n = d.feed run n := by
  obtain ⟨-, todo, -, hline, hshort, -⟩ := h
  have hchunk : (d.unread.take n).length = n := by rw [List.length_take, Nat.min_eq_left hmore]
  have hread : readLen d.conn.parser = iobufLen := by
    rw [readLen, if_neg fun hall => hline.type hall.1]
  have hguard : ¬ (d.unread.take n = [] ∨ readLen d.conn.parser < (d.unread.take n).length) := by
    rw [hchunk, hread]
    rintro (hnil | hlt)
    · rw [hnil, List.length_nil] at hchunk
      omega
    · omega
  have hmax : ¬ (d.conn.parser.querybuf ++ d.unread.take n).length > maxQuerybufLen := by
    rw [List.length_append, hchunk]
    simp only [inlineMaxSize, iobufLen, maxQuerybufLen] at hshort hlen ⊢
    omega
  rw [Delivery.read, if_pos hmore, readQueryFromClient, if_neg hguard, if_neg hmax, Option.map_map]
  rfl

/-- **Inline requests.** A client sends lines, each ended by CRLF or by LF alone, and the bytes come in pieces of any
    length. As long as no LF without a CR is followed by another byte in the buffer, what was dispatched after
    every piece are the non-empty argument lists of the first lines, in order, and the buffer and what is still to
    come are the other lines, byte by byte; no line is left behind the last byte. The condition is exact: a line
    takes no byte of what is behind it if it ends in CRLF or there is nothing behind it, and not otherwise. -/
theorem inline_requests (s : σ) (lines : List InlineLine) (hv : ∀ line ∈ lines, ValidLine line) (d : Delivery σ)
    (hr : RunBy (Delivery.feed run) BareRead (.lines s lines) d) :
    (∃ done todo, lines = done ++ todo ∧ d.conn.state = (requestsOf done).foldl run s ∧
        d.conn.parser.querybuf ++ d.unread = encodeLines todo ∧ (d.unread = [] → todo = [])) ∧
      d.conn.parser.errors = [] ∧ d.conn.parser.closeAfterReply = false ∧ d.conn.freed = false ∧
      (∀ n, BareRead d n → (d.feed run n).isSome = true) ∧
      (∀ n, 1 ≤ n → n ≤ iobufLen → n ≤ d.unread.length → d.read run n = d.feed run n) ∧
      ∀ line ∈ lines, ∀ (p : Parser) (rest : Bytes), p.querybuf = line.bytes ++ rest →
        ∃ p', processInlineBuffer p = (p', true) ∧ p'.argv = line.argv ∧
          (p'.querybuf = rest ↔ line.crlf = true ∨ rest = []) := by
  have hi : LineInv run s lines d := by
    refine hr.invariant (P := LineInv run s lines) (fun d n d' hbare hs h => ?_) (.init s lines)
    obtain ⟨d'', hs', hinv⟩ := h.feed hv hbare
    rw [hs] at hs'
    cases hs'
    exact hinv
  obtain ⟨todo, ⟨done, hlines, hstate⟩, hline, hshort, hmore⟩ := hi.progress
  refine ⟨⟨done, todo, hlines, hstate, hline.text, fun hnil => ?_⟩, hline.clean.2, hline.clean.1, hi.alive,
    fun n hbare => ?_, fun n => hi.read_eq, fun line hmem p rest hbuf => ?_⟩
  · have hbuf : d.conn.parser.querybuf = [] := by_contra fun hne => hmore hne hnil
    have htext := hline.text
    rw [hbuf, hnil] at htext
    cases todo with
    | nil => rfl
    | cons line todo =>
        rw [encodeLines_cons] at htext
        obtain ⟨hbytes, -⟩ := List.append_eq_nil_iff.mp htext.symm
        have hlen := line.bytes_length
        rw [hbytes, List.length_nil] at hlen
        split at hlen <;> omega
  · obtain ⟨d', hs, -⟩ := hi.feed hv hbare
    rw [hs]
    rfl
  · refine ⟨_, processInlineBuffer_line (hv line hmem) hbuf, rfl, ?_⟩
    show (if line.crlf then rest else rest.drop 1) = rest ↔ _
    cases line.crlf with
    | true => simp
    | false =>
        cases rest with
        | nil => simp
        | cons b rest =>
            have hlonger : rest ≠ b :: rest := fun h => absurd (congrArg List.length h) (by simp)
            simp [hlonger]

end

/-- Lines that end in either way, with a blank one between them, in pieces that end behind every bare LF, inside a
    line and between CR and LF. -/
theorem inline_requests_pieces :
    ∃ d : Delivery (List (List Bytes)), d.unread = [] ∧
      d.conn.state = [[ascii "get", ascii "k"], [ascii "set", ascii "k", ascii "a b"], [ascii "get", ascii "k"]] := by
  have hv : ∀ line ∈ [InlineLine.mk (ascii "get k") true, ⟨ascii "set k \"a b\" ''", false⟩, ⟨[], false⟩,
      ⟨ascii " get  k", true⟩], ValidLine line := by
    intro line hmem
    simp only [List.mem_cons, List.not_mem_nil, or_false] at hmem
    rcases hmem with rfl | rfl | rfl | rfl <;> exact ⟨by decide, by decide +kernel, by decide +kernel, by decide⟩
  obtain ⟨d, hr, hd⟩ := run_of_exec (Delivery.feed fun done argv => done ++ [argv]) BareRead
    (.lines [] [⟨ascii "get k", true⟩, ⟨ascii "set k \"a b\" ''", false⟩, ⟨[], false⟩, ⟨ascii " get  k", true⟩])
    [6, 5, 11, 1, 8, 1] (fun d => d.unread) [] (by decide +kernel)
  obtain ⟨⟨done, todo, hlines, hstate, -, hall⟩, -⟩ := inline_requests _ _ hv d hr
  refine ⟨d, hd, ?_⟩
  rw [hall hd, List.append_nil] at hlines
  rw [hstate, ← hlines]
  decide +kernel

/-- Two lines that end in LF, in one read: the second loses its first byte. -/
theorem inline_byte_lost :
    ∃ lines : List InlineLine, (∀ line ∈ lines, ValidLine line) ∧
      requestsOf lines = [[ascii "get", ascii "k"], [ascii "get", ascii "k"]] ∧
      ((Delivery.lines [] lines).read (fun done argv => done ++ [argv]) (encodeLines lines).length).map
        (fun d => (d.conn.state, d.unread)) = some ([[ascii "get", ascii "k"], [ascii "et", ascii "k"]], []) := by
  refine ⟨[⟨ascii "get k", false⟩, ⟨ascii "get k", false⟩], ?_, by decide +kernel, by decide +kernel⟩
  intro line hmem
  simp only [List.mem_cons, List.not_mem_nil, or_false, or_self] at hmem
  rw [hmem]
  exact ⟨by decide, by decide +kernel, by decide +kernel, by decide⟩

end Prez
