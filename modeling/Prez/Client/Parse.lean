import Prez.Client.Input
import Prez.Log.Load
import Prez.Lib.Run

/-!
# `Prez.Client.Parse` — request parsing is exact

The requests of a client are encoded one after the other (`encodeRequests`) and arrive in pieces. Between two
reads the parser stands somewhere in that text: at the start of a request, before a length line, or inside
an argument. `Parsing` says which requests are still to come and that what is in the buffer, followed by what
has not been read yet, is the rest of their text; each turn of the parser moves it forward along the text
without changing the requests. `requests_parsed` is the result over all ways of cutting the text into reads.

The limit on the length of a line is tested on the whole buffer, parsed arguments included. It is never
reached, because a buffer that is not inside a large argument stays below 64K (`Fits`).
-/

namespace Prez

open Lib

/-! ## The text of requests -/

/-- A request in the multi-bulk format. -/
def encodeRequest (argv : List Bytes) : Bytes := 42 :: decimal argv.length ++ [13, 10] ++ argv.flatMap bulk

def encodeRequests (reqs : List (List Bytes)) : Bytes := reqs.flatMap encodeRequest

/-- The limits of the protocol on one request. -/
structure ValidRequest (argv : List Bytes) : Prop where
  pos : 1 ≤ argv.length
  count : argv.length ≤ 1024 * 1024
  size : ∀ a ∈ argv, a.length ≤ 512 * 1024 * 1024

/-! ## Lines -/

theorem strchr_none {c : UInt8} {l : Bytes} (h : ∀ b ∈ l, b ≠ c) : strchr c l = none := by
  induction l with
  | nil => rfl
  | cons b l ih =>
    obtain ⟨hb, hl⟩ := List.forall_mem_cons.mp h
    rw [strchr, if_neg hb, ih hl]
    split <;> rfl

theorem strchr_append {c : UInt8} {l : Bytes} (h : ∀ b ∈ l, b ≠ c ∧ b ≠ 0) (r : Bytes) :
    strchr c (l ++ c :: r) = some l.length := by
  induction l with
  | nil => simp [strchr]
  | cons b l ih =>
    obtain ⟨hb, hl⟩ := List.forall_mem_cons.mp h
    rw [List.cons_append, strchr, if_neg hb.1, if_neg hb.2, ih hl]
    rfl

/-- The bytes of a line before its end. -/
theorem line_plain {k : UInt8} (hk : k ≠ 13 ∧ k ≠ 0) (n : Nat) : ∀ b ∈ k :: decimal n, b ≠ 13 ∧ b ≠ 0 := by
  intro b hb
  rcases List.mem_cons.mp hb with rfl | hb
  · exact hk
  · have := isDigit_plain (decimal_isDigit n b hb)
    exact ⟨this.2.2.1, this.1⟩

/-- A buffer that ends inside a text is not all there is. -/
theorem rest_ne_nil {buf rest text tail : Bytes} (h : buf ++ rest = text ++ tail) (hlt : buf.length < text.length) :
    rest ≠ [] := by
  rintro rfl
  have := congrArg List.length h
  rw [List.append_nil, List.length_append] at this
  omega

variable {reqs : List (List Bytes)} {p : Parser} {rest : Bytes} {left : List Bytes} {pos n : Nat}

/-- Looking for the end of a line in a buffer that starts with it. Either the line is not complete, and then it
    is not found or its last byte is missing; or it is found and the rest follows. -/
theorem line_read {k : UInt8} (hk : k ≠ 13 ∧ k ≠ 0) {buf rest tail : Bytes}
    (h : buf ++ rest = (k :: decimal n) ++ ([13, 10] ++ tail)) :
    (buf.length < (decimal n).length + 3 ∧ rest ≠ [] ∧
      (strchr 13 buf = none ∨ ∃ i, strchr 13 buf = some i ∧ (i : Int) > buf.length - 2)) ∨
    ∃ buf', buf = (k :: decimal n) ++ ([13, 10] ++ buf') ∧ buf' ++ rest = tail ∧
      strchr 13 buf = some ((decimal n).length + 1) := by
  have hplain := line_plain hk n
  have hlen : (k :: decimal n).length = (decimal n).length + 1 := rfl
  have hmore : buf.length < (decimal n).length + 3 → rest ≠ [] := by
    intro hlt
    refine rest_ne_nil (h.trans (List.append_assoc _ [13, 10] tail).symm) ?_
    rw [List.length_append, hlen]
    exact hlt
  rcases List.append_eq_append_iff.mp h with ⟨as, hline, -⟩ | ⟨bs, hbuf, hrest⟩
  · -- the buffer ends inside the text of the line
    have hle : buf.length ≤ (decimal n).length + 1 := by
      have := congrArg List.length hline
      rw [List.length_append, hlen] at this
      omega
    refine .inl ⟨by omega, hmore (by omega), .inl (strchr_none fun b hb => ?_)⟩
    exact (hplain b (hline ▸ List.mem_append_left _ hb)).1
  · cases bs with
    | nil =>
      rw [List.append_nil] at hbuf
      have hblen : buf.length = (decimal n).length + 1 := by rw [hbuf, hlen]
      refine .inl ⟨by omega, hmore (by omega), .inl (strchr_none fun b hb => ?_)⟩
      exact (hplain b (hbuf ▸ hb)).1
    | cons b bs =>
      obtain ⟨rfl, hlf⟩ := List.cons.inj hrest
      have hfound : strchr 13 buf = some ((decimal n).length + 1) := by
        rw [hbuf]
        exact strchr_append hplain bs
      cases bs with
      | nil =>
        have hblen : buf.length = (decimal n).length + 2 := by
          rw [hbuf]
          simp
        refine .inl ⟨by omega, hmore (by omega), .inr ⟨_, hfound, ?_⟩⟩
        omega
      | cons b bs =>
        obtain ⟨rfl, htail⟩ := List.cons.inj hlf
        exact .inr ⟨bs, hbuf, htail.symm, hfound⟩

theorem string2ll_decimal (h : n < 2 ^ 63) : string2ll (decimal n) = some (n : Int) := by
  have hnn : ¬ (n : Int) < 0 := by omega
  have htext : llText n = decimal n := by
    rw [llText, if_neg hnn, Int.natAbs_natCast]
  rw [← htext]
  exact string2ll_llText ⟨by omega, by omega⟩

theorem decimal_length_short (h : n < 10 ^ 18) : (decimal n).length ≤ 18 := decimal_length_le (k := 17) h

/-! ## One argument -/

theorem bulk_eq (arg tail : Bytes) :
    bulk arg ++ tail = (36 :: decimal arg.length) ++ ([13, 10] ++ (arg ++ ([13, 10] ++ tail))) := by
  simp [bulk, lengthLine]

/-- The parser behind the length line of `arg`. -/
structure LenRead (p p' : Parser) (pos' : Nat) (arg : Bytes) : Prop where
  eq : p' = { p with bulklen := arg.length, querybuf := p'.querybuf }
  pos_le : pos' ≤ p'.querybuf.length
  length_le : p'.querybuf.length ≤ p.querybuf.length
  big : mbulkBigArg ≤ arg.length → pos' = 0

/-- Reading a length line: it is not complete yet, or the argument is next. -/
theorem readBulkLen_spec {arg rest tail : Bytes} (hb : p.bulklen = -1) (hpos : pos ≤ p.querybuf.length)
    (hlen : p.querybuf.length ≤ inlineMaxSize) (harg : arg.length ≤ 512 * 1024 * 1024)
    (hd : p.querybuf.drop pos ++ rest = bulk arg ++ tail) :
    (readBulkLen p pos = .wait ∧ p.querybuf.length < pos + 32 ∧ rest ≠ []) ∨
    ∃ p' pos', readBulkLen p pos = .known p' pos' ∧ LenRead p p' pos' arg ∧
      p'.querybuf.drop pos' ++ rest = arg ++ ([13, 10] ++ tail) := by
  have hshort := decimal_length_short (n := arg.length) (by omega)
  have hdrop : (p.querybuf.drop pos).length = p.querybuf.length - pos := List.length_drop
  have hlen' : ¬ p.querybuf.length > inlineMaxSize := by omega
  rw [bulk_eq] at hd
  unfold readBulkLen
  simp only [hb, ne_eq, not_true_eq_false, if_false]
  rcases line_read (by decide) hd with ⟨hline, hmore, hfind⟩ | ⟨buf, hbuf, hrest, hfind⟩
  · refine .inl ⟨?_, by omega, hmore⟩
    rcases hfind with hfind | ⟨i, hfind, hgt⟩
    · simp only [hfind, if_neg hlen']
    · simp only [hfind]
      rw [if_pos (by rw [hdrop] at hgt; omega)]
  · right
    have hblen : (p.querybuf.drop pos).length = (decimal arg.length).length + 3 + buf.length := by
      rw [hbuf]
      simp
      omega
    have hhead : p.querybuf[pos]? = some 36 := by
      have := congrArg List.head? hbuf
      rwa [List.head?_drop] at this
    have hnum : (p.querybuf.drop (pos + 1)).take ((decimal arg.length).length + 1 - 1) = decimal arg.length := by
      rw [← List.drop_drop, hbuf]
      simp
    have hbody : p.querybuf.drop (pos + ((decimal arg.length).length + 1) + 2) = buf := by
      rw [show pos + ((decimal arg.length).length + 1) + 2 = pos + ((decimal arg.length).length + 3) by omega,
        ← List.drop_drop, hbuf]
      have : (36 :: decimal arg.length ++ [13, 10]).length = (decimal arg.length).length + 3 := by simp
      rw [← List.append_assoc, List.drop_left' this]
    have hfits : ¬ (pos : Int) + ((decimal arg.length).length + 1 : Nat) > p.querybuf.length - 2 := by omega
    have hrange : ¬ ((arg.length : Int) < 0 ∨ (arg.length : Int) > 512 * 1024 * 1024) := by omega
    simp only [hfind, hhead, hnum, string2ll_decimal (show arg.length < 2 ^ 63 by omega), not_true_eq_false,
      if_neg hfits, if_false, if_neg hrange]
    by_cases hbig : (arg.length : Int) ≥ mbulkBigArg
    · rw [if_pos hbig]
      refine ⟨_, 0, rfl, ⟨rfl, Nat.zero_le _, ?_, fun _ => rfl⟩, ?_⟩
      · simp only [sdsrange_drop, List.length_drop]
        omega
      · simp only [sdsrange_drop, hbody, List.drop_zero, hrest]
    · rw [if_neg hbig]
      refine ⟨_, _, rfl, ⟨rfl, ?_, Nat.le_refl _, fun h => absurd (by omega) hbig⟩, ?_⟩
      · simp only
        omega
      · simp only [hbody, hrest]

/-- Taking an argument that is complete. -/
theorem takeBulk_spec {arg rest tail : Bytes} (todo : Nat) (hb : p.bulklen = arg.length)
    (hpos : pos ≤ p.querybuf.length) (henough : ¬ ((p.querybuf.length - pos : Nat) : Int) < p.bulklen + 2)
    (hd : p.querybuf.drop pos ++ rest = arg ++ ([13, 10] ++ tail)) :
    ∃ buf pos', takeBulk todo p pos =
        ({ p with bulklen := -1, multibulklen := todo, argv := p.argv ++ [arg], querybuf := buf }, pos') ∧
      pos' ≤ buf.length ∧ buf.drop pos' ++ rest = tail ∧
      (buf = p.querybuf ∨ buf = []) ∧ (pos = 0 → mbulkBigArg ≤ arg.length → p.querybuf.length = arg.length + 2 → buf = []) := by
  have hlen : arg.length + 2 ≤ (p.querybuf.drop pos).length := by
    rw [List.length_drop]
    omega
  -- the buffer reaches past the argument
  obtain ⟨buf, hbuf, hrest⟩ : ∃ buf, p.querybuf.drop pos = arg ++ ([13, 10] ++ buf) ∧ buf ++ rest = tail := by
    rw [← List.append_assoc] at hd
    rcases List.append_eq_append_iff.mp hd with ⟨as, harg, hrest⟩ | ⟨bs, hbuf, hrest⟩
    · have hl := congrArg List.length harg
      simp only [List.length_append, List.length_cons, List.length_nil] at hl
      have hnil : as = [] := List.eq_nil_of_length_eq_zero (by omega)
      subst hnil
      rw [List.append_nil] at harg
      exact ⟨[], by rw [← harg]; simp, by simpa using hrest⟩
    · exact ⟨bs, by rw [hbuf, List.append_assoc], hrest.symm⟩
  have hblen : (p.querybuf.drop pos).length = p.querybuf.length - pos := List.length_drop
  have hbufLen := congrArg List.length hbuf
  simp only [List.length_append, List.length_cons, List.length_nil] at hbufLen
  rw [takeBulk]
  split
  · rename_i hjust
    obtain ⟨rfl, hbig, hexact⟩ := hjust
    have hnil : buf = [] := List.eq_nil_of_length_eq_zero (by omega)
    rw [hnil, List.append_nil, List.drop_zero] at hbuf
    refine ⟨[], 0, ?_, Nat.le_refl 0, ?_, .inr rfl, fun _ _ _ => rfl⟩
    · rw [hbuf]
      simp
    · rw [← hrest, hnil]
      rfl
  · rename_i hnot
    have htake : (p.querybuf.drop pos).take p.bulklen.toNat = arg := by
      rw [hbuf, hb, Int.toNat_natCast, List.take_left' rfl]
    have hdrop : p.querybuf.drop (pos + p.bulklen.toNat + 2) = buf := by
      rw [Nat.add_assoc, ← List.drop_drop, hbuf, hb, Int.toNat_natCast, ← List.append_assoc]
      exact List.drop_left' (by simp)
    refine ⟨p.querybuf, pos + p.bulklen.toNat + 2, by rw [htake], ?_, by rw [hdrop, hrest], .inl rfl, ?_⟩
    · rw [hb, Int.toNat_natCast]
      omega
    · intro h0 hbig hexact
      exact absurd ⟨h0, by rw [hb]; omega, by rw [hb]; omega⟩ hnot

/-! ## All arguments -/

/-- What the parser expects in front of the arguments that are missing: a length line, or the argument whose
    length is known. -/
inductive Awaits (p : Parser) : List Bytes → Bytes → Prop where
  | line {left : List Bytes} : p.bulklen = -1 → Awaits p left (left.flatMap bulk)
  | payload {arg : Bytes} {left : List Bytes} : p.bulklen = arg.length →
      Awaits p (arg :: left) (arg ++ ([13, 10] ++ left.flatMap bulk))

/-- The buffer is short, or it holds nothing but a part of a large argument. -/
def Fits (p : Parser) (pos : Nat) : Prop :=
  p.querybuf.length ≤ inlineMaxSize ∨
    (pos = 0 ∧ mbulkBigArg ≤ p.bulklen ∧ (p.querybuf.length : Int) ≤ p.bulklen + 2)

theorem Fits.short (h : Fits p pos) (hb : p.bulklen = -1) : p.querybuf.length ≤ inlineMaxSize := by
  rcases h with hle | ⟨_, hbig, _⟩
  · exact hle
  · rw [hb] at hbig
    exact absurd hbig (by decide)

/-- What is left in the buffer is less than a line, or less than the argument. -/
def Short (p : Parser) (pos : Nat) : Prop :=
  (p.querybuf.length : Int) < pos + if p.bulklen = -1 then 32 else p.bulklen + 2

/-- The fields that only a protocol error or a new request changes. -/
structure SameRequest (p p' : Parser) : Prop where
  reqtype : p'.reqtype = p.reqtype
  closing : p'.closeAfterReply = p.closeAfterReply
  errors : p'.errors = p.errors

/-- The parser at `pos` of its buffer, with the arguments `left` of a request and then `tail` to come. -/
structure InRequest (p : Parser) (pos : Nat) (left : List Bytes) (rest tail : Bytes) : Prop where
  text : ∃ text, Awaits p left text ∧ p.querybuf.drop pos ++ rest = text ++ tail
  count : p.multibulklen = left.length
  pos_le : pos ≤ p.querybuf.length

theorem SameRequest.trans {p q r : Parser} (h : SameRequest p q) (h' : SameRequest q r) : SameRequest p r :=
  ⟨h'.reqtype.trans h.reqtype, h'.closing.trans h.closing, h'.errors.trans h.errors⟩

/-- The loop of `processMultibulkBuffer` on the arguments `left`: it stops at the end of the request, or where
    the buffer does not hold the next line or argument. -/
def Reads (e : BulkEnd) (p : Parser) (left : List Bytes) (rest tail : Bytes) : Prop :=
  ∃ p' pos' left', e = .stop p' pos' ∧ SameRequest p p' ∧ p'.argv ++ left' = p.argv ++ left ∧
    InRequest p' pos' left' rest tail ∧ (left' = [] → p'.bulklen = -1) ∧ (left' ≠ [] → Short p' pos' ∧ rest ≠ [])

/-- A turn of the loop behind a length line. -/
theorem readBulks_payload {arg : Bytes} {rest tail : Bytes} (hb : p.bulklen = arg.length)
    (hcount : p.multibulklen = left.length + 1) (hpos : pos ≤ p.querybuf.length)
    (hd : p.querybuf.drop pos ++ rest = arg ++ ([13, 10] ++ (left.flatMap bulk ++ tail))) (hfits : Fits p pos)
    (hnext : ∀ {q : Parser} {pos : Nat}, q.bulklen = -1 → InRequest q pos left rest tail → Fits q pos →
      Reads (readBulks left.length q pos) q left rest tail) :
    Reads (if ((p.querybuf.length - pos : Nat) : Int) < p.bulklen + 2 then .stop p pos
      else readBulks left.length (takeBulk left.length p pos).1 (takeBulk left.length p pos).2)
      p (arg :: left) rest tail := by
  split
  · rename_i hwait
    refine ⟨p, pos, arg :: left, rfl, ⟨rfl, rfl, rfl⟩, rfl, ⟨⟨_, .payload hb, ?_⟩, hcount, hpos⟩,
      fun h => absurd h (List.cons_ne_nil _ _), fun _ => ?_⟩
    · simpa using hd
    · refine ⟨by rw [Short, if_neg (by omega)]; omega, rest_ne_nil (hd.trans (List.append_assoc _ _ _).symm) ?_⟩
      simp only [List.length_drop, List.length_append, List.length_cons, List.length_nil]
      omega
  · rename_i henough
    obtain ⟨buf, pos', htake, hpos', hrest, hbuf, hjust⟩ := takeBulk_spec left.length hb hpos henough hd
    rw [htake]
    -- a buffer above the limit held the argument alone
    have hshort : buf.length ≤ inlineMaxSize := by
      rcases hfits with hle | ⟨h0, hbig, hle⟩
      · rcases hbuf with rfl | rfl
        · exact hle
        · exact Nat.zero_le _
      · rw [hjust h0 (by omega) (by omega)]
        exact Nat.zero_le _
    have hin : InRequest { p with bulklen := -1, multibulklen := left.length, argv := p.argv ++ [arg], querybuf := buf }
        pos' left rest tail := ⟨⟨_, .line rfl, hrest⟩, rfl, hpos'⟩
    obtain ⟨q, qpos, left', hstop, hsame, hargv, hq, hdone, hstuck⟩ := hnext rfl hin (.inl hshort)
    exact ⟨q, qpos, left', hstop, ⟨hsame.reqtype, hsame.closing, hsame.errors⟩, by simpa using hargv, hq, hdone, hstuck⟩

theorem readBulks_spec {rest tail : Bytes} :
    ∀ (left : List Bytes) {p : Parser} {pos : Nat}, (∀ a ∈ left, a.length ≤ 512 * 1024 * 1024) →
      (left = [] → p.bulklen = -1) → InRequest p pos left rest tail → Fits p pos →
      Reads (readBulks left.length p pos) p left rest tail := by
  intro left
  induction left with
  | nil =>
    intro p pos _ hdone hin _
    exact ⟨p, pos, [], rfl, ⟨rfl, rfl, rfl⟩, rfl, hin, hdone, fun h => absurd rfl h⟩
  | cons arg left ih =>
    intro p pos hsize _ hin hfits
    obtain ⟨harg, hsize⟩ := List.forall_mem_cons.mp hsize
    have hnext := fun {q : Parser} {qpos : Nat} (hq : q.bulklen = -1) => @ih q qpos hsize fun _ => hq
    obtain ⟨⟨text, hawaits, hd⟩, hcount, hpos⟩ := hin
    rw [List.length_cons, readBulks]
    cases hawaits with
    | line hb =>
      have hlen := hfits.short hb
      rw [List.flatMap_cons, List.append_assoc] at hd
      rcases readBulkLen_spec hb hpos hlen harg hd with ⟨hwait, hshort, hmore⟩ | ⟨q, qpos, hknown, hq, hqd⟩
      · rw [hwait]
        refine ⟨p, pos, arg :: left, rfl, ⟨rfl, rfl, rfl⟩, rfl, ⟨⟨_, .line hb, ?_⟩, hcount, hpos⟩,
          fun h => absurd h (List.cons_ne_nil _ _), fun _ => ?_⟩
        · rw [List.flatMap_cons, List.append_assoc, hd]
        · refine ⟨?_, hmore⟩
          rw [Short, if_pos hb]
          omega
      · rw [hknown]
        have hqlen := hq.length_le
        have hqb : q.bulklen = arg.length := by rw [hq.eq]
        have hqcount : q.multibulklen = left.length + 1 := by
          rw [hq.eq]
          exact hcount
        have hqargv : q.argv = p.argv := by rw [hq.eq]
        obtain ⟨p', pos', left', hstop, hsame, hargv, hrest⟩ :=
          readBulks_payload hqb hqcount hq.pos_le hqd (.inl (by omega)) hnext
        refine ⟨p', pos', left', hstop, SameRequest.trans ⟨?_, ?_, ?_⟩ hsame, by rw [hargv, hqargv], hrest⟩ <;>
          rw [hq.eq]
    | payload hb =>
      have hknown : readBulkLen p pos = .known p pos := by
        rw [readBulkLen, if_pos (by omega)]
      rw [hknown]
      exact readBulks_payload hb hcount hpos (by simpa using hd) hfits hnext

/-! ## One turn -/

/-- Where the parser stands between two turns: `reqs` are the requests that are not dispatched yet, and the
    buffer followed by `rest` is what is missing of their text. -/
inductive Parsing (p : Parser) (rest : Bytes) : List (List Bytes) → Prop where
  | idle {reqs : List (List Bytes)} : p.argv = [] → p.multibulklen = 0 → p.bulklen = -1 → p.reqtype ≠ some .inline →
      p.querybuf ++ rest = encodeRequests reqs → Parsing p rest reqs
  | inside {left : List Bytes} {reqs : List (List Bytes)} : left ≠ [] → p.reqtype = some .multibulk →
      InRequest p 0 left rest (encodeRequests reqs) → Parsing p rest ((p.argv ++ left) :: reqs)

/-- No protocol error happened. -/
def Clean (p : Parser) : Prop := p.closeAfterReply = false ∧ p.errors = []

theorem SameRequest.clean {p p' : Parser} (h : SameRequest p p') (hc : Clean p) : Clean p' :=
  ⟨h.closing.trans hc.1, h.errors.trans hc.2⟩

/-- The result of a turn: the next request is in `argv` and behind it is the text of the others, or the text
    goes on in the bytes that are still to be read. -/
def TurnOk (rest : Bytes) (reqs : List (List Bytes)) : Parser × Bool → Prop
  | (p, true) => Clean p ∧ ∃ reqs', reqs = p.argv :: reqs' ∧ p.querybuf ++ rest = encodeRequests reqs'
  | (p, false) => Clean p ∧ Parsing p rest reqs ∧ Short p 0 ∧ rest ≠ []

/-- The end of the request, or of the buffer. -/
theorem finishBulks_spec {e : BulkEnd} (h : Reads e p left rest (encodeRequests reqs)) (hc : Clean p)
    (htype : p.reqtype = some .multibulk) : TurnOk rest ((p.argv ++ left) :: reqs) (finishBulks e) := by
  obtain ⟨p', pos, left', rfl, hsame, hargv, ⟨⟨text, hawaits, hd⟩, hcount, hpos⟩, hdone, hstuck⟩ := h
  have htrim : (if pos ≠ 0 then sdsrange p'.querybuf pos (-1) else p'.querybuf) = p'.querybuf.drop pos := by
    split
    · exact sdsrange_drop _ _
    · rename_i h0
      rw [not_not.mp h0, List.drop_zero]
  have hclean := hsame.clean hc
  rw [finishBulks, htrim]
  cases left' with
  | nil =>
    rw [hcount, List.length_nil]
    refine ⟨hclean, reqs, by rw [← hargv, List.append_nil], ?_⟩
    cases hawaits
    exact hd
  | cons arg left' =>
    have hmore : (p'.multibulklen == 0) = false := by
      rw [hcount]
      rfl
    rw [hmore]
    refine ⟨hclean, ?_, ?_⟩
    · rw [← hargv]
      refine .inside (List.cons_ne_nil _ _) (hsame.reqtype.trans htype) ⟨⟨text, ?_, hd⟩, hcount, Nat.zero_le _⟩
      cases hawaits with
      | line hb => exact .line hb
      | payload hb => exact .payload hb
    · obtain ⟨hshort, hmore⟩ := hstuck (List.cons_ne_nil _ _)
      refine ⟨?_, hmore⟩
      simp only [Short, List.length_drop] at hshort ⊢
      omega

theorem encodeRequests_cons (req : List Bytes) (reqs : List (List Bytes)) :
    encodeRequests (req :: reqs) =
      (42 :: decimal req.length) ++ ([13, 10] ++ (req.flatMap bulk ++ encodeRequests reqs)) := by
  simp [encodeRequests, encodeRequest]

/-- A turn that starts at a request reads its first line, and the arguments when that line is complete. -/
theorem processMultibulkBuffer_idle {req : List Bytes} (hargv : p.argv = []) (hmulti : p.multibulklen = 0)
    (hb : p.bulklen = -1) (htype : p.reqtype = some .multibulk)
    (htext : p.querybuf ++ rest = encodeRequests (req :: reqs)) (hv : ValidRequest req) (hc : Clean p)
    (hlen : p.querybuf.length ≤ inlineMaxSize) :
    ∃ r, processMultibulkBuffer p = some r ∧ TurnOk rest (req :: reqs) r := by
  have hcount := hv.count
  have hpos := hv.pos
  have hshort := decimal_length_short (n := req.length) (by omega)
  have hlen' : ¬ p.querybuf.length > inlineMaxSize := by omega
  unfold processMultibulkBuffer
  rw [if_neg (not_not.mpr hmulti), if_neg (not_not.mpr hargv)]
  have hline := htext
  rw [encodeRequests_cons] at hline
  rcases line_read (by decide) hline with ⟨hwait, hmore, hfind⟩ | ⟨buf, hbuf, hrest, hfind⟩
  · have hok : TurnOk rest (req :: reqs) (p, false) := by
      refine ⟨hc, .idle hargv hmulti hb (by rw [htype]; decide) htext, ?_, hmore⟩
      rw [Short, if_pos hb]
      omega
    rcases hfind with hfind | ⟨i, hfind, hgt⟩
    · simp only [hfind, if_neg hlen']
      exact ⟨_, rfl, hok⟩
    · simp only [hfind, if_pos hgt]
      exact ⟨_, rfl, hok⟩
  · have hblen : p.querybuf.length = (decimal req.length).length + 3 + buf.length := by
      rw [hbuf]
      simp
      omega
    have hhead : p.querybuf.head? = some 42 := by rw [hbuf]; rfl
    have hnum : (p.querybuf.drop 1).take ((decimal req.length).length + 1 - 1) = decimal req.length := by
      rw [hbuf]
      simp
    have hbody : p.querybuf.drop ((decimal req.length).length + 1 + 2) = buf := by
      have : (42 :: decimal req.length ++ [13, 10]).length = (decimal req.length).length + 1 + 2 := by simp
      rw [hbuf, ← List.append_assoc, List.drop_left' this]
    have hfits : ¬ ((((decimal req.length).length + 1 : Nat)) : Int) > p.querybuf.length - 2 := by omega
    have hsmall : ¬ (req.length : Int) > 1024 * 1024 := by omega
    have hnonzero : ¬ (req.length : Int) ≤ 0 := by omega
    simp only [hfind, hhead, hnum, string2ll_decimal (show req.length < 2 ^ 63 by omega), not_true_eq_false,
      if_neg hfits, ne_eq, if_false, if_neg hsmall, if_neg hnonzero, Int.toNat_natCast]
    refine ⟨_, rfl, ?_⟩
    have hin : InRequest { p with multibulklen := req.length } ((decimal req.length).length + 1 + 2) req rest
        (encodeRequests reqs) := by
      refine ⟨⟨_, .line hb, ?_⟩, rfl, by simp only; omega⟩
      simp only [hbody, hrest]
    have hreads := readBulks_spec (p := { p with multibulklen := req.length }) req hv.size (fun _ => hb) hin (.inl hlen)
    simpa [hargv] using finishBulks_spec hreads hc htype

/-- A turn that goes on with a request. -/
theorem processMultibulkBuffer_inside (hleft : left ≠ []) (htype : p.reqtype = some .multibulk)
    (hin : InRequest p 0 left rest (encodeRequests reqs)) (hsize : ∀ a ∈ left, a.length ≤ 512 * 1024 * 1024)
    (hc : Clean p) (hfits : Fits p 0) :
    ∃ r, processMultibulkBuffer p = some r ∧ TurnOk rest ((p.argv ++ left) :: reqs) r := by
  have hcount : p.multibulklen ≠ 0 := by
    rw [hin.count]
    exact fun h => hleft (List.eq_nil_of_length_eq_zero h)
  rw [processMultibulkBuffer, if_pos hcount, hin.count]
  exact ⟨_, rfl, finishBulks_spec (readBulks_spec left hsize (fun h => absurd h hleft) hin hfits) hc htype⟩

/-- One turn of the parser. -/
theorem parseTurn_spec (h : Parsing p rest reqs) (hv : ∀ req ∈ reqs, ValidRequest req) (hc : Clean p)
    (hfits : Fits p 0) (hne : p.querybuf ≠ []) : ∃ r, parseTurn p = some r ∧ TurnOk rest reqs r := by
  rw [parseTurn, if_neg (by rw [hc.1]; decide)]
  cases h with
  | idle hargv hmulti hb htype htext =>
    cases reqs with
    | nil => exact absurd (List.append_eq_nil_iff.mp htext).1 hne
    | cons req reqs =>
      have hreq := hv req (List.mem_cons_self ..)
      have hlen := hfits.short hb
      cases htype' : p.reqtype with
      | some t =>
        cases t with
        | inline => exact absurd htype' htype
        | multibulk => exact processMultibulkBuffer_idle hargv hmulti hb htype' htext hreq hc hlen
      | none =>
        have hstar : p.querybuf.head? = some 42 := by
          obtain ⟨b, buf, hbuf⟩ := List.exists_cons_of_ne_nil hne
          rw [hbuf, encodeRequests_cons] at htext
          rw [hbuf, (List.cons.inj htext).1]
          rfl
        simp only [hstar, if_true]
        exact processMultibulkBuffer_idle hargv hmulti hb rfl htext hreq hc hlen
  | inside hleft htype hin =>
    simp only [htype]
    have hreq := hv _ (List.mem_cons_self ..)
    exact processMultibulkBuffer_inside hleft htype hin
      (fun a ha => hreq.size a (List.mem_append_right _ ha)) hc hfits

/-- A dispatched request takes bytes away, and a large argument all of the buffer. -/
theorem Parsing.shorter {buf rest : Bytes} {req : List Bytes} (h : Parsing p rest (req :: reqs)) (hfits : Fits p 0)
    (hbuf : buf ++ rest = encodeRequests reqs) : buf.length < p.querybuf.length ∧ buf.length ≤ inlineMaxSize := by
  have hlen := congrArg List.length hbuf
  rw [List.length_append] at hlen
  cases h with
  | idle hargv hmulti hb htype htext =>
    have hshort := hfits.short hb
    have htlen := congrArg List.length htext
    simp only [encodeRequests_cons, List.length_append, List.length_cons] at htlen
    omega
  | @inside left _ hleft htype hin =>
    obtain ⟨⟨text, hawaits, hd⟩, -, -⟩ := hin
    have htlen := congrArg List.length hd
    rw [List.drop_zero, List.length_append, List.length_append] at htlen
    cases hawaits with
    | line hb =>
      have hshort := hfits.short hb
      obtain ⟨arg, left, rfl⟩ := List.exists_cons_of_ne_nil hleft
      simp only [List.flatMap_cons, bulk_eq, List.length_append, List.length_cons] at htlen
      omega
    | payload hb =>
      simp only [List.length_append, List.length_cons, List.length_nil] at htlen
      rcases hfits with hle | ⟨-, -, hle⟩ <;> omega

/-! ## One read -/

section

variable {σ : Type} (run : σ → List Bytes → σ)

/-- A `processCommand` that returns `PREZ_OK` every time. -/
def executes (s : σ) (argv : List Bytes) : Option (σ × Bool) := some (run s argv, true)

/-- Between two reads, `s` having become `s'`: the requests `todo` are left of `reqs`, and there is no whole one
    in the buffer. -/
structure Progress (s s' : σ) (p : Parser) (rest : Bytes) (reqs todo : List (List Bytes)) : Prop where
  dispatched : ∃ done, reqs = done ++ todo ∧ s' = done.foldl run s
  clean : Clean p
  parsing : Parsing p rest todo
  short : Short p 0
  more : p.querybuf ≠ [] → rest ≠ []

variable {reqs : List (List Bytes)} {p : Parser} {rest : Bytes}

theorem Parsing.bulklen_range (h : Parsing p rest reqs) (hv : ∀ req ∈ reqs, ValidRequest req) :
    -1 ≤ p.bulklen ∧ p.bulklen ≤ 512 * 1024 * 1024 := by
  cases h with
  | idle _ _ hb => omega
  | inside _ _ hin =>
    obtain ⟨⟨text, hawaits, -⟩, -, -⟩ := hin
    cases hawaits with
    | line hb => omega
    | @payload arg left hb =>
      have hsize := (hv _ (List.mem_cons_self ..)).size arg (by simp)
      omega

/-- The loop over the requests. A turn that dispatches a request leaves a shorter buffer, so the bound on the
    number of turns is not reached. -/
theorem processInputBuffer_spec :
    ∀ (fuel : Nat) {s : σ} {p : Parser} {reqs : List (List Bytes)}, p.querybuf.length < fuel →
      (∀ req ∈ reqs, ValidRequest req) → Parsing p rest reqs → Clean p → Fits p 0 →
      ∃ s' p' todo, processInputBuffer (executes run) fuel s p = some (s', p') ∧ Progress run s s' p' rest reqs todo := by
  intro fuel
  induction fuel with
  | zero => exact fun h => absurd h (Nat.not_lt_zero _)
  | succ fuel ih =>
    intro s p reqs hfuel hv hp hc hfits
    rw [processInputBuffer]
    split
    · rename_i hnil
      refine ⟨s, p, reqs, rfl, ⟨[], rfl, rfl⟩, hc, hp, ?_, fun h => absurd hnil h⟩
      have := hp.bulklen_range hv
      rw [Short, hnil]
      split <;> simp only [List.length_nil] <;> omega
    · rename_i hne
      obtain ⟨⟨q, ok⟩, hturn, hok⟩ := parseTurn_spec hp hv hc hfits hne
      rw [hturn, Option.bind_some]
      cases ok with
      | false =>
        obtain ⟨hq, hparsing, hshort, hmore⟩ := hok
        exact ⟨s, q, reqs, rfl, ⟨[], rfl, rfl⟩, hq, hparsing, hshort, fun _ => hmore⟩
      | true =>
        obtain ⟨hq, reqs', rfl, hrest⟩ := hok
        obtain ⟨hreq, hv'⟩ := List.forall_mem_cons.mp hv
        obtain ⟨hless, hshort⟩ := hp.shorter hfits hrest
        have hargs : q.argv ≠ [] := by
          intro h
          have := hreq.pos
          rw [h] at this
          exact absurd this (by decide)
        have hnext : Parsing q.reset rest reqs' := .idle rfl rfl rfl nofun hrest
        obtain ⟨s', p', todo, hrun, hprogress⟩ :=
          ih (s := run s q.argv) (p := q.reset) (show q.querybuf.length < fuel by omega) hv' hnext hq (.inl hshort)
        obtain ⟨done, hdone, hfold⟩ := hprogress.dispatched
        simp only [Bool.not_true, Bool.false_eq_true, if_false, if_neg hargs, executes, Option.bind_some, if_true]
        refine ⟨s', p', todo, hrun, { hprogress with dispatched := ⟨q.argv :: done, ?_, hfold⟩ }⟩
        rw [hdone, List.cons_append]

/-- Bytes that are read move from `rest` to the buffer. -/
theorem Parsing.append (chunk rest : Bytes) (h : Parsing p (chunk ++ rest) reqs) :
    Parsing { p with querybuf := p.querybuf ++ chunk } rest reqs := by
  cases h with
  | idle hargv hmulti hb htype htext => exact .idle hargv hmulti hb htype (by rw [List.append_assoc, htext])
  | inside hleft htype hin =>
    obtain ⟨⟨text, hawaits, hd⟩, hcount, -⟩ := hin
    refine .inside hleft htype ⟨⟨text, ?_, ?_⟩, hcount, Nat.zero_le _⟩
    · cases hawaits with
      | line hb => exact .line hb
      | payload hb => exact .payload hb
    · rw [List.drop_zero, List.append_assoc, ← hd, List.drop_zero]

/-- The number of bytes asked for: inside a large argument at most the rest of it, otherwise 16K. -/
theorem Parsing.readLen_cases (h : Parsing p rest reqs) (hv : ∀ req ∈ reqs, ValidRequest req) (hshort : Short p 0) :
    (p.bulklen < mbulkBigArg ∧ readLen p = iobufLen) ∨
      (mbulkBigArg ≤ p.bulklen ∧ readLen p = min (p.bulklen + 2 - p.querybuf.length) iobufLen) := by
  have hrange := h.bulklen_range hv
  rcases lt_or_ge p.bulklen mbulkBigArg with hsmall | hbig
  · left
    refine ⟨hsmall, ?_⟩
    rw [readLen, if_neg fun hall => absurd hall.2.2.2 (by omega)]
  · right
    have hne : p.bulklen ≠ -1 := by
      rintro heq
      rw [heq] at hbig
      exact absurd hbig (by decide)
    rw [Short, if_neg hne] at hshort
    refine ⟨hbig, ?_⟩
    have hin : p.reqtype = some .multibulk ∧ p.multibulklen ≠ 0 := by
      cases h with
      | idle _ _ hb => exact absurd hb hne
      | inside hleft htype hin =>
        refine ⟨htype, ?_⟩
        rw [hin.count]
        exact fun h0 => hleft (List.eq_nil_of_length_eq_zero h0)
    have hint : toInt32 (p.bulklen + 2 - p.querybuf.length) = p.bulklen + 2 - p.querybuf.length := by
      simp only [toInt32]
      omega
    rw [readLen, if_pos ⟨hin.1, hin.2, hne, hbig⟩, hint]

theorem Parsing.readLen_pos (h : Parsing p rest reqs) (hv : ∀ req ∈ reqs, ValidRequest req) (hshort : Short p 0) :
    1 ≤ readLen p := by
  rcases h.readLen_cases hv hshort with ⟨-, hlen⟩ | ⟨hbig, hlen⟩
  · rw [hlen]
    decide
  · have hne : p.bulklen ≠ -1 := by
      simp only [mbulkBigArg] at hbig
      omega
    rw [Short, if_neg hne] at hshort
    rw [hlen]
    simp only [iobufLen]
    omega

/-- The buffer after a read. -/
theorem Parsing.fits_append (h : Parsing p rest reqs) (chunk : Bytes) (hv : ∀ req ∈ reqs, ValidRequest req)
    (hshort : Short p 0) (hle : (chunk.length : Int) ≤ readLen p) :
    Fits { p with querybuf := p.querybuf ++ chunk } 0 ∧ p.querybuf.length + chunk.length ≤ maxQuerybufLen := by
  have hrange := h.bulklen_range hv
  have hcases := h.readLen_cases hv hshort
  simp only [Short] at hshort
  simp only [Fits, List.length_append]
  simp only [mbulkBigArg, inlineMaxSize, iobufLen, maxQuerybufLen] at hcases ⊢
  rcases hcases with ⟨hsmall, hlen⟩ | ⟨hbig, hlen⟩
  · split at hshort <;> exact ⟨.inl (by omega), by omega⟩
  · rw [if_neg (by omega)] at hshort
    exact ⟨.inr ⟨trivial, hbig, by omega⟩, by omega⟩

/-! ## All reads -/

/-- A connection and what its peer has sent that is not read yet. -/
structure Delivery (σ : Type) where
  conn : Conn σ
  unread : Bytes

/-- `read` returns the next `nread` bytes. -/
def Delivery.read (d : Delivery σ) (nread : Nat) : Option (Delivery σ) :=
  if nread ≤ d.unread.length then
    (readQueryFromClient (executes run) d.conn (d.unread.take nread)).map fun conn => ⟨conn, d.unread.drop nread⟩
  else none

/-- The start: a new client to which the requests were sent. -/
def Delivery.init (s : σ) (reqs : List (List Bytes)) : Delivery σ := ⟨⟨s, .new, false⟩, encodeRequests reqs⟩

/-- What holds between reads. -/
structure DeliveryInv (s : σ) (reqs : List (List Bytes)) (d : Delivery σ) : Prop where
  alive : d.conn.freed = false
  progress : ∃ todo, Progress run s d.conn.state d.conn.parser d.unread reqs todo

variable {run}

theorem DeliveryInv.init (s : σ) (reqs : List (List Bytes)) : DeliveryInv run s reqs (.init s reqs) :=
  ⟨rfl, reqs, ⟨[], rfl, rfl⟩, ⟨rfl, rfl⟩, .idle rfl rfl rfl nofun rfl, by simp [Short, Delivery.init, Parser.new], fun h => absurd rfl h⟩

/-- Every read of at most the bytes asked for is possible, and keeps the invariant. -/
theorem DeliveryInv.read {s : σ} {d : Delivery σ} (h : DeliveryInv run s reqs d) (hv : ∀ req ∈ reqs, ValidRequest req)
    {nread : Nat} (h1 : 1 ≤ nread) (hlen : nread ≤ readLen d.conn.parser) (hmore : nread ≤ d.unread.length) :
    ∃ d', d.read run nread = some d' ∧ DeliveryInv run s reqs d' := by
  obtain ⟨halive, todo, ⟨done, hreqs, hstate⟩, hclean, hparsing, hshort, -⟩ := h
  have hv' : ∀ req ∈ todo, ValidRequest req := fun req hreq => hv req (hreqs ▸ List.mem_append_right _ hreq)
  have hchunk : (d.unread.take nread).length = nread := by rw [List.length_take, Nat.min_eq_left hmore]
  obtain ⟨hfits, hmax⟩ := hparsing.fits_append (d.unread.take nread) hv' hshort (by rw [hchunk]; exact hlen)
  have hguard : ¬ (d.unread.take nread = [] ∨ readLen d.conn.parser < (d.unread.take nread).length) := by
    rw [hchunk]
    rintro (hnil | hlt)
    · rw [hnil, List.length_nil] at hchunk
      omega
    · omega
  have hnext := Parsing.append (p := d.conn.parser) (d.unread.take nread) (d.unread.drop nread)
    (by rw [List.take_append_drop]; exact hparsing)
  obtain ⟨s', p', todo', hrun, hprogress⟩ :=
    processInputBuffer_spec run _ (Nat.lt_succ_self _) (s := d.conn.state) hv' hnext hclean hfits
  obtain ⟨done', hdone', hfold⟩ := hprogress.dispatched
  have hquery : readQueryFromClient (executes run) d.conn (d.unread.take nread) =
      some { d.conn with state := s', parser := p' } := by
    rw [readQueryFromClient, if_neg hguard, if_neg (by rw [List.length_append]; omega), hrun, Option.map_some]
  refine ⟨⟨{ d.conn with state := s', parser := p' }, d.unread.drop nread⟩, ?_, halive, todo', ?_⟩
  · rw [Delivery.read, if_pos hmore, hquery, Option.map_some]
  · refine { hprogress with dispatched := ⟨done ++ done', ?_, ?_⟩ }
    · rw [hreqs, hdone', List.append_assoc]
    · rw [List.foldl_append, ← hstate, hfold]

theorem DeliveryInv.step {s : σ} {d d' : Delivery σ} (h : DeliveryInv run s reqs d)
    (hv : ∀ req ∈ reqs, ValidRequest req) {nread : Nat} (hs : d.read run nread = some d') :
    DeliveryInv run s reqs d' := by
  have hs' := hs
  rw [Delivery.read] at hs'
  split at hs'
  case isFalse => cases hs'
  case isTrue hmore =>
  obtain ⟨conn, hconn, -⟩ := Option.map_eq_some_iff.mp hs'
  rw [readQueryFromClient] at hconn
  split at hconn
  · cases hconn
  · rename_i hguard
    have hchunk : (d.unread.take nread).length = nread := by rw [List.length_take, Nat.min_eq_left hmore]
    rw [hchunk, not_or, ← List.length_eq_zero_iff, hchunk] at hguard
    obtain ⟨d'', hs'', hinv⟩ := h.read hv (show 1 ≤ nread by omega) (by omega) hmore
    rw [hs] at hs''
    cases hs''
    exact hinv

/-- No request is left when there is no byte left. -/
theorem Parsing.done (h : Parsing p [] reqs) (hnil : p.querybuf = []) : reqs = [] := by
  cases reqs with
  | nil => rfl
  | cons req reqs =>
    have hfits : Fits p 0 := .inl (by rw [hnil]; exact Nat.zero_le _)
    obtain ⟨buf, hbuf⟩ : ∃ buf, buf ++ [] = encodeRequests reqs := ⟨_, List.append_nil _⟩
    have := (h.shorter hfits hbuf).1
    rw [hnil] at this
    exact absurd this (Nat.not_lt_zero _)

/-- The argument that is taken without a copy is the one the other branch would copy, and the same text is left. -/
theorem takeBulk_copies (todo : Nat) (pos : Nat) (hb : 0 ≤ p.bulklen) :
    (takeBulk todo p pos).1.argv = p.argv ++ [(p.querybuf.drop pos).take p.bulklen.toNat] ∧
      (takeBulk todo p pos).1.querybuf.drop (takeBulk todo p pos).2 =
        p.querybuf.drop (pos + p.bulklen.toNat + 2) := by
  rw [takeBulk]
  split
  · rename_i hjust
    obtain ⟨rfl, -, hlen⟩ := hjust
    have htake : p.querybuf.length - 2 = p.bulklen.toNat := by omega
    refine ⟨by rw [List.drop_zero, ← htake], ?_⟩
    rw [List.drop_eq_nil_of_le (show p.querybuf.length ≤ 0 + p.bulklen.toNat + 2 by omega)]
    rfl
  · exact ⟨rfl, rfl⟩

/-- **Requests are parsed exactly.** A client sends requests in the multi-bulk format, and the bytes are read in
    pieces of any length up to what is asked for. If every command returns `PREZ_OK`, then after every read the
    commands dispatched are the first of the requests, in order, and all of them when every byte has been
    read. There is no protocol error, and the next read asks for one byte at least and is carried out whatever
    it returns. An argument taken without a copy is the one that would have been copied. -/
theorem requests_parsed (s : σ) (reqs : List (List Bytes)) (hv : ∀ req ∈ reqs, ValidRequest req) (d : Delivery σ)
    (hr : RunBy (Delivery.read run) (fun _ _ => True) (.init s reqs) d) :
    (∃ done todo, reqs = done ++ todo ∧ d.conn.state = done.foldl run s ∧ (d.unread = [] → todo = [])) ∧
      d.conn.parser.errors = [] ∧ d.conn.parser.closeAfterReply = false ∧ d.conn.freed = false ∧
      1 ≤ readLen d.conn.parser ∧
      (∀ k : Nat, 1 ≤ k → k ≤ readLen d.conn.parser → k ≤ d.unread.length → (d.read run k).isSome = true) ∧
      ∀ (todo : Nat) (p : Parser) (pos : Nat), 0 ≤ p.bulklen →
        (takeBulk todo p pos).1.argv = p.argv ++ [(p.querybuf.drop pos).take p.bulklen.toNat] ∧
          (takeBulk todo p pos).1.querybuf.drop (takeBulk todo p pos).2 =
            p.querybuf.drop (pos + p.bulklen.toNat + 2) := by
  have hi : DeliveryInv run s reqs d :=
    hr.invariant (P := DeliveryInv run s reqs) (fun _ _ _ _ hs h => h.step hv hs) (.init s reqs)
  obtain ⟨todo, ⟨done, hreqs, hstate⟩, hclean, hparsing, hshort, hmore⟩ := hi.progress
  have hv' : ∀ req ∈ todo, ValidRequest req := fun req hreq => hv req (hreqs ▸ List.mem_append_right _ hreq)
  refine ⟨⟨done, todo, hreqs, hstate, fun hnil => ?_⟩, hclean.2, hclean.1, hi.alive, hparsing.readLen_pos hv' hshort,
    fun k h1 hlen hk => ?_, fun todo p pos hb => takeBulk_copies todo pos hb⟩
  · rw [hnil] at hparsing hmore
    exact hparsing.done (by_contra fun hne => hmore hne rfl)
  · obtain ⟨d', hs, -⟩ := hi.read hv h1 hlen hk
    rw [hs]
    rfl

end

/-- Two requests, the second with an empty argument, read in pieces that end inside every part of a request. -/
theorem requests_parsed_pieces :
    ∃ d : Delivery (List (List Bytes)), d.unread = [] ∧
      d.conn.state = [[ascii "get", ascii "k"], [ascii "set", ascii "k", []]] := by
  have hv : ∀ req ∈ [[ascii "get", ascii "k"], [ascii "set", ascii "k", []]], ValidRequest req := by
    intro req hreq
    simp only [List.mem_cons, List.not_mem_nil, or_false] at hreq
    rcases hreq with rfl | rfl <;> exact ⟨by decide, by decide, by decide⟩
  obtain ⟨d, hr, hd⟩ := run_of_exec (Delivery.read fun done argv => done ++ [argv]) (fun _ _ => True)
    (.init [] [[ascii "get", ascii "k"], [ascii "set", ascii "k", []]])
    [1, 2, 1, 3, 2, 2, 4, 12, 19] (fun d => d.unread) [] (by decide +kernel)
  obtain ⟨⟨done, todo, hreqs, hstate, hall⟩, -⟩ := requests_parsed _ _ hv d hr
  refine ⟨d, hd, ?_⟩
  rw [hall hd, List.append_nil] at hreqs
  rw [hstate, ← hreqs]
  rfl

end Prez
