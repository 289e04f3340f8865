import Prez.Log.Recovery
import Prez.Numeral

/-!
# `Prez.Log.Parse` — the offline parser of the log file

`log_parse.py` reads the whole file into a string and walks it with `find`, slices and `int`. Positions are integers: a slice
counts a negative bound from the end, and `find` returns -1. An exception is `none`. `parse_log` has no bound on its turns, and
a file whose first byte is not `*` is looked at forever, so the model takes a number of turns and says whether it is done.

The parser prints the four texts of every record, whatever they are (`parseLog_records`). The server reads two of them with
`string2ll` and the other two as C strings. `log_parser_agrees` says that both show the same where the server can read the
texts as they stand.
-/

namespace Prez

open Lib

/-! ## Strings -/

/-- A bound of a slice, or the start of a search. -/
def pyBound (content : Bytes) (i : Int) : Nat := if i < 0 then (content.length + i).toNat else i.toNat

/-- `content[a:b]`. -/
def pySlice (content : Bytes) (a b : Int) : Bytes := (content.take (pyBound content b)).drop (pyBound content a)

/-- The first CRLF. -/
def findCRLF : Bytes → Option Nat
  | [] => none
  | c :: rest => if c = 13 ∧ rest.head? = some 10 then some 0 else (findCRLF rest).map (· + 1)

/-- `content.find(CRLF, start)`. -/
def pyFind (content : Bytes) (start : Int) : Int :=
  match findCRLF (content.drop (pyBound content start)) with
  | none => -1
  | some k => (pyBound content start : Int) + k

/-- `int(s)`: blanks, an optional sign, digits, blanks; `none` is `ValueError`. -/
def pyInt (s : Bytes) : Option Int :=
  let s := s.dropWhile isSpace
  let t := if s.head? = some 43 ∨ s.head? = some 45 then s.tail else s
  let t := t.dropWhile isSpace
  let digits := t.takeWhile isDigit
  if digits = [] ∨ (t.dropWhile isDigit).dropWhile isSpace ≠ [] then none
  else if s.head? = some 45 then some (-(digitsValue 0 digits : Int)) else some (digitsValue 0 digits)

/-! ## The parser -/

/-- What `parse_bulk_string` returns: `None`, a string, or a string (or `None`) with a position. -/
inductive Bulk where
  | none
  | text (data : Bytes)
  | pair (string : Option Bytes) (length : Int)

/-- `parse_bulk_string(content, start)`. -/
def parseBulkString (content : Bytes) (start : Int) : Option Bulk := do
  let idx := pyFind content start
  let idx := if idx = -1 then start else idx
  let length ← pyInt (pySlice content (start + 1) idx)
  if length = -1 then
    if idx + 2 = content.length then some .none else some (.pair none idx)
  else
    let data := pySlice content (idx + 2) (idx + 2 + length)
    if start = 0 then some (.text data) else some (.pair (some data) (idx + 2 + length))

/-- `for i in range(count)`. Anything but a pair cannot be unpacked. -/
def parseArraysLoop (content : Bytes) : Nat → Int → List (Option Bytes) → Option (List (Option Bytes) × Int)
  | 0, start, array => some (array, start)
  | count + 1, start, array =>
    match parseBulkString content start with
    | some (.pair string length) => parseArraysLoop content count (length + 2) (array ++ [string])
    | _ => none

/-- `entry`; a field is a string or `None`. -/
structure ParsedEntry where
  idx : Option Bytes
  term : Option Bytes
  cmdname : Option Bytes
  cmd : Option Bytes
deriving DecidableEq

/-- `entry(*array)` takes exactly four arguments. -/
def ParsedEntry.ofArray : List (Option Bytes) → Option ParsedEntry
  | [idx, term, cmdname, cmd] => some ⟨idx, term, cmdname, cmd⟩
  | _ => none

/-- `parse_arrays(content)`. -/
def parseArrays (content : Bytes) : Option (ParsedEntry × Int) := do
  let idx := pyFind content 0
  let count ← pyInt (pySlice content 1 idx)
  let (array, start) ← parseArraysLoop content count.toNat (idx + 2) []
  let logentry ← ParsedEntry.ofArray array
  some (logentry, start)

/-- How a run of the parser ends. -/
inductive ParseEnd where
  | returned
  | raised
  | running
deriving DecidableEq

/-- `parse_log(content)`, for a number of turns: what is printed, and how it ends. -/
def parseLog : (turns : Nat) → Bytes → List ParsedEntry × ParseEnd
  | 0, _ => ([], .running)
  | turns + 1, content =>
    if pyFind content 0 = -1 then ([], .returned)
    else if content.head? = some 42 then
      match parseArrays content with
      | none => ([], .raised)
      | some (logentry, length) =>
        let (printed, fin) := parseLog turns (content.drop (pyBound content length))
        (logentry :: printed, fin)
    else parseLog turns content

/-! ## A line, a bulk string, a record -/

theorem pyBound_natCast (content : Bytes) (k : Nat) : pyBound content k = k := by
  rw [pyBound, if_neg (by omega), Int.toNat_natCast]

theorem findCRLF_line {line : Bytes} (h : (13 : UInt8) ∉ line) (rest : Bytes) :
    findCRLF (line ++ ([13, 10] ++ rest)) = some line.length := by
  induction line with
  | nil => rfl
  | cons c line ih =>
    have hc : c ≠ 13 := fun heq => h (heq ▸ List.mem_cons_self)
    rw [List.cons_append, findCRLF, if_neg fun hand => hc hand.1, ih fun hmem => h (List.mem_cons_of_mem _ hmem)]
    rfl

/-- The end of the line that starts behind `pre`. -/
theorem pyFind_line (pre : Bytes) {line : Bytes} (h : (13 : UInt8) ∉ line) (rest : Bytes) :
    pyFind (pre ++ (line ++ ([13, 10] ++ rest))) pre.length = ((pre.length + line.length : Nat) : Int) := by
  rw [pyFind, pyBound_natCast, List.drop_left, findCRLF_line h]
  rfl

theorem pySlice_middle (pre data rest : Bytes) :
    pySlice (pre ++ (data ++ rest)) pre.length ((pre.length + data.length : Nat) : Int) = data := by
  rw [pySlice, pyBound_natCast, pyBound_natCast, ← List.append_assoc, List.take_left' (List.length_append ..), List.drop_left]

theorem pyInt_decimal (n : Nat) : pyInt (decimal n) = some (n : Int) := by
  have hdigits := decimal_isDigit n
  obtain ⟨c, b, hcb⟩ : ∃ c b, decimal n = c :: b := List.exists_cons_of_ne_nil (decimal_ne_nil n)
  have hc : isDigit c = true := hdigits c (hcb ▸ List.mem_cons_self)
  have hrange := (isDigit_iff c).mp hc
  have h43 : c ≠ 43 := fun heq => by subst heq; revert hrange; decide
  have h45 : c ≠ 45 := fun heq => by subst heq; revert hrange; decide
  have hhead : (decimal n).head? = some c := by rw [hcb]; rfl
  have hspace : (decimal n).dropWhile isSpace = decimal n := by
    rw [hcb]
    exact List.dropWhile_cons_of_neg (by rw [(isDigit_plain hc).2.2.2]; exact Bool.false_ne_true)
  have htake : (decimal n).takeWhile isDigit = decimal n := List.takeWhile_eq_self_iff.mpr hdigits
  have hdrop : (decimal n).dropWhile isDigit = [] := List.dropWhile_eq_nil_iff.mpr hdigits
  have hsign : ¬ (some c = some (43 : UInt8) ∨ some c = some 45) := by
    rintro (heq | heq)
    · exact h43 (Option.some.inj heq)
    · exact h45 (Option.some.inj heq)
  rw [pyInt, hspace, hhead, if_neg hsign, hspace, htake, hdrop, if_neg, if_neg fun heq => h45 (Option.some.inj heq),
    digitsValue_numeral]
  rintro (hnil | hrest)
  · exact decimal_ne_nil n hnil
  · exact hrest rfl

theorem cr_notMem_lengthLine (n : Nat) : (13 : UInt8) ∉ 36 :: decimal n := by
  intro hmem
  rcases List.mem_cons.mp hmem with heq | hmem
  · revert heq
    decide
  · exact (isDigit_plain (decimal_isDigit n 13 hmem)).2.2.1 rfl

/-- **A bulk string** behind something is read whole, whatever its bytes are. -/
theorem parseBulkString_bulk {pre : Bytes} (hpre : pre ≠ []) (o rest : Bytes) :
    parseBulkString (pre ++ (bulk o ++ rest)) pre.length =
      some (.pair (some o) (((pre ++ lengthLine o.length).length + o.length : Nat) : Int)) := by
  have hpos : 0 < pre.length := List.length_pos_iff.mpr hpre
  -- the file around the length line, around the number on it, and around the payload
  have hline : pre ++ (bulk o ++ rest) = pre ++ ((36 :: decimal o.length) ++ ([13, 10] ++ (o ++ ([13, 10] ++ rest)))) := by
    simp [bulk, lengthLine]
  have hnumber : pre ++ (bulk o ++ rest) =
      (pre ++ [36]) ++ (decimal o.length ++ ([13, 10] ++ (o ++ ([13, 10] ++ rest)))) := by
    simp [bulk, lengthLine]
  have hpayload : pre ++ (bulk o ++ rest) = (pre ++ lengthLine o.length) ++ (o ++ ([13, 10] ++ rest)) := by
    simp [bulk]
  have hidx : pyFind (pre ++ (bulk o ++ rest)) pre.length = (((pre ++ [36]).length + (decimal o.length).length : Nat) : Int) := by
    rw [hline, pyFind_line pre (cr_notMem_lengthLine o.length), List.length_cons, List.length_append]
    exact congrArg Nat.cast (by simp; omega)
  have hlength : pySlice (pre ++ (bulk o ++ rest)) (pre.length + 1)
      (((pre ++ [36]).length + (decimal o.length).length : Nat) : Int) = decimal o.length := by
    have hstart : (pre.length + 1 : Int) = ((pre ++ [36]).length : Int) := by rw [List.length_append]; rfl
    rw [hstart, hnumber]
    exact pySlice_middle _ _ _
  have hnext : ((((pre ++ [36]).length + (decimal o.length).length : Nat) : Int) + 2 = ((pre ++ lengthLine o.length).length : Int)) := by
    simp [lengthLine]
    omega
  have hdata : pySlice (pre ++ (bulk o ++ rest)) (pre ++ lengthLine o.length).length
      (((pre ++ lengthLine o.length).length : Int) + (o.length : Int)) = o := by
    rw [hpayload]
    exact pySlice_middle _ _ _
  rw [parseBulkString, hidx, if_neg (by omega), hlength, pyInt_decimal]
  dsimp only [Option.bind_eq_bind, Option.bind_some]
  rw [if_neg (by omega), hnext, hdata, if_neg (by omega)]
  rfl

/-- The loop over the bulk strings of a record. -/
theorem parseArraysLoop_bulks (rest : Bytes) (fields : List Bytes) :
    ∀ {pre : Bytes} (array : List (Option Bytes)), pre ≠ [] →
      parseArraysLoop (pre ++ ((fields.map bulk).flatten ++ rest)) fields.length pre.length array =
        some (array ++ fields.map some, ((pre ++ (fields.map bulk).flatten).length : Int)) := by
  induction fields with
  | nil =>
    intro pre array _
    simp [parseArraysLoop]
  | cons o fields ih =>
    intro pre array hpre
    have hnext : (((pre ++ lengthLine o.length).length + o.length : Nat) : Int) + 2 = ((pre ++ bulk o).length : Int) := by
      simp [bulk]
      omega
    have hrest := ih (array ++ [some o]) (List.append_ne_nil_of_left_ne_nil hpre (bulk o))
    rw [List.map_cons, List.flatten_cons, List.append_assoc, List.length_cons, parseArraysLoop, parseBulkString_bulk hpre]
    dsimp only
    rw [hnext, ← List.append_assoc pre (bulk o), hrest, List.append_assoc, List.append_assoc]
    rfl

/-- The four texts of a record. -/
structure LogFields where
  idx : Bytes
  term : Bytes
  cmdname : Bytes
  cmd : Bytes
deriving DecidableEq

/-- The record that `catLogEntry` writes. -/
def LogFields.record (r : LogFields) : Bytes := catLogEntry [] [r.idx, r.term, r.cmdname, r.cmd]

/-- The tuple that the parser makes of it. -/
def LogFields.parsed (r : LogFields) : ParsedEntry := ⟨some r.idx, some r.term, some r.cmdname, some r.cmd⟩

/-- Every text is shorter than `k` bytes. -/
def LogFields.Short (r : LogFields) (k : Nat) : Prop := ∀ o ∈ [r.idx, r.term, r.cmdname, r.cmd], o.length < k
deriving Decidable

theorem LogFields.record_eq {r : LogFields} (h : r.Short (10 ^ 18)) :
    r.record = countLine ++ ([r.idx, r.term, r.cmdname, r.cmd].map bulk).flatten := by
  rw [LogFields.record, catLogEntry_four h]
  simp

/-- The count line ends behind its two characters. -/
theorem pyFind_countLine (rest : Bytes) : pyFind (countLine ++ rest) 0 = 2 := by
  have hcr : (13 : UInt8) ∉ ([42, 52] : Bytes) := by decide
  exact pyFind_line [] hcr rest

/-- **A record** is parsed whole. -/
theorem parseArrays_record {r : LogFields} (h : r.Short (10 ^ 18)) (rest : Bytes) :
    parseArrays (r.record ++ rest) = some (r.parsed, (r.record.length : Int)) := by
  have hcount : ∀ rest, pySlice (countLine ++ rest) 1 2 = [52] := fun _ => rfl
  have hfour : pyInt [52] = some 4 := by decide
  have hne : countLine ≠ [] := List.cons_ne_nil _ _
  have hloop : parseArraysLoop _ 4 countLine.length [] = _ :=
    parseArraysLoop_bulks rest [r.idx, r.term, r.cmdname, r.cmd] [] hne
  rw [LogFields.record_eq h, List.append_assoc, parseArrays, pyFind_countLine, hcount, hfour]
  dsimp only [Option.bind_eq_bind, Option.bind_some]
  change (parseArraysLoop _ 4 countLine.length []).bind _ = _
  rw [hloop]
  rfl

/-- **The parser prints every record**, in order, and stops. -/
theorem parseLog_records {rs : List LogFields} (h : ∀ r ∈ rs, r.Short (10 ^ 18)) :
    ∀ turns, rs.length < turns → parseLog turns (rs.map LogFields.record).flatten = (rs.map LogFields.parsed, .returned) := by
  induction rs with
  | nil =>
    intro turns hturns
    obtain ⟨turns, rfl⟩ := Nat.exists_eq_add_one_of_ne_zero (Nat.ne_of_gt hturns)
    rfl
  | cons r rs ih =>
    intro turns hturns
    obtain ⟨turns, rfl⟩ := Nat.exists_eq_add_one_of_ne_zero (Nat.ne_of_gt (Nat.lt_of_le_of_lt (Nat.zero_le _) hturns))
    have hr : r.Short (10 ^ 18) := h r List.mem_cons_self
    have hrest := ih (fun x hx => h x (List.mem_cons_of_mem _ hx)) turns (Nat.lt_of_succ_lt_succ hturns)
    have hfind : pyFind (r.record ++ (rs.map LogFields.record).flatten) 0 = 2 := by
      rw [LogFields.record_eq hr, List.append_assoc, pyFind_countLine]
    have hhead : (r.record ++ (rs.map LogFields.record).flatten).head? = some 42 := by
      rw [LogFields.record_eq hr]
      rfl
    rw [List.map_cons, List.flatten_cons, parseLog, hfind, if_neg (by decide), hhead, if_pos rfl, parseArrays_record hr]
    dsimp only
    rw [pyBound_natCast, List.drop_left, hrest]
    rfl

/-! ## Against the server -/

/-- A loaded entry, as the parser shows it. -/
def LoadedEntry.parsed (e : LoadedEntry) : ParsedEntry :=
  ⟨some (llText e.index), some (llText e.term), some e.commandName, some e.command⟩

/-- The server can read the texts as they stand: `string2ll` takes the first two, and the others are C strings. -/
def LogFields.Readable (r : LogFields) : Prop :=
  (string2ll r.idx).isSome = true ∧ (string2ll r.term).isSome = true ∧ (0 : UInt8) ∉ r.cmdname ∧ (0 : UInt8) ∉ r.cmd
deriving Decidable

/-- Such a record is one that the server writes. -/
theorem LogFields.Readable.entry {r : LogFields} (hr : r.Readable) (hs : r.Short 40) :
    ∃ e : LogEntry, e.InRange ∧ logRecord e = r.record ∧ e.loaded.parsed = r.parsed := by
  obtain ⟨hidx, hterm, hname, hcmd⟩ := hr
  obtain ⟨i, hi⟩ := Option.isSome_iff_exists.mp hidx
  obtain ⟨t, ht⟩ := Option.isSome_iff_exists.mp hterm
  obtain ⟨hci, hli⟩ := string2ll_sound hi
  obtain ⟨hct, hlt⟩ := string2ll_sound ht
  rw [canonical_iff] at hci hct
  have hni := llText_length hli
  have hnt := llText_length hlt
  have hidx : ll2string 32 i = r.idx := by rw [ll2string_eq (by omega), hci]
  have hterm : ll2string 32 t = r.term := by rw [ll2string_eq (by omega), hct]
  have hname40 : r.cmdname.length < 40 := hs _ (by simp)
  have hcmd40 : r.cmd.length < 40 := hs _ (by simp)
  refine ⟨⟨i, t, ⟨r.cmdname, hname, hname40⟩, ⟨r.cmd, hcmd, hcmd40⟩⟩, ⟨hli, hlt⟩, ?_, ?_⟩
  · change catLogEntry [] [ll2string 32 i, ll2string 32 t, r.cmdname, r.cmd] = r.record
    rw [hidx, hterm]
    rfl
  · rw [LogFields.parsed, hci, hct]
    rfl

theorem entries_of_fields {rs : List LogFields} (hr : ∀ r ∈ rs, r.Readable) (hs : ∀ r ∈ rs, r.Short 40) :
    ∃ l : List LogEntry, (∀ e ∈ l, e.InRange) ∧ records l = (rs.map LogFields.record).flatten ∧
      l.map (fun e => e.loaded.parsed) = rs.map LogFields.parsed := by
  induction rs with
  | nil => exact ⟨[], by simp, rfl, rfl⟩
  | cons r rs ih =>
    obtain ⟨e, he, hrec, hparsed⟩ := (hr r List.mem_cons_self).entry (hs r List.mem_cons_self)
    obtain ⟨l, hl, hrecs, hparseds⟩ :=
      ih (fun x hx => hr x (List.mem_cons_of_mem _ hx)) (fun x hx => hs x (List.mem_cons_of_mem _ hx))
    refine ⟨e :: l, ?_, ?_, ?_⟩
    · intro x hx
      rcases List.mem_cons.mp hx with rfl | hx
      · exact he
      · exact hl x hx
    · rw [records_cons, hrec, hrecs]
      rfl
    · rw [List.map_cons, List.map_cons, hparsed, hparseds]

/-- **The offline parser agrees with the server.** For every file of records whose texts are shorter than 40 bytes and can be
    read as they stand, `parse_log` stops after printing the entries that `loadLogFile` loads, in the same order. -/
theorem log_parser_agrees (mem : Nat → LoadedEntry) (rs : List LogFields) (hs : ∀ r ∈ rs, r.Short 40)
    (hr : ∀ r ∈ rs, r.Readable) :
    ∃ nodes size, loadLogFile mem (rs.map LogFields.record).flatten = .ok (nodes, size) ∧
      ∀ turns, rs.length < turns → parseLog turns (rs.map LogFields.record).flatten =
        (nodes.map fun node => node.logEntry.parsed, .returned) := by
  obtain ⟨l, hl, hfile, hparsed⟩ := entries_of_fields hr hs
  have hshort : ∀ r ∈ rs, r.Short (10 ^ 18) := fun r h o ho => Nat.lt_trans (hs r h o ho) (by decide)
  refine ⟨_, _, by rw [← hfile]; exact loadLogFile_records mem hl, fun turns hturns => ?_⟩
  have hnodes : ((layout 0 l).map LogEntryNode.loaded).map (fun node => node.logEntry.parsed) = rs.map LogFields.parsed := by
    rw [← hparsed, List.map_map]
    conv_rhs => rw [← layout_logEntry l 0, List.map_map]
    rfl
  rw [parseLog_records hshort turns hturns, hnodes]

/-- A command text with a line break, a `*` and a `$` in it. -/
def breakFields : LogFields := ⟨[49], [49], [115, 101, 116], [107, 13, 10, 42, 36]⟩

theorem log_parser_agrees_break : (∀ r ∈ [breakFields, breakFields], r.Short 40) ∧ (∀ r ∈ [breakFields, breakFields], r.Readable) ∧
    ∃ nodes size, loadLogFile (fun _ => ⟨0, 0, [], []⟩) ([breakFields, breakFields].map LogFields.record).flatten = .ok (nodes, size) ∧
      parseLog 3 ([breakFields, breakFields].map LogFields.record).flatten = (nodes.map fun node => node.logEntry.parsed, .returned) := by
  have hs : ∀ r ∈ [breakFields, breakFields], r.Short 40 := by decide
  have hr : ∀ r ∈ [breakFields, breakFields], r.Readable := by decide
  obtain ⟨nodes, size, hload, hparse⟩ := log_parser_agrees (fun _ => ⟨0, 0, [], []⟩) _ hs hr
  exact ⟨hs, hr, nodes, size, hload, hparse 3 (by decide)⟩

/-- The index `x`. -/
def wordFields : LogFields := ⟨[120], [49], [115, 101, 116], [107]⟩

/-- The command text `k`, a NUL and `v`. -/
def nulFields : LogFields := ⟨[49], [49], [115, 101, 116], [107, 0, 118]⟩

/-- The parser prints both records as they stand. The server does not start with the first one, and loads the second one with
    the command text `k`. -/
theorem log_parser_prints_more :
    (parseLog 2 wordFields.record = ([wordFields.parsed], .returned) ∧
      loadLogFile (fun _ => ⟨0, 0, [], []⟩) wordFields.record = .error .readerr) ∧
    parseLog 2 nulFields.record = ([nulFields.parsed], .returned) ∧
      ∃ size, loadLogFile (fun _ => ⟨0, 0, [], []⟩) nulFields.record = .ok ([⟨⟨1, 1, [115, 101, 116], [107]⟩, 0⟩], size) := by
  have hparse : ∀ r : LogFields, r.Short (10 ^ 18) → parseLog 2 r.record = ([r.parsed], .returned) := by
    intro r hr
    have hprint := parseLog_records (List.forall_mem_singleton.mpr hr) 2 Nat.one_lt_two
    rwa [List.map_singleton, List.flatten_singleton] at hprint
  have hword : wordFields.Short (10 ^ 18) := by decide
  have hnul : nulFields.Short (10 ^ 18) := by decide
  have hone : lengthLine 1 = [36, 49, 13, 10] := by
    rw [lengthLine, decimal_lt (by decide)]
    rfl
  have hthree : lengthLine 3 = [36, 51, 13, 10] := by
    rw [lengthLine, decimal_lt (by decide)]
    rfl
  refine ⟨⟨hparse _ hword, ?_⟩, hparse _ hnul, 36, ?_⟩
  · rw [LogFields.record_eq hword]
    change loadLogFile _ (countLine ++ [lengthLine 1 ++ [120] ++ [13, 10], lengthLine 1 ++ [49] ++ [13, 10],
      lengthLine 3 ++ [115, 101, 116] ++ [13, 10], lengthLine 1 ++ [107] ++ [13, 10]].flatten) = _
    rw [hone, hthree]
    decide
  · rw [LogFields.record_eq hnul]
    change loadLogFile _ (countLine ++ [lengthLine 1 ++ [49] ++ [13, 10], lengthLine 1 ++ [49] ++ [13, 10],
      lengthLine 3 ++ [115, 101, 116] ++ [13, 10], lengthLine 3 ++ [107, 0, 118] ++ [13, 10]].flatten) = _
    rw [hone, hthree]
    decide

end Prez
