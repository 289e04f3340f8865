import Prez.Config.Params
import Prez.Client.Calls
import Prez.Lib.Resp
import Mathlib.Algebra.Order.BigOperators.Group.List

/-!
# `Prez.Config.Reply` — the replies of `CONFIG`

`configCommand` and its subcommands on the output of a client. Every branch ends in one reply: a status, an error
whose text may hold what the client sent, or the list of parameters that match a pattern, whose length is known only
when it is complete.

The lemmas say of each branch which reply it queues (`Replies`).
-/

namespace Prez

open Lib

/-! ## Errors -/

namespace Output

/-- `addReplyErrorLength(c, s, len)`. -/
def addReplyErrorLength (o : Output) (s : Bytes) : Option Output := do
  let o ← o.addReplyString (ascii "-ERR ")
  let o ← o.addReplyString s
  o.addReplyString (ascii "\r\n")

/-- `addReplyError(c, err)`. -/
def addReplyError (o : Output) (err : Bytes) : Option Output := o.addReplyErrorLength (cstr err)

/-- Line breaks become blanks. -/
def blankBreaks (s : Bytes) : Bytes := s.map fun b => if b = 13 ∨ b = 10 then 32 else b

/-- `addReplyErrorFormat(c, fmt, ...)` with the text that the format gives. -/
def addReplyErrorFormat (o : Output) (message : Bytes) : Option Output := o.addReplyErrorLength (blankBreaks message)

/-! `shared.ok`, `shared.syntaxerr` and `shared.wrongtypeerr`, behind the other shared objects. -/

def okObj : Nat := sharedCount

def syntaxerrObj : Nat := sharedCount + 1

def wrongtypeerrObj : Nat := sharedCount + 2

end Output

/-! ## Commands -/

/-- The end of `configSetCommand`. -/
def configSetReply (o : Output) (name value : Bytes) : SetEnd → Option Output
  | .ok => o.addReply Output.okObj
  | .error err => o.addReplyError err
  | .format message => o.addReplyErrorFormat message
  | .badfmt =>
    o.addReplyErrorFormat
      (ascii "Invalid argument '" ++ cstr value ++ ascii "' for CONFIG SET '" ++ cstr name ++ ascii "'")
  | .unsupported => o.addReplyErrorFormat (ascii "Unsupported CONFIG parameter: " ++ cstr name)

/-- `configSetCommand(c)`. -/
def configSetCommand (os : Os) (cfg : ServerConfig) (o : Output) (name value : Bytes) : Option (ServerConfig × Output) :=
  (configSetParam os cfg name value).bind fun (cfg, fin) => (configSetReply o name value fin).map (cfg, ·)

/-- One field of `configGetCommand`: the output and the number of matches so far. -/
def configGetField (pattern : Bytes) (r : Output × Nat) (field : Bytes × Bytes) : Option (Output × Nat) :=
  (stringmatch pattern field.1 false).bind fun found =>
  if found then do
    let o ← r.1.addReplyBulkCString (some field.1)
    let o ← o.addReplyBulkCString (some field.2)
    return (o, r.2 + 1)
  else some r

/-- `configGetCommand(c)`. -/
def configGetCommand (cfg : ServerConfig) (o : Output) (pattern : Bytes) : Option Output :=
  let (o, replylen) := o.addDeferredMultiBulkLength
  ((configFields cfg).foldlM (configGetField pattern) (o, 0)).bind fun (o, count) =>
  o.setDeferredMultiBulkLength replylen (count * 2 : Nat)

/-- `configCommand(c, argv, argc)`. The statistics that `resetstat` clears are in no reply. -/
def configCommand (os : Os) (cfg : ServerConfig) (o : Output) (argv : List Bytes) : Option (ServerConfig × Output) :=
  match argv with
  | _ :: sub :: args =>
    let badarity := (o.addReplyErrorFormat (ascii "Wrong number of arguments for CONFIG " ++ cstr sub)).map (cfg, ·)
    if strcaseEq sub (ascii "set") then
      match args with
      | [name, value] => configSetCommand os cfg o name value
      | _ => badarity
    else if strcaseEq sub (ascii "get") then
      match args with
      | [pattern] => (configGetCommand cfg o pattern).map (cfg, ·)
      | _ => badarity
    else if strcaseEq sub (ascii "resetstat") then
      match args with
      | [] => (o.addReply Output.okObj).map (cfg, ·)
      | _ => badarity
    else
      (o.addReplyError (ascii "CONFIG subcommand must be one of GET, SET, RESETSTAT, REWRITE")).map (cfg, ·)
  | _ => none

/-! ## One reply -/

/-- A call queues one reply. -/
def Replies (outer : Nat → Nat) (o o' : Output) (r : Resp) : Prop := Adds outer o o' r.encode

theorem blankBreaks_plain (s : Bytes) : ∀ b ∈ Output.blankBreaks s, b ≠ 13 ∧ b ≠ 10 := by
  intro b hb
  obtain ⟨c, -, rfl⟩ := List.mem_map.mp hb
  split
  · decide
  · rename_i hc
    exact not_or.mp hc

/-- The line of an error has no line end of its own. -/
theorem errLine_plain (message : Bytes) : ∀ b ∈ ascii "ERR " ++ Output.blankBreaks message, b ≠ 13 ∧ b ≠ 10 := by
  have herr : ∀ b ∈ ascii "ERR ", b ≠ 13 ∧ b ≠ 10 := by decide +kernel
  intro b hb
  rcases List.mem_append.mp hb with hb | hb
  · exact herr b hb
  · exact blankBreaks_plain message b hb

/-- The error reply for a message. -/
def errorResp (message : Bytes) : Resp := .error ⟨ascii "ERR " ++ Output.blankBreaks message, errLine_plain message⟩

theorem errorResp_encode (message : Bytes) :
    (errorResp message).encode = ascii "-ERR " ++ Output.blankBreaks message ++ ascii "\r\n" := rfl

def okResp : Resp := .status ⟨ascii "OK", by decide +kernel⟩

/-- The shared objects that commands reply with are held by the server. -/
structure RepliesOk (outer : Nat → Nat) (h : Heap) : Prop where
  shared : SharedOk outer h
  ok : 0 < outer Output.okObj ∧ h.value Output.okObj = some (.raw (ascii "+OK\r\n"))
  syntaxerr : 0 < outer Output.syntaxerrObj ∧ h.value Output.syntaxerrObj = some (.raw (ascii "-ERR syntax error\r\n"))
  wrongtypeerr : 0 < outer Output.wrongtypeerrObj ∧ h.value Output.wrongtypeerrObj =
    some (.raw (ascii "-WRONGTYPE Operation against a key holding the wrong kind of value\r\n"))

section

variable {outer : Nat → Nat} {o : Output}
variable {cfg : ServerConfig} {pattern : Bytes} {s : Bytes}

theorem addReplyErrorLength_adds (hw : OutputOk outer o) (hs : s.length < 2 ^ 31) :
    ∃ o', o.addReplyErrorLength s = some o' ∧ Adds outer o o' (ascii "-ERR " ++ s ++ ascii "\r\n") := by
  obtain ⟨o₁, h₁, hadds₁⟩ := addReplyString_adds hw (s := ascii "-ERR ") (by decide)
  obtain ⟨o₂, h₂, hadds₂⟩ := addReplyString_adds hadds₁.wf hs
  obtain ⟨o₃, h₃, hadds₃⟩ := addReplyString_adds hadds₂.wf (s := ascii "\r\n") (by decide)
  refine ⟨o₃, ?_, (hadds₁.trans hadds₂).trans hadds₃⟩
  simp only [Output.addReplyErrorLength, h₁, h₂, h₃, Option.bind_eq_bind, Option.bind_some]

/-- **`addReplyErrorFormat`** is one error reply. -/
theorem addReplyErrorFormat_replies (hw : OutputOk outer o) (message : Bytes) (hm : message.length < 2 ^ 31) :
    ∃ o', o.addReplyErrorFormat message = some o' ∧ Replies outer o o' (errorResp message) := by
  unfold Replies
  rw [errorResp_encode]
  exact addReplyErrorLength_adds hw (by rw [Output.blankBreaks, List.length_map]; exact hm)

/-- **`addReplyError`** is one error reply. -/
theorem addReplyError_replies (hw : OutputOk outer o) {err : Bytes} (h : FixedText err) :
    ∃ o', o.addReplyError err = some o' ∧ Replies outer o o' (errorResp err) := by
  obtain ⟨hplain, hshort⟩ := h
  have hsame : Output.blankBreaks err = err := by
    rw [Output.blankBreaks]
    refine (List.map_congr_left fun b hb => ?_).trans (List.map_id err)
    exact if_neg fun hbreak => hbreak.elim (hplain b hb).1 (hplain b hb).2.1
  have hnul : (0 : UInt8) ∉ err := fun h0 => (hplain 0 h0).2.2 rfl
  unfold Replies
  rw [errorResp_encode, hsame, Output.addReplyError, cstr_eq_self hnul]
  exact addReplyErrorLength_adds hw (by omega)

theorem RepliesOk.kept {h h' : Heap} (hs : RepliesOk outer h) (hkept : ∀ k, 0 < outer k → h'.value k = h.value k) :
    RepliesOk outer h' where
  shared := hs.shared.kept hkept
  ok := ⟨hs.ok.1, (hkept _ hs.ok.1).trans hs.ok.2⟩
  syntaxerr := ⟨hs.syntaxerr.1, (hkept _ hs.syntaxerr.1).trans hs.syntaxerr.2⟩
  wrongtypeerr := ⟨hs.wrongtypeerr.1, (hkept _ hs.wrongtypeerr.1).trans hs.wrongtypeerr.2⟩

/-- The shared `+OK` is one reply. -/
theorem addReply_ok (hw : OutputOk outer o) (hs : RepliesOk outer o.heap) :
    ∃ o', o.addReply Output.okObj = some o' ∧ Replies outer o o' okResp :=
  addReply_adds hw hs.ok.1 hs.ok.2 nofun

/-! ## `CONFIG GET` -/

theorem numLine_nat (kind : UInt8) (n : Nat) : Output.numLine kind n = kind :: (decimal n ++ crlf) := by
  rw [Output.numLine, llText, if_neg (by omega), Int.natAbs_natCast]
  rfl

theorem bulkText_eq (s : Bytes) : bulkText s = bulkString s := by
  rw [bulkText, numLine_nat, bulkString, List.append_assoc, List.cons_append, List.append_assoc]
  rfl

/-- The items that the fields show for a pattern. -/
def shown (pattern : Bytes) (fields : List (Bytes × Bytes)) : List Bytes :=
  fields.flatMap fun f => if stringmatch pattern f.1 false = some true then [cstr f.1, cstr f.2] else []

/-- Texts that can be sent. -/
def Sendable (fields : List (Bytes × Bytes)) : Prop := ∀ f ∈ fields, f.1.length < 2 ^ 31 ∧ f.2.length < 2 ^ 31

theorem cstr_length_le (s : Bytes) : (cstr s).length ≤ s.length := (List.takeWhile_prefix _).length_le

theorem addReplyBulkCString_adds (hw : OutputOk outer o) (hs : SharedOk outer o.heap) (hlen : s.length < 2 ^ 31) :
    ∃ o', o.addReplyBulkCString (some s) = some o' ∧ Adds outer o o' (bulkString (cstr s)) := by
  rw [← bulkText_eq]
  exact addReplyBulkCBuffer_adds hw hs (lt_of_le_of_lt (cstr_length_le s) hlen)

/-- The loop over the fields: two items and one match more for each field that is shown. -/
theorem configGetFields_adds : ∀ {fields : List (Bytes × Bytes)} {o : Output} (count : Nat),
    OutputOk outer o → SharedOk outer o.heap → Sendable fields →
    (∀ f ∈ fields, (stringmatch pattern f.1 false).isSome = true) →
    ∃ o' count', fields.foldlM (configGetField pattern) (o, count) = some (o', count') ∧
      count' * 2 = count * 2 + (shown pattern fields).length ∧ Adds outer o o' ((shown pattern fields).flatMap bulkString) := by
  intro fields
  induction fields with
  | nil =>
    intro o count hw _ _ _
    exact ⟨o, count, rfl, rfl, .refl hw⟩
  | cons f fields ih =>
    intro o count hw hs hsend hmatch
    obtain ⟨⟨hname, hvalue⟩, hsend'⟩ := List.forall_mem_cons.mp hsend
    obtain ⟨hdef, hmatch'⟩ := List.forall_mem_cons.mp hmatch
    obtain ⟨found, hfound⟩ := Option.isSome_iff_exists.mp hdef
    rw [List.foldlM_cons, configGetField, hfound, Option.bind_some, shown, List.flatMap_cons, ← shown, hfound]
    cases found with
    | false =>
      obtain ⟨o', count', hfold, hcount, hadds⟩ := ih count hw hs hsend' hmatch'
      exact ⟨o', count', hfold, hcount, hadds⟩
    | true =>
      obtain ⟨o₁, h₁, hadds₁⟩ := addReplyBulkCString_adds hw hs hname
      obtain ⟨o₂, h₂, hadds₂⟩ := addReplyBulkCString_adds hadds₁.wf (hs.kept hadds₁.kept) hvalue
      have hadds := hadds₁.trans hadds₂
      obtain ⟨o', count', hfold, hcount, hrest⟩ := ih (count + 1) hadds.wf (hs.kept hadds.kept) hsend' hmatch'
      refine ⟨o', count', ?_, ?_, ?_⟩
      · simp only [h₁, h₂, if_true, Option.bind_eq_bind, Option.bind_some, Option.pure_def]
        exact hfold
      · rw [hcount, if_pos rfl, List.length_append]
        simp only [List.length_cons, List.length_nil]
        omega
      · rw [if_pos rfl, List.flatMap_append, List.flatMap_cons, List.flatMap_singleton]
        exact hadds.trans hrest

/-- A bulk string is a little longer than what it holds. -/
theorem bulkString_length (h : s.length < 10 ^ 10) : (bulkString s).length ≤ s.length + 15 := by
  have hdigits : (decimal s.length).length ≤ 10 := decimal_length_le (k := 9) h
  rw [bulkString, List.length_cons, List.length_append, List.length_append, List.length_append]
  have hcrlf : crlf.length = 2 := rfl
  omega

/-- What all fields take together, with 30 bytes more for each. -/
def fieldsLength (fields : List (Bytes × Bytes)) : Nat := (fields.map fun f => f.1.length + f.2.length + 30).sum

/-- What a pattern shows is no longer than all fields. -/
theorem shown_length : ∀ {fields : List (Bytes × Bytes)}, Sendable fields →
    ((shown pattern fields).flatMap bulkString).length ≤ fieldsLength fields := by
  intro fields
  induction fields with
  | nil => exact fun _ => le_rfl
  | cons f fields ih =>
    intro hsend
    obtain ⟨⟨hname, hvalue⟩, hsend'⟩ := List.forall_mem_cons.mp hsend
    have hrest := ih hsend'
    rw [shown, List.flatMap_cons, ← shown, List.flatMap_append, List.length_append, fieldsLength, List.map_cons,
      List.sum_cons, ← fieldsLength]
    split
    · have h₁ := cstr_length_le f.1
      have h₂ := cstr_length_le f.2
      have hb₁ := bulkString_length (s := cstr f.1) (by omega)
      have hb₂ := bulkString_length (s := cstr f.2) (by omega)
      rw [List.flatMap_cons, List.flatMap_singleton, List.length_append]
      omega
    · rw [List.flatMap_nil, List.length_nil]
      omega

theorem shown_count (pattern : Bytes) (fields : List (Bytes × Bytes)) :
    (shown pattern fields).length ≤ 2 * fields.length := by
  induction fields with
  | nil => exact le_rfl
  | cons f fields ih =>
    rw [shown, List.flatMap_cons, ← shown, List.length_append, List.length_cons]
    split <;> simp only [List.length_cons, List.length_nil] <;> omega

theorem ll2string_length (dstlen : Nat) (v : Int) : (ll2string dstlen v).length ≤ dstlen := by
  by_cases h : (llText v).length < dstlen
  · rw [ll2string_eq h]
    exact Nat.le_of_lt h
  · -- the number does not fit, nothing is written
    have hlen : digits10 v.natAbs + (decide (v < 0)).toNat ≥ dstlen := by
      rw [llText] at h
      rw [digits10_eq]
      split at h
      · rename_i hneg
        rw [decide_eq_true hneg]
        rw [List.length_cons] at h
        exact not_lt.mp h
      · exact Nat.le_add_right_of_le (not_lt.mp h)
    rw [ll2string]
    dsimp only
    rw [if_pos hlen]
    exact Nat.zero_le _

theorem convDigits_length (conv : Conv) : ∀ fuel v, (convDigits conv fuel v).length ≤ fuel := by
  intro fuel
  induction fuel with
  | zero => exact fun _ => le_rfl
  | succ fuel ih =>
    intro v
    rw [convDigits]
    split
    · exact Nat.zero_le _
    · rw [List.length_append]
      exact Nat.succ_le_succ (ih _)

theorem BufferLimits.text_length {l : BufferLimits} (h : LongLong l.softLimitSeconds) : l.text.length ≤ 100 := by
  have hhard : (decimal l.hardLimitBytes.toNat).length ≤ 20 :=
    decimal_length_le (k := 19) (lt_of_lt_of_le l.hardLimitBytes.toNat_lt (by decide))
  have hsoft : (decimal l.softLimitBytes.toNat).length ≤ 20 :=
    decimal_length_le (k := 19) (lt_of_lt_of_le l.softLimitBytes.toNat_lt (by decide))
  have hsecs := llText_length h
  have hname : (ascii "normal ").length = 7 := by decide
  have hblank : (ascii " ").length = 1 := by decide
  simp only [BufferLimits.text, List.length_append]
  omega

theorem configNames_short (cfg : ServerConfig) : ∀ f ∈ configFields cfg, f.1 ≠ [] ∧ f.1.length ≤ 26 := by
  have hnames : ∀ name ∈ (configFields cfg).map Prod.fst, name ≠ [] ∧ name.length ≤ 26 := by
    show ∀ name ∈ [ascii "unixsocket", ascii "logfile", ascii "pidfile", ascii "timeout", ascii "tcp-keepalive",
      ascii "port", ascii "tcp-backlog", ascii "maxclients", ascii "hz", ascii "cluster-election-timeout",
      ascii "cluster-heartbeat-interval", ascii "loglevel", ascii "client-output-buffer-limit",
      ascii "unixsocketperm"], name ≠ [] ∧ name.length ≤ 26
    decide
  exact fun f hf => hnames f.1 (List.mem_map_of_mem hf)

/-- The values of all fields but the first three are short. -/
theorem configValues_short (h : ConfigOk cfg) : ∀ f ∈ (configFields cfg).drop 3, f.2.length ≤ 128 := by
  have hnum : ∀ v, (ll2string 128 v).length ≤ 128 := ll2string_length 128
  have hlevel : cfg.verbosity.name.length ≤ 128 := by
    cases cfg.verbosity <;> decide
  have hlimits := BufferLimits.text_length h.seconds
  have hperm : (octal cfg.unixsocketperm.toNat).length ≤ 128 := by
    have := convDigits_length .octal 64 cfg.unixsocketperm.toNat
    rw [octal, List.length_cons, List.length_tail]
    omega
  intro f hf
  simp only [configFields, numericalField, List.drop_succ_cons, List.drop_zero, List.mem_cons, List.not_mem_nil,
    or_false] at hf
  rcases hf with rfl | rfl | rfl | rfl | rfl | rfl | rfl | rfl | rfl | rfl | rfl
  all_goals first | exact hnum _ | exact hlevel | exact hperm | exact hlimits.trans (by decide)

/-- No value is longer than a bulk may be. -/
theorem configFields_short (h : ConfigOk cfg) : ∀ f ∈ configFields cfg, f.2.length ≤ 2 ^ 29 := by
  intro f hf
  rw [← List.take_append_drop 3 (configFields cfg)] at hf
  rcases List.mem_append.mp hf with hf | hf
  · simp only [configFields, stringField, List.take_succ_cons, List.take_zero, List.mem_cons, List.not_mem_nil,
      or_false] at hf
    rcases hf with rfl | rfl | rfl
    · exact h.unixsocket
    · exact h.logfile
    · exact h.pidfile
  · exact (configValues_short h f hf).trans (by decide)

theorem configFields_sendable (h : ConfigOk cfg) : Sendable (configFields cfg) := by
  intro f hf
  have hname := (configNames_short cfg f hf).2
  have hvalue := configFields_short h f hf
  omega

/-- All fields together are shorter than an `int` can count. -/
theorem configFields_length (h : ConfigOk cfg) : fieldsLength (configFields cfg) < 2 ^ 31 - 100 := by
  have hrest : fieldsLength ((configFields cfg).drop 3) ≤ 11 * 184 := by
    have hle := List.sum_le_card_nsmul (((configFields cfg).drop 3).map fun f => f.1.length + f.2.length + 30) 184 ?_
    · rw [List.length_map] at hle
      exact hle
    · intro x hx
      obtain ⟨f, hf, rfl⟩ := List.mem_map.mp hx
      have hname := (configNames_short cfg f (List.mem_of_mem_drop hf)).2
      have hvalue := configValues_short h f hf
      omega
  have hfirst : fieldsLength ((configFields cfg).take 3) ≤ 3 * (2 ^ 29 + 56) := by
    have hle := List.sum_le_card_nsmul (((configFields cfg).take 3).map fun f => f.1.length + f.2.length + 30)
      (2 ^ 29 + 56) ?_
    · rw [List.length_map] at hle
      exact hle
    · intro x hx
      obtain ⟨f, hf, rfl⟩ := List.mem_map.mp hx
      have hname := (configNames_short cfg f (List.mem_of_mem_take hf)).2
      have hvalue := configFields_short h f (List.mem_of_mem_take hf)
      omega
  have hsum : fieldsLength (configFields cfg) =
      fieldsLength ((configFields cfg).take 3) + fieldsLength ((configFields cfg).drop 3) := by
    rw [fieldsLength, fieldsLength, fieldsLength, ← List.sum_append, ← List.map_append, List.take_append_drop]
  omega

/-- What `CONFIG` queues for a client that is about to be closed: nothing, or the length of the list that
    `CONFIG GET` leaves out. -/
def closingText (cfg : ServerConfig) : List Bytes → Bytes
  | [_, sub, pattern] =>
    if strcaseEq sub (ascii "get") then Output.numLine 42 ((shown pattern (configFields cfg)).length : Nat) else []
  | _ => []

/-- **`CONFIG GET`.** The length that is filled in last is the number of items. -/
theorem configGetCommand_appends (hw : OutputOk outer o) (hs : RepliesOk outer o.heap) (hc : ConfigOk cfg)
    (hmatch : ∀ f ∈ configFields cfg, (stringmatch pattern f.1 false).isSome = true) :
    ∃ o', configGetCommand cfg o pattern = some o' ∧
      Appends outer o o' (Output.numLine 42 ((shown pattern (configFields cfg)).length : Nat) ++
        if o.closeAfterReply then [] else (shown pattern (configFields cfg)).flatMap bulkString) := by
  have hsend := configFields_sendable hc
  obtain ⟨hw₁, -, hkept₁, -⟩ := addDeferredMultiBulkLength_spec hw
  obtain ⟨o₂, count, hfold, hcount, hadds⟩ := configGetFields_adds 0 hw₁ (hs.shared.kept hkept₁) hsend hmatch
  rw [Nat.zero_mul, Nat.zero_add] at hcount
  have hfits : (Output.numLine 42 ((shown pattern (configFields cfg)).length : Nat)).length +
      ((shown pattern (configFields cfg)).flatMap bulkString).length < 2 ^ 31 := by
    have hitems := shown_count pattern (configFields cfg)
    have htext : ((shown pattern (configFields cfg)).flatMap bulkString).length ≤ _ := shown_length hsend
    have hall := configFields_length hc
    have hfourteen : (configFields cfg).length = 14 := rfl
    have hdigits : (decimal (shown pattern (configFields cfg)).length).length ≤ 10 := decimal_length_le (k := 9) (by omega)
    have hcrlf : crlf.length = 2 := rfl
    rw [numLine_nat, List.length_cons, List.length_append]
    omega
  obtain ⟨o', hset, happends⟩ := deferred_appends hw hadds hfits
  refine ⟨o', ?_, happends⟩
  rw [configGetCommand]
  show ((configFields cfg).foldlM (configGetField pattern) (o.addDeferredMultiBulkLength.1, 0)).bind _ = some o'
  rw [hfold, Option.bind_some]
  dsimp only
  rw [hcount]
  exact hset

/-- A multi bulk reply on the wire. -/
theorem multi_encode (items : List Bytes) :
    (Resp.multi items).encode = Output.numLine 42 (items.length : Nat) ++ items.flatMap bulkString := by
  rw [numLine_nat, List.cons_append, List.append_assoc]
  rfl

/-- A loop over the fields that ends has compared the pattern with each of them. -/
theorem configGetFields_ends : ∀ {fields : List (Bytes × Bytes)} {r r' : Output × Nat},
    fields.foldlM (configGetField pattern) r = some r' → ∀ f ∈ fields, (stringmatch pattern f.1 false).isSome = true := by
  intro fields
  induction fields with
  | nil => exact fun _ => nofun
  | cons f fields ih =>
    intro r r' h
    rw [List.foldlM_cons] at h
    obtain ⟨r₁, hfield, hrest⟩ := Option.bind_eq_some_iff.mp h
    obtain ⟨found, hfound, -⟩ := Option.bind_eq_some_iff.mp hfield
    exact List.forall_mem_cons.mpr ⟨by rw [hfound]; rfl, ih hrest⟩

/-! ## `CONFIG` -/

/-- The arguments of a request are at most 512 MB long, so the messages with one or two of them are no longer than an
    `int` can count. -/
theorem configSetReply_replies (hw : OutputOk outer o) (hs : RepliesOk outer o.heap) {name value : Bytes}
    (hname : name.length ≤ 2 ^ 29) (hvalue : value.length ≤ 2 ^ 29) {r : ServerConfig × SetEnd} (hr : SetOk r) :
    ∃ o' resp, configSetReply o name value r.2 = some o' ∧ Replies outer o o' resp := by
  have hname' := cstr_length_le name
  have hvalue' := cstr_length_le value
  obtain ⟨cfg, fin⟩ := r
  cases fin with
  | ok =>
    obtain ⟨o', h, hreplies⟩ := addReply_ok hw hs
    exact ⟨o', _, h, hreplies⟩
  | error err =>
    obtain ⟨o', h, hreplies⟩ := addReplyError_replies hw (hr.error err rfl)
    exact ⟨o', _, h, hreplies⟩
  | format message =>
    have hm := hr.format message rfl
    obtain ⟨o', h, hreplies⟩ := addReplyErrorFormat_replies hw message (by omega)
    exact ⟨o', _, h, hreplies⟩
  | badfmt =>
    have h₁ : (ascii "Invalid argument '").length = 18 := by decide
    have h₂ : (ascii "' for CONFIG SET '").length = 18 := by decide
    have h₃ : (ascii "'").length = 1 := by decide
    obtain ⟨o', h, hreplies⟩ := addReplyErrorFormat_replies hw (ascii "Invalid argument '" ++ cstr value ++
      ascii "' for CONFIG SET '" ++ cstr name ++ ascii "'") (by simp only [List.length_append]; omega)
    exact ⟨o', _, h, hreplies⟩
  | unsupported =>
    have h₁ : (ascii "Unsupported CONFIG parameter: ").length = 30 := by decide
    obtain ⟨o', h, hreplies⟩ := addReplyErrorFormat_replies hw
      (ascii "Unsupported CONFIG parameter: " ++ cstr name) (by rw [List.length_append]; omega)
    exact ⟨o', _, h, hreplies⟩

/-- `CONFIG` ends: `CONFIG GET` reads nothing behind its pattern, and `CONFIG SET maxclients` can raise the number. -/
def ConfigEnds (os : Os) (cfg : ServerConfig) (argv : List Bytes) : Prop :=
  (∀ cmd sub pattern, argv = [cmd, sub, pattern] → strcaseEq sub (ascii "get") = true →
    ∀ f ∈ configFields cfg, (stringmatch pattern f.1 false).isSome = true) ∧
  ∀ cmd sub name value, argv = [cmd, sub, name, value] → strcaseEq sub (ascii "set") = true →
    strcaseEq name (ascii "maxclients") = true →
      ∀ ll, getLongLongFromObject value = some ll → 1 ≤ ll → cfg.maxclients < ll → RaiseEnds os ll

/-- That is needed. -/
theorem configEnds_of_some {os : Os} {argv : List Bytes} {r : ServerConfig × Output}
    (h : configCommand os cfg o argv = some r) : ConfigEnds os cfg argv := by
  constructor
  · rintro cmd sub pattern rfl hget
    have hset : strcaseEq sub (ascii "set") = false := strcaseEq_other hget (by decide +kernel)
    rw [configCommand, hset, if_neg Bool.false_ne_true, if_pos hget] at h
    obtain ⟨o', hcmd, -⟩ := Option.map_eq_some_iff.mp h
    rw [configGetCommand] at hcmd
    obtain ⟨r, hfold, -⟩ := Option.bind_eq_some_iff.mp hcmd
    exact configGetFields_ends hfold
  · rintro cmd sub name value rfl hset hname
    rw [configCommand, if_pos hset, configSetCommand] at h
    obtain ⟨r, hparam, -⟩ := Option.bind_eq_some_iff.mp h
    have hsome : (configSetParam os cfg name value).isSome = true := by
      rw [hparam]
      rfl
    exact setMaxclients_isSome_iff.mp (configSetParam_isSome_iff.mp hsome hname)

/-- **`CONFIG`.** Every subcommand queues one reply, if the client is not about to be closed. -/
theorem configCommand_appends (hw : OutputOk outer o) (hs : RepliesOk outer o.heap) {os : Os} (hc : ConfigOk cfg)
    {argv : List Bytes} (hargc : 2 ≤ argv.length) (hsize : ∀ a ∈ argv, a.length ≤ 2 ^ 29)
    (hends : ConfigEnds os cfg argv) : ∃ cfg' o' r, configCommand os cfg o argv = some (cfg', o') ∧
      Appends outer o o' (if o.closeAfterReply then closingText cfg argv else Resp.encode r) ∧ ConfigOk cfg' := by
  obtain ⟨cmd, sub, args, rfl⟩ : ∃ cmd sub args, argv = cmd :: sub :: args := by
    match argv, hargc with
    | cmd :: sub :: args, _ => exact ⟨cmd, sub, args, rfl⟩
  have hsub := (hsize sub (by simp)).trans' (cstr_length_le sub)
  -- every reply but the list of `CONFIG GET`
  have hplain : (∀ pattern, args = [pattern] → strcaseEq sub (ascii "get") = false) → ∀ {o' : Output} {r : Resp},
      Replies outer o o' r → Appends outer o o' (if o.closeAfterReply then closingText cfg (cmd :: sub :: args) else r.encode) := by
    intro hother o' r hreplies
    have hnone : closingText cfg (cmd :: sub :: args) = [] := by
      unfold closingText
      split
      · rename_i heq
        cases heq
        rw [hother _ rfl, if_neg Bool.false_ne_true]
      · rfl
    rw [hnone]
    exact hreplies.appends
  have hbad : (∀ pattern, args = [pattern] → strcaseEq sub (ascii "get") = false) → ∃ cfg' o' r,
      (o.addReplyErrorFormat (ascii "Wrong number of arguments for CONFIG " ++ cstr sub)).map (cfg, ·) = some (cfg', o') ∧
        Appends outer o o' (if o.closeAfterReply then closingText cfg (cmd :: sub :: args) else Resp.encode r) ∧
          ConfigOk cfg' := by
    intro hother
    have hlen : (ascii "Wrong number of arguments for CONFIG ").length = 37 := by decide
    obtain ⟨o', h, hreplies⟩ := addReplyErrorFormat_replies hw
      (ascii "Wrong number of arguments for CONFIG " ++ cstr sub) (by rw [List.length_append]; omega)
    exact ⟨cfg, o', _, by rw [h, Option.map_some], hplain hother hreplies, hc⟩
  unfold configCommand
  dsimp only
  split
  · rename_i hset
    have hother : ∀ pattern, args = [pattern] → strcaseEq sub (ascii "get") = false :=
      fun _ _ => strcaseEq_other hset (by decide +kernel)
    split
    · rename_i name value
      have hsome : (configSetParam os cfg name value).isSome = true :=
        configSetParam_isSome_iff.mpr fun hname => setMaxclients_isSome_iff.mpr (hends.2 cmd sub name value rfl hset hname)
      obtain ⟨⟨cfg', fin⟩, hparam⟩ := Option.isSome_iff_exists.mp hsome
      have hok := configSetParam_ok os hc name value _ hparam
      obtain ⟨o', r, hreply, hreplies⟩ := configSetReply_replies hw hs (hsize name (by simp)) (hsize value (by simp)) hok
      refine ⟨cfg', o', r, ?_, hplain hother hreplies, hok.config⟩
      rw [configSetCommand, hparam, Option.bind_some]
      dsimp only
      rw [hreply, Option.map_some]
    · exact hbad hother
  split
  · rename_i hget
    split
    · rename_i pattern
      obtain ⟨o', hreply, happends⟩ := configGetCommand_appends hw hs hc (hends.1 cmd sub pattern rfl hget)
      refine ⟨cfg, o', .multi (shown pattern (configFields cfg)), by rw [hreply, Option.map_some], ?_, hc⟩
      rw [closingText, if_pos hget, multi_encode]
      by_cases hclose : o.closeAfterReply = true
      · rw [if_pos hclose, List.append_nil] at happends
        rw [if_pos hclose]
        exact happends
      · rw [if_neg hclose] at happends ⊢
        exact happends
    · rename_i hne
      exact hbad fun pattern hargs => absurd hargs (hne pattern)
  rename_i hget
  have hother : ∀ pattern, args = [pattern] → strcaseEq sub (ascii "get") = false :=
    fun _ _ => Bool.eq_false_of_not_eq_true hget
  split
  · split
    · obtain ⟨o', hreply, hreplies⟩ := addReply_ok hw hs
      exact ⟨cfg, o', _, by rw [hreply, Option.map_some], hplain hother hreplies, hc⟩
    · exact hbad hother
  · have htext : FixedText (ascii "CONFIG subcommand must be one of GET, SET, RESETSTAT, REWRITE") := by decide +kernel
    obtain ⟨o', hreply, hreplies⟩ := addReplyError_replies hw htext
    exact ⟨cfg, o', _, by rw [hreply, Option.map_some], hplain hother hreplies, hc⟩

end

end Prez
