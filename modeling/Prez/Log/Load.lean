import Prez.Log.State
import Prez.Lib.Prefix

/-!
# `Prez.Log.Load` — reading the log file back

`loadLogFile` walks the file with `fgets`/`fread` and rebuilds the list. The walk is modelled on the
unread input: the loop over records (`loadRecords`), the loop over a record's arguments (`loadFields`),
and the `switch` that stores one argument (`loadField`). A freshly allocated `entry` holds whatever its
memory held before (`mem`, one value per record).

The last section gives the two facts the recovery theorems are built from: a complete argument is consumed
whole (`loadFields_bulk`), a torn one ends in an error exit (`loadFields_torn`).
-/

namespace Prez

open Lib

/-- The two error exits of `loadLogFile`; both end in `exit(1)`. -/
inductive LoadErr where
  | readerr
  | fmterr
deriving DecidableEq

/-- A loaded `logEntry`: its text fields are the C strings found in the 40 copied bytes. -/
structure LoadedEntry where
  index : Int
  term : Int
  commandName : Bytes
  command : Bytes
deriving DecidableEq

/-- A loaded `logEntryNode`. -/
structure LoadedNode where
  logEntry : LoadedEntry
  position : Nat
deriving DecidableEq

/-- `memcpy(field, argsds, 40)`, read back as a C string. The byte after the payload is the terminator of
    `argsds`, so what lies behind it in memory is never part of the string. -/
def fieldText (argsds : Bytes) : Bytes := cstr (argsds.take 40)

/-- The `switch(j)` of the argument loop. -/
def loadField (j : Nat) (argsds : Bytes) (entry : LoadedEntry) : Except LoadErr LoadedEntry :=
  match j with
  | 0 => match string2ll argsds with
    | some v => .ok { entry with index := v }
    | none => .error .readerr
  | 1 => match string2ll argsds with
    | some v => .ok { entry with term := v }
    | none => .error .readerr
  | 2 => .ok { entry with commandName := fieldText argsds }
  | 3 => .ok { entry with command := fieldText argsds }
  | _ => .error .fmterr

/-- `for (j = 0; j < argc; j++)`, with `todo` arguments to go: the entry, the bytes accounted for and the
    unread input. -/
def loadFields : (todo j : Nat) → Bytes → LoadedEntry → Nat → Except LoadErr (LoadedEntry × Nat × Bytes)
  | 0, _, inp, entry, loglen => .ok (entry, loglen, inp)
  | todo + 1, j, inp, entry, loglen =>
    match fgets 128 inp with
    | none => .error .readerr
    | some (buf, inp) =>
      if buf.head? ≠ some 36 then .error .fmterr
      else
        -- a length too large to allocate ends the process too, as the short read below does
        let len := (toULong (strtol buf.tail)).toNat
        match (if len = 0 then some ([], inp) else fread len inp) with
        | none => .error .fmterr
        | some (argsds, inp) =>
          match loadField j argsds entry with
          | .error err => .error err
          | .ok entry =>
            match fread 2 inp with
            | none => .error .fmterr
            | some (_, inp) => loadFields todo (j + 1) inp entry (loglen + (len + (cstr buf).length) + 2)

/-- `while(1)`, one record a turn. Every turn reads a line, so a fuel above the length of the input never
    runs out. -/
def loadRecords (mem : Nat → LoadedEntry) :
    (fuel : Nat) → Bytes → Nat → List LoadedNode → Except LoadErr (List LoadedNode × Nat)
  | 0, _, _, _ => .error .readerr
  | fuel + 1, inp, size, nodes =>
    match fgets 128 inp with
    | none => .ok (nodes, size)
    | some (buf, inp) =>
      if buf.head? ≠ some 42 then .error .fmterr
      else
        let argc := atoi buf.tail
        if argc < 1 then .error .fmterr
        else
          match loadFields argc.toNat 0 inp (mem nodes.length) (cstr buf).length with
          | .error err => .error err
          | .ok (entry, loglen, inp) =>
            loadRecords mem fuel inp (size + loglen) (nodes ++ [⟨entry, size⟩])

/-- `loadLogFile()` on a file that can be opened: the list and `log_current_size`, or the error exit. -/
def loadLogFile (mem : Nat → LoadedEntry) (file : Bytes) : Except LoadErr (List LoadedNode × Nat) :=
  if file = [] then .ok ([], 0) else loadRecords mem (file.length + 1) file 0 []

/-! ## The shape of a record -/

/-- A length line. -/
def lengthLine (n : Nat) : Bytes := 36 :: decimal n ++ [13, 10]

/-- One argument as `catLogEntry` writes it. -/
def bulk (o : Bytes) : Bytes := lengthLine o.length ++ o ++ [13, 10]

/-- The count line of a record of four arguments. -/
def countLine : Bytes := [42, 52, 13, 10]

theorem ll2string_nat {n k : Nat} (h : n < 10 ^ 18) (hk : 20 < k) : ll2string k n = decimal n := by
  have hll : LongLong (n : Int) := by unfold LongLong; omega
  have hlen := llText_length hll
  rw [ll2string_eq (by omega), llText, if_neg (by omega), Int.natAbs_natCast]

theorem catLogEntry_eq {argv : List Bytes} (hargv : ∀ o ∈ argv, o.length < 10 ^ 18) :
    ∀ dst, argv.foldl
      (fun dst o => dst ++ (36 :: ll2string 31 o.length ++ [13, 10]) ++ o ++ [13, 10]) dst
        = dst ++ (argv.map bulk).flatten := by
  induction argv with
  | nil => intro dst; simp
  | cons o argv ih =>
    intro dst
    have ho : o.length < 10 ^ 18 := hargv o List.mem_cons_self
    rw [List.foldl_cons, ih (fun p hp => hargv p (List.mem_cons_of_mem _ hp)),
      ll2string_nat ho (by omega)]
    simp [bulk, lengthLine, List.append_assoc]

/-- A record is its count line and its four arguments. -/
theorem catLogEntry_four {a b c d : Bytes} (h : ∀ o ∈ [a, b, c, d], o.length < 10 ^ 18) :
    catLogEntry [] [a, b, c, d] = countLine ++ (bulk a ++ (bulk b ++ (bulk c ++ bulk d))) := by
  have h4 : ll2string 31 (([a, b, c, d] : List Bytes).length : Int) = [52] := by
    have hfour : ([a, b, c, d] : List Bytes).length = 4 := rfl
    rw [hfour, ll2string_nat (by omega) (by omega), decimal_lt (by omega)]
    decide
  rw [catLogEntry, h4, catLogEntry_eq h]
  simp [countLine]

theorem logRecord_eq {e : LogEntry} (hi : LongLong e.index) (ht : LongLong e.term) :
    logRecord e = countLine ++ (bulk (llText e.index) ++ (bulk (llText e.term) ++
      (bulk e.commandName.bytes ++ bulk e.command.bytes))) := by
  have hni := llText_length hi
  have hnt := llText_length ht
  have hn := e.commandName.fits
  have hc := e.command.fits
  unfold logRecord logArgv
  rw [ll2string_eq (show (llText e.index).length < 32 by omega),
    ll2string_eq (show (llText e.term).length < 32 by omega), catLogEntry_four]
  intro o ho
  simp only [List.mem_cons, List.not_mem_nil, or_false] at ho
  rcases ho with rfl | rfl | rfl | rfl <;> omega

/-! ## Reading a length line -/

theorem strtol_decimal {n : Nat} (h : n < 2 ^ 63) : strtol (decimal n ++ [13, 10]) = n := by
  have hzero : (0 : UInt8) ∉ decimal n ++ [13, 10] := by
    intro hm
    rcases List.mem_append.mp hm with hm | hm
    · exact (isDigit_plain (decimal_isDigit n 0 hm)).1 rfl
    · revert hm; decide
  have hval : digitsValue 0 (decimal n ++ [13, 10]) = n := by
    rw [digitsValue_append (decimal_isDigit n), digitsValue_stop (by decide), digitsValue_decimal]
    omega
  obtain ⟨c, b, hcb⟩ : ∃ c b, decimal n = c :: b := List.exists_cons_of_ne_nil (decimal_ne_nil n)
  have hc : isDigit c = true := decimal_isDigit n c (hcb ▸ List.mem_cons_self)
  have hrange := (isDigit_iff c).mp hc
  have h45 : c ≠ 45 := fun heq => by subst heq; revert hrange; decide
  have h43 : c ≠ 43 := fun heq => by subst heq; revert hrange; decide
  rw [hcb] at hval hzero ⊢
  rw [List.cons_append] at hval hzero ⊢
  rw [strtol, cstr_eq_self hzero, List.dropWhile_cons, if_neg (by simp [(isDigit_plain hc).2.2.2])]
  split
  · rename_i heq; injection heq with h1 _; exact absurd h1 h45
  · rename_i heq; injection heq with h1 _; exact absurd h1 h43
  · rw [hval]; omega

/-- The number on a length line. -/
theorem lengthLine_value {n : Nat} (h : n < 100) : (toULong (strtol (lengthLine n).tail)).toNat = n := by
  have htail : (lengthLine n).tail = decimal n ++ [13, 10] := rfl
  rw [htail, strtol_decimal (by omega), toULong, if_neg (by omega)]
  omega

/-- The part of a length line before its newline. -/
theorem lengthLine_eq (n : Nat) : lengthLine n = (36 :: decimal n ++ [13]) ++ [10] := by
  simp [lengthLine]

theorem lengthLine_noNewline (n : Nat) : (10 : UInt8) ∉ 36 :: decimal n ++ [13] := by
  intro hm
  simp only [List.cons_append, List.mem_cons, List.mem_append, List.not_mem_nil, or_false] at hm
  rcases hm with hm | hm | hm
  · revert hm; decide
  · exact (isDigit_plain (decimal_isDigit n 10 hm)).2.1 rfl
  · revert hm; decide

theorem cstr_lengthLine (n : Nat) : cstr (lengthLine n) = lengthLine n := by
  apply cstr_eq_self
  intro hm
  simp only [lengthLine, List.cons_append, List.mem_cons, List.mem_append, List.not_mem_nil,
    or_false] at hm
  rcases hm with hm | hm | hm | hm
  · revert hm; decide
  · exact (isDigit_plain (decimal_isDigit n 0 hm)).1 rfl
  · revert hm; decide
  · revert hm; decide

theorem fgets_lengthLine {n : Nat} (h : n < 100) (rest : Bytes) :
    fgets 128 (lengthLine n ++ rest) = some (lengthLine n, rest) := by
  have hlen : (decimal n).length ≤ 2 := decimal_length_le (k := 1) (by omega)
  have hfit : (36 :: decimal n ++ [13]).length + 1 < 128 := by simp; omega
  rw [lengthLine_eq, List.append_assoc]
  exact fgets_line (lengthLine_noNewline n) hfit

/-! ## One argument -/

/-- `len && fread(argsds,len,1,fp)` on a payload of that length: an empty one is not read at all. -/
theorem read_payload (o inp : Bytes) :
    (if o.length = 0 then some ([], o ++ inp) else fread o.length (o ++ inp)) = some (o, inp) := by
  split
  · rename_i h0
    rw [List.length_eq_zero_iff.mp h0]
    rfl
  · exact fread_append o inp

/-- A complete argument is consumed whole and stored by the `switch`. -/
theorem loadFields_bulk {todo j loglen : Nat} {o rest : Bytes} {entry : LoadedEntry}
    (entry' : LoadedEntry) (ho : o.length < 100) (hj : loadField j o entry = .ok entry') :
    loadFields (todo + 1) j (bulk o ++ rest) entry loglen
      = loadFields todo (j + 1) rest entry' (loglen + (bulk o).length) := by
  have hlen := lengthLine_value ho
  have hread := read_payload o ([13, 10] ++ rest)
  have hcrlf : fread 2 ([13, 10] ++ rest) = some ([13, 10], rest) := fread_append [13, 10] rest
  rw [bulk, List.append_assoc, List.append_assoc, loadFields, fgets_lengthLine ho]
  simp only [hlen, hread, hj, hcrlf, cstr_lengthLine]
  rw [if_neg (by simp [lengthLine])]
  congr 1
  simp only [List.length_append, List.length_cons, List.length_nil]
  omega

/-- A line cut before its newline ends the file; whatever length it still shows, the reads after it fail. -/
theorem loadFields_torn_line {todo j loglen n : Nat} {t : Bytes} {entry : LoadedEntry} (hn : n < 100)
    (ht : t <+: lengthLine n) (hne : t ≠ lengthLine n) :
    ∃ err, loadFields (todo + 1) j t entry loglen = .error err := by
  cases ht0 : t with
  | nil => exact ⟨.readerr, rfl⟩
  | cons c t' =>
    subst ht0
    have hlen : (decimal n).length ≤ 2 := decimal_length_le (k := 1) (by omega)
    have hpre : c :: t' <+: 36 :: decimal n ++ [13] := by
      rw [lengthLine_eq] at ht hne
      rcases prefix_append_cases ht with h | ⟨t'', h1, h2⟩
      · exact h.1
      · rcases List.prefix_cons_iff.mp h2 with rfl | ⟨u, rfl, hu⟩
        · exact h1.trans (List.append_nil _) ▸ List.prefix_rfl
        · rw [List.prefix_nil.mp hu] at h1
          exact absurd h1 hne
    have hnl : (10 : UInt8) ∉ c :: t' := fun hm => lengthLine_noNewline n (hpre.subset hm)
    have hlt : (c :: t').length < 128 := by
      have := hpre.length_le
      simp only [List.length_append, List.length_cons, List.length_nil] at this ⊢
      omega
    rw [loadFields, fgets_eof (by simp) hnl hlt]
    dsimp only
    split
    · exact ⟨_, rfl⟩
    · split
      · exact ⟨_, rfl⟩
      · rename_i argsds inp hread
        -- nothing is left to read, so only a zero length got this far
        have hinp : inp = [] := by
          split at hread
          · cases hread; rfl
          · rw [fread, List.length_nil, if_neg (by omega)] at hread
            cases hread
        subst hinp
        split
        · exact ⟨_, rfl⟩
        · exact ⟨_, rfl⟩

/-- **A torn argument is an error.** Whatever proper prefix of an argument the file ends in, the argument
    loop takes an error exit. -/
theorem loadFields_torn {todo j loglen : Nat} {o t : Bytes} {entry : LoadedEntry} (ho : o.length < 100)
    (ht : t <+: bulk o) (hne : t ≠ bulk o) :
    ∃ err, loadFields (todo + 1) j t entry loglen = .error err := by
  have hlen := lengthLine_value ho
  rw [bulk, List.append_assoc] at ht hne
  rcases prefix_append_cases ht with ⟨hl, hlne⟩ | ⟨u, rfl, hu⟩
  · exact loadFields_torn_line ho hl hlne
  rw [loadFields, fgets_lengthLine ho]
  simp only [hlen]
  rw [if_neg (by simp [lengthLine])]
  rcases prefix_append_cases hu with ⟨hp, hpne⟩ | ⟨v, rfl, hv⟩
  · -- cut inside the payload
    have hshort := length_lt_of_prefix hp hpne
    rw [if_neg (by omega), fread_short hshort]
    exact ⟨_, rfl⟩
  · -- cut inside the line break behind the payload
    have hread := read_payload o v
    have hvlt : v.length < 2 := by
      apply length_lt_of_prefix hv
      rintro rfl
      exact hne (by simp)
    simp only [hread, fread_short hvlt]
    split
    · exact ⟨_, rfl⟩
    · exact ⟨_, rfl⟩

end Prez
