import Prez.Sds
import Prez.Command

/-!
# `Prez.Codec` — commands as log text

A leader stores a write command as one line of text in a 40-byte field (`clusterProcessCommand`); every node
gets the arguments back with `sdssplitargs` (`logApply`). The encoder joins the arguments with blanks through
a `printf`, using each argument as the format, and the decoder understands quotes, so the two agree on part
of the arguments only.

* `commandText` / `commandField` — the encoder, with what has no defined result as `none`.
* `Encodable` — the argument vectors that survive.
* `codec_roundtrip_iff` — the codec is right exactly on those.
-/

namespace Prez

open Lib

/-! ## The encoder -/

/-- The loop over `c->argv`: each argument is the format, its length the argument. -/
def catArgs : Sds → List Bytes → Option Sds
  | s, [] => some s
  | s, [a] => sdscatprintf s a a.length
  | s, a :: b :: argv => (sdscatprintf s a a.length).bind fun s => catArgs (sdscatlen s [32]) (b :: argv)

/-- `cmdrepr` when it is copied. The result of the last `sdscatlen` is dropped, so the line is still at
    the old address only if it had a free byte for the newline; otherwise `memcpy` reads freed memory. -/
def commandText (argv : List Bytes) : Option Bytes :=
  (catArgs Sds.empty argv).bind fun s =>
    if s.free < 1 then none else some (sdscatlen s [10]).buf

/-- `memcpy(entry.command, cmdrepr, sdslen(cmdrepr))` into a zeroed field of 40 bytes. -/
def commandField (argv : List Bytes) : Option (CStr 40) :=
  (commandText argv).bind (CStr.ofBytes? 40)

/-- The text is defined, fits its field with the terminator, and is read back as the same arguments. -/
def RoundTrips (argv : List Bytes) : Prop :=
  ∃ command, commandField argv = some command ∧ sdssplitargs command.bytes = some argv

instance (argv : List Bytes) : Decidable (RoundTrips argv) :=
  match h : commandField argv with
  | none => isFalse fun ⟨_, hc, _⟩ => by rw [h] at hc; cases hc
  | some command =>
    if hs : sdssplitargs command.bytes = some argv then isTrue ⟨command, h, hs⟩
    else isFalse fun ⟨c, hc, hs'⟩ => hs (by rw [h] at hc; cases hc; exact hs')

/-! ## The arguments that survive -/

/-- Length and free space of a string after `n` more bytes. -/
def grow (r : Nat × Nat) (n : Nat) : Nat × Nat :=
  (r.1 + n, if n ≤ r.2 then r.2 - n else min (r.1 + n) sdsMaxPrealloc)

/-- Length and free space after words of the given lengths, with a blank between two of them. -/
def growWords : Nat × Nat → List Nat → Nat × Nat
  | r, [] => r
  | r, [n] => grow r n
  | r, n :: m :: ns => growWords (grow (grow r n) 1) (m :: ns)

/-- The argument vectors that survive the codec. -/
structure Encodable (argv : List Bytes) : Prop where
  /-- no argument has a NUL, a separator, a quote or a `%` -/
  bytes : ∀ a ∈ argv, ∀ c ∈ a, c ∉ ([0, 9, 10, 13, 32, 34, 37, 39] : Bytes)
  /-- no argument is empty or starts with a vertical tab or a form feed -/
  head : ∀ a ∈ argv, ∃ c a', a = c :: a' ∧ c ≠ 11 ∧ c ≠ 12
  /-- the line with its newline leaves room for the terminator -/
  fits : wordsLength argv < 40
  /-- the line without its newline does not fill its allocation -/
  roomy : (growWords (0, 0) (argv.map List.length)).2 ≠ 0

/-! ## The text of the encoder -/

/-- Words with a blank between two of them. -/
def joinWords : List Bytes → Bytes
  | [] => []
  | [a] => a
  | a :: b :: ws => a ++ 32 :: joinWords (b :: ws)

/-- The line as words and separators: a blank behind each word, the newline behind the last. -/
def lineWords : List Bytes → List (Bytes × UInt8)
  | [] => []
  | [a] => [(a, 10)]
  | a :: b :: ws => (a, 32) :: lineWords (b :: ws)

variable {argv : List Bytes} {ws : List Bytes}

/-- The line with its separators is the text of the command. -/
theorem wordLine_lineWords (h : ws ≠ []) : wordLine (lineWords ws) = joinWords ws ++ [10] := by
  induction ws with
  | nil => exact absurd rfl h
  | cons a ws ih =>
    cases ws with
    | nil => simp [lineWords, wordLine, joinWords]
    | cons b ws =>
      have := ih (List.cons_ne_nil _ _)
      rw [lineWords, joinWords, List.append_assoc, List.cons_append, ← this]
      simp [wordLine]

theorem lineWords_fst (ws : List Bytes) : (lineWords ws).map Prod.fst = ws := by
  induction ws with
  | nil => rfl
  | cons a ws ih =>
    cases ws with
    | nil => rfl
    | cons b ws => rw [lineWords, List.map_cons, ih]

theorem lineWords_mem {p : Bytes × UInt8} (h : p ∈ lineWords ws) : p.1 ∈ ws ∧ isSep p.2 = true := by
  induction ws with
  | nil => simp [lineWords] at h
  | cons a ws ih =>
    cases ws with
    | nil =>
      rw [lineWords, List.mem_singleton] at h
      subst h
      exact ⟨List.mem_cons_self, rfl⟩
    | cons b ws =>
      rw [lineWords, List.mem_cons] at h
      rcases h with rfl | h
      · exact ⟨List.mem_cons_self, rfl⟩
      · exact ⟨List.mem_cons_of_mem _ (ih h).1, (ih h).2⟩

/-- The length of the line. -/
theorem length_joinWords (h : ws ≠ []) : (joinWords ws ++ [10]).length = wordsLength ws := by
  induction ws with
  | nil => exact absurd rfl h
  | cons a ws ih =>
    cases ws with
    | nil => simp [joinWords, wordsLength]
    | cons b ws =>
      have := ih (List.cons_ne_nil _ _)
      rw [wordsLength_cons, ← this, joinWords]
      simp only [List.length_append, List.length_cons, List.length_nil]
      omega

/-- Joining adds no mark. -/
theorem marks_joinWords (ws : List Bytes) : marks (joinWords ws) = marks ws.flatten := by
  induction ws with
  | nil => rfl
  | cons a ws ih =>
    cases ws with
    | nil => simp [joinWords]
    | cons b ws =>
      rw [joinWords, marks_append, marks_cons, ih, if_neg (by decide)]
      simp

/-- What the encoder prints for each argument. -/
def Prints (argv outs : List Bytes) : Prop :=
  List.Forall₂ (fun a out => printf (cstr a) a.length = some out) argv outs

/-- The encoder concatenates what it prints for the arguments. -/
theorem catArgs_some : ∀ {s s' : Sds}, catArgs s argv = some s' →
    ∃ outs, Prints argv outs ∧ s'.buf = s.buf ++ joinWords outs := by
  induction argv with
  | nil => intro s s' h; cases h; exact ⟨[], .nil, by simp [joinWords]⟩
  | cons a argv ih =>
    intro s s' h
    cases argv with
    | nil =>
      obtain ⟨out, hout, rfl⟩ := Option.map_eq_some_iff.mp h
      exact ⟨[out], .cons hout .nil, by simp [joinWords]⟩
    | cons b argv =>
      obtain ⟨s₁, h₁, h₂⟩ := Option.bind_eq_some_iff.mp h
      obtain ⟨out, hout, rfl⟩ := Option.map_eq_some_iff.mp h₁
      obtain ⟨outs, houts, hbuf⟩ := ih h₂
      refine ⟨out :: outs, .cons hout houts, ?_⟩
      cases houts with
      | cons _ _ => rw [hbuf]; simp [joinWords]

/-- The buffer grows as `grow` says. -/
theorem sdscatlen_grow (s : Sds) (t : Bytes) :
    ((sdscatlen s t).buf.length, (sdscatlen s t).free) = grow (s.buf.length, s.free) t.length := by
  unfold sdscatlen sdsMakeRoomFor grow sdsMaxPrealloc
  dsimp only
  split
  · simp
  · simp only [List.length_append, Prod.mk.injEq, true_and]
    split <;> omega

/-- On arguments that are printed as they are, the encoder succeeds and its free space follows the lengths. -/
theorem catArgs_plain : ∀ {s : Sds},
    (∀ a ∈ argv, printf (cstr a) a.length = some a) →
      ∃ s', catArgs s argv = some s' ∧ s'.buf = s.buf ++ joinWords argv ∧
        (s'.buf.length, s'.free) = growWords (s.buf.length, s.free) (argv.map List.length) := by
  induction argv with
  | nil => intro s _; exact ⟨s, rfl, by simp [joinWords], rfl⟩
  | cons a argv ih =>
    intro s hargv
    have ha := hargv a List.mem_cons_self
    cases argv with
    | nil =>
      refine ⟨sdscatlen s a, by simp [catArgs, sdscatprintf, ha], by simp [joinWords], ?_⟩
      rw [sdscatlen_grow]
      rfl
    | cons b argv =>
      obtain ⟨s', hs', hbuf, hroom⟩ := ih (fun c hc => hargv c (List.mem_cons_of_mem _ hc))
        (s := sdscatlen (sdscatlen s a) [32])
      refine ⟨s', by simp [catArgs, sdscatprintf, ha, hs'], ?_, ?_⟩
      · rw [hbuf]; simp [joinWords]
      · rw [hroom, sdscatlen_grow, sdscatlen_grow]
        rfl

/-! ## Encodable arguments survive -/

/-- An argument is a plain word. -/
theorem Encodable.plainWord (h : Encodable argv) {a : Bytes} (ha : a ∈ argv) : PlainWord a := by
  have hplain : ∀ c ∈ a, isPlain c = true ∧ ¬(c = 32 ∨ c = 9 ∨ c = 10 ∨ c = 13) := by
    intro c hc
    have hb := h.bytes a ha c hc
    simp only [List.mem_cons, List.not_mem_nil, or_false, not_or] at hb
    obtain ⟨h0, h9, h10, h13, h32, h34, h37, h39⟩ := hb
    exact ⟨isPlain_iff.mpr ⟨by simp [isSep, h9, h10, h13, h32], h34, h39⟩, by tauto⟩
  refine ⟨fun c hc => (hplain c hc).1, ?_⟩
  obtain ⟨c, a', rfl, h11, h12⟩ := h.head a ha
  have hc := (hplain c List.mem_cons_self).2
  refine ⟨c, a', rfl, ?_⟩
  simp only [not_or] at hc
  simp [isSpace, hc, h11, h12]

theorem Encodable.notMem (h : Encodable argv) {a : Bytes} (ha : a ∈ argv) : (0 : UInt8) ∉ a ∧ (37 : UInt8) ∉ a :=
  ⟨fun h0 => h.bytes a ha 0 h0 (by decide), fun h37 => h.bytes a ha 37 h37 (by decide)⟩

theorem length_le_wordsLength (ws : List Bytes) : ws.length ≤ wordsLength ws := by
  induction ws with
  | nil => simp
  | cons a ws ih => rw [wordsLength_cons, List.length_cons]; omega

/-- The conditions are enough. -/
theorem roundTrips_of_encodable (h : Encodable argv) : RoundTrips argv := by
  have hprint : ∀ a ∈ argv, printf (cstr a) a.length = some a := by
    intro a ha
    rw [cstr_eq_self (h.notMem ha).1, printf_plain (h.notMem ha).2]
  obtain ⟨s, hs, hbuf, hroom⟩ := catArgs_plain (s := Sds.empty) hprint
  have hfree : s.free ≠ 0 := by
    have := h.roomy
    rwa [show ((0, 0) : Nat × Nat) = (Sds.empty.buf.length, Sds.empty.free) from rfl, ← hroom] at this
  have hne : argv ≠ [] := by
    rintro rfl
    exact h.roomy rfl
  -- the newline finds a free byte, so the pointer that is copied from is still good
  have htext : commandText argv = some (joinWords argv ++ [10]) := by
    rw [commandText, hs, Option.bind_some, if_neg (by omega), sdscatlen_buf, hbuf]
    rfl
  have hnul : (0 : UInt8) ∉ joinWords argv ++ [10] := by
    rw [← wordLine_lineWords hne]
    intro hm
    obtain ⟨p, hp, hm⟩ := List.mem_flatMap.mp hm
    obtain ⟨hword, hsep⟩ := lineWords_mem hp
    rcases List.mem_append.mp hm with hm | hm
    · exact (h.notMem hword).1 hm
    · rw [← List.mem_singleton.mp hm] at hsep
      cases hsep
  have hlen := length_joinWords hne
  obtain ⟨command, hcommand⟩ : ∃ command, CStr.ofBytes? 40 (joinWords argv ++ [10]) = some command :=
    Option.isSome_iff_exists.mp (CStr.ofBytes?_isSome.mpr ⟨hnul, by rw [hlen]; exact h.fits⟩)
  refine ⟨command, by rw [commandField, htext, Option.bind_some, hcommand], ?_⟩
  rw [CStr.ofBytes?_eq_some.mp hcommand, sdssplitargs, cstr_eq_self hnul, ← wordLine_lineWords hne,
    sdssplitargsFrom_plain, lineWords_fst]
  · intro p hp
    exact ⟨h.plainWord (lineWords_mem hp).1, (lineWords_mem hp).2⟩
  · have hw : (lineWords argv).length = argv.length := by
      rw [← List.length_map (f := Prod.fst), lineWords_fst]
    have hle := length_le_wordsLength argv
    rw [wordLine_lineWords hne, hlen, hw]
    omega

/-! ## Nothing else does -/

/-- Formatting an argument vector adds no marks, and costs one if an argument has a `%` before its NUL. -/
theorem Prints.marks {argv outs : List Bytes} (h : Prints argv outs) :
    marks outs.flatten ≤ marks argv.flatten ∧
      ((∃ a ∈ argv, (37 : UInt8) ∈ cstr a) → marks outs.flatten < marks argv.flatten) := by
  induction h with
  | nil => simp
  | @cons a out argv outs hout _ ih =>
    obtain ⟨hle, hlt⟩ := printf_marks hout
    have hcstr : Lib.marks (cstr a) ≤ Lib.marks a := (List.takeWhile_prefix _).sublist.countP_le
    rw [List.flatten_cons, List.flatten_cons, marks_append, marks_append]
    refine ⟨by omega, ?_⟩
    rintro ⟨b, hb, h37⟩
    rcases List.mem_cons.mp hb with rfl | hb
    · have := hlt h37
      omega
    · have := ih.2 ⟨b, hb, h37⟩
      omega

/-- Without a `%`, an argument is printed up to its first NUL. -/
theorem Prints.eq_cstr {argv outs : List Bytes} (h : Prints argv outs)
    (h37 : ∀ a ∈ argv, (37 : UInt8) ∉ cstr a) : outs = argv.map cstr := by
  induction h with
  | nil => rfl
  | @cons a out argv outs hout _ ih =>
    rw [printf_plain (h37 a List.mem_cons_self)] at hout
    rw [List.map_cons, ih (fun b hb => h37 b (List.mem_cons_of_mem _ hb)), Option.some.inj hout]

/-- A NUL makes a word shorter. -/
theorem wordsLength_cstr (argv : List Bytes) :
    wordsLength (argv.map cstr) ≤ wordsLength argv ∧
      (wordsLength (argv.map cstr) = wordsLength argv → ∀ a ∈ argv, cstr a = a) := by
  induction argv with
  | nil => simp
  | cons a argv ih =>
    have hpre : cstr a <+: a := List.takeWhile_prefix _
    have hle := hpre.length_le
    rw [List.map_cons, wordsLength_cons, wordsLength_cons]
    refine ⟨by omega, ?_⟩
    intro heq b hb
    rcases List.mem_cons.mp hb with rfl | hb
    · exact hpre.eq_of_length (by omega)
    · exact ih.2 (by omega) b hb

/-- **The conditions are needed.** -/
theorem encodable_of_roundTrips (h : RoundTrips argv) : Encodable argv := by
  obtain ⟨command, hfield, hsplit⟩ := h
  obtain ⟨text, htext, hcommand⟩ := Option.bind_eq_some_iff.mp hfield
  obtain ⟨s, hs, htext⟩ := Option.bind_eq_some_iff.mp htext
  obtain ⟨outs, houts, hbuf⟩ := catArgs_some hs
  have hfree : ¬s.free < 1 := by
    intro hlt
    rw [if_pos hlt] at htext
    cases htext
  rw [if_neg hfree, sdscatlen_buf, hbuf] at htext
  -- the line is what was printed for the arguments, whatever that is
  have hbytes : command.bytes = joinWords outs ++ [10] := by
    rw [CStr.ofBytes?_eq_some.mp hcommand, ← Option.some.inj htext]
    rfl
  rw [sdssplitargs, cstr_eq_self command.nulFree, hbytes] at hsplit
  have hne : argv ≠ [] := by
    rintro rfl
    cases hs
    exact hfree (by decide)
  have houtsne : outs ≠ [] := by
    rintro rfl
    cases houts
    exact hne rfl
  -- a `%` would have cost a mark that the splitter cannot give back
  have h37 : ∀ a ∈ argv, (37 : UInt8) ∉ cstr a := by
    intro a ha hmem
    have hlost := houts.marks.2 ⟨a, ha, hmem⟩
    have hback := sdssplitargsFrom_marks _ _ hsplit
    rw [marks_append, marks_joinWords, marks_cons, if_neg (by decide), marks_nil] at hback
    omega
  -- so the line has exactly the bytes that the words need
  have heq : outs = argv.map cstr := houts.eq_cstr h37
  obtain ⟨hpay, hplain⟩ := sdssplitargsFrom_length _ _ (.inr ⟨_, rfl⟩) hsplit
  rw [length_joinWords houtsne, heq] at hpay hplain
  obtain ⟨hle, hcstr⟩ := wordsLength_cstr argv
  have hself : ∀ a ∈ argv, cstr a = a := hcstr (by omega)
  have hwords : ∀ a ∈ argv, PlainWord a := hplain (by omega)
  have h0 : ∀ a ∈ argv, (0 : UInt8) ∉ a := fun a ha => hself a ha ▸ zero_notMem_cstr a
  -- the four conditions, with every argument a plain word without NUL and `%`
  refine ⟨?_, ?_, ?_, ?_⟩
  · intro a ha c hc hbad
    obtain ⟨hsep, h34, h39⟩ := isPlain_iff.mp ((hwords a ha).1 c hc)
    simp only [List.mem_cons, List.not_mem_nil, or_false] at hbad
    rcases hbad with rfl | rfl | rfl | rfl | rfl | rfl | rfl | rfl
    · exact h0 a ha hc
    · cases hsep
    · cases hsep
    · cases hsep
    · cases hsep
    · exact h34 rfl
    · exact h37 a ha (by rw [hself a ha]; exact hc)
    · exact h39 rfl
  · intro a ha
    obtain ⟨c, a', rfl, hc⟩ := (hwords a ha).2
    refine ⟨c, a', rfl, ?_, ?_⟩
    · rintro rfl; cases hc
    · rintro rfl; cases hc
  · have hfit := command.fits
    rw [hbytes, length_joinWords houtsne, heq] at hfit
    omega
  · have hprint : ∀ a ∈ argv, printf (cstr a) a.length = some a := by
      intro a ha
      rw [printf_plain (h37 a ha), hself a ha]
    obtain ⟨s', hs', -, hroom⟩ := catArgs_plain (s := Sds.empty) hprint
    rw [hs] at hs'
    cases hs'
    have : (growWords (0, 0) (argv.map List.length)).2 = s.free := congrArg Prod.snd hroom.symm
    omega

/-! ## Main result -/

/-- **The command codec.** The text of an argument vector is defined, fits its field and is read back as
    the same vector exactly when the vector is `Encodable`. -/
theorem codec_roundtrip_iff (argv : List Bytes) : RoundTrips argv ↔ Encodable argv :=
  ⟨encodable_of_roundTrips, roundTrips_of_encodable⟩

/-- `set a "b c"`: a leader admits the command, and followers read four arguments. -/
theorem codec_splits_blank :
    isWrite [[115, 101, 116], [97], [98, 32, 99]] = true ∧
      ¬RoundTrips [[115, 101, 116], [97], [98, 32, 99]] := by
  decide

end Prez
