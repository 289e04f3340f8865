import Prez.Quote
import Prez.Split

/-!
# `Prez.Config.Lines` — the options of the command line as configuration text

`main` writes the `--name value…` arguments as a configuration text, one line for each name with its values
quoted, and `loadServerConfig` hands it, behind a newline, to the parser of configuration files. The parser
cuts the text into lines and the lines into arguments. `quoting_round_trip` puts the two together.
-/

namespace Prez

open Lib

/-! ## Reading -/

/-- `strchr(cset, c) != NULL`: the terminator of `cset` is found as well. -/
def inCset (cset : Bytes) (c : UInt8) : Bool := c == 0 || cset.contains c

/-- `sdstrim(s, cset)`, on the contents. -/
def sdstrim (s cset : Bytes) : Bytes := ((s.dropWhile (inCset cset)).reverse.dropWhile (inCset cset)).reverse

/-- `sdstolower(s)`, on the contents. -/
def sdstolower (s : Bytes) : Bytes := s.map toLower

/-- The trim set of a configuration line, `" \t\r\n"`. -/
def lineBlanks : Bytes := [32, 9, 13, 10]

/-- What `loadServerConfigFromString` makes of one line: `some []` for a line it skips, `none` for unbalanced
    quotes. -/
def configArgs (line : Bytes) : Option (List Bytes) :=
  let line := sdstrim line lineBlanks
  if line.head? = some 35 ∨ cstr line = [] then some []
  else (sdssplitargs line).map fun argv => argv.modifyHead sdstolower

/-- `sdssplitlen(config, strlen(config), "\n", 1, &totlines)`. An `sds` is shorter than 2³¹ bytes. -/
def configLines (config : Bytes) : Option (List Bytes) :=
  if (cstr config).length < 2 ^ 31 then (Split.sdssplitlen (cstr config) [10]).bind id else none

/-- The argument vectors of a configuration text, those of skipped lines left out. -/
def configVectors (config : Bytes) : Option (List (List Bytes)) :=
  (configLines config).bind fun lines => (lines.mapM configArgs).map fun vs => vs.filter (· ≠ [])

/-! ## Writing -/

/-- `argv[j][0] == '-' && argv[j][1] == '-'`. -/
def isOptionName (arg : Bytes) : Bool := [45, 45].isPrefixOf arg

/-- The loop `while(j != argc)` of `main` that collects the options. -/
def mainOptions : List Bytes → Bytes → Option Bytes
  | [], options => some options
  | arg :: argv, options =>
    if isOptionName arg then
      (if options.length ≠ 0 then sdsAppend options [10] else some options).bind fun options =>
        (sdsAppend options (cstr (arg.drop 2))).bind fun options =>
          (sdsAppend options [32]).bind (mainOptions argv)
    else
      (sdscatrepr options (cstr arg)).bind fun options => (sdsAppend options [32]).bind (mainOptions argv)

/-- The line of one option. -/
def optionLine (name : Bytes) (values : List Bytes) : Bytes := name ++ 32 :: values.flatMap fun v => reprText v ++ [32]

/-- The text of a list of options. -/
def optionsText (opts : List (Bytes × List Bytes)) : Bytes :=
  ([10] : Bytes).intercalate (opts.map fun o => optionLine o.1 o.2)

/-- The arguments a user types for a list of options. -/
def optionsArgv (opts : List (Bytes × List Bytes)) : List Bytes := opts.flatMap fun o => (45 :: 45 :: o.1) :: o.2

/-- A name of an option: a C string that is not empty, has no blanks and no quotes and is no comment. -/
structure OptionName (name : Bytes) : Prop where
  ne : name ≠ []
  plain : ∀ c ∈ name, c ≠ 0 ∧ isSpace c = false ∧ c ≠ 34 ∧ c ≠ 39
  head : name.head? ≠ some 35

/-- A value of an option: a C string that is not taken for a name. -/
structure OptionValue (value : Bytes) : Prop where
  cstring : (0 : UInt8) ∉ value
  noName : ¬ [45, 45] <+: value

theorem mainOptions_value {v options : Bytes} {argv : List Bytes} (hv : OptionValue v)
    (hlen : (options ++ (reprText v ++ [32])).length < 2 ^ 31) :
    mainOptions (v :: argv) options = mainOptions argv (options ++ (reprText v ++ [32])) := by
  have hname : isOptionName v = false := by
    rw [isOptionName, ← Bool.not_eq_true, List.isPrefixOf_iff_prefix]
    exact hv.noName
  rw [← List.append_assoc] at hlen ⊢
  have hrepr : (options ++ reprText v).length < 2 ^ 31 := by
    rw [List.length_append] at hlen
    omega
  rw [mainOptions, hname, if_neg (by simp), cstr_eq_self hv.cstring, sdscatrepr_eq hrepr, Option.bind_some,
    sdsAppend_eq hlen, Option.bind_some]

theorem mainOptions_values {argv : List Bytes} (values : List Bytes) :
    (∀ v ∈ values, OptionValue v) → ∀ options : Bytes,
      (options ++ values.flatMap fun v => reprText v ++ [32]).length < 2 ^ 31 →
      mainOptions (values ++ argv) options = mainOptions argv (options ++ values.flatMap fun v => reprText v ++ [32]) := by
  induction values with
  | nil => intro _ options _; simp
  | cons v values ih =>
    intro hvs options hlen
    rw [List.flatMap_cons, ← List.append_assoc] at hlen ⊢
    have hone : (options ++ (reprText v ++ [32])).length < 2 ^ 31 := by
      rw [List.length_append] at hlen
      omega
    rw [List.cons_append, mainOptions_value (hvs v List.mem_cons_self) hone,
      ih (fun w hw => hvs w (List.mem_cons_of_mem _ hw)) _ hlen]

/-- One option behind a text `before` that already ends where the new line starts. -/
theorem mainOptions_option {name options before : Bytes} {values argv : List Bytes} (hn : OptionName name)
    (hvs : ∀ v ∈ values, OptionValue v)
    (hbefore : before = if options = [] then [] else options ++ [10])
    (hlen : (before ++ optionLine name values).length < 2 ^ 31) :
    mainOptions ((45 :: 45 :: name) :: (values ++ argv)) options = mainOptions argv (before ++ optionLine name values) := by
  have hzero : (0 : UInt8) ∉ name := fun h => (hn.plain 0 h).1 rfl
  have hline : before ++ optionLine name values
      = before ++ name ++ [32] ++ values.flatMap fun v => reprText v ++ [32] := by
    simp [optionLine]
  rw [hline] at hlen ⊢
  have h2 : (before ++ name ++ [32]).length < 2 ^ 31 := by
    rw [List.length_append] at hlen
    omega
  have h1 : (before ++ name).length < 2 ^ 31 := by
    rw [List.length_append] at h2
    omega
  have h0 : (if options.length ≠ 0 then sdsAppend options [10] else some options) = some before := by
    by_cases ho : options = []
    · subst ho
      rw [if_neg (by simp), hbefore, if_pos rfl]
    · rw [if_neg ho] at hbefore
      have hpos : options.length ≠ 0 := fun h => ho (List.eq_nil_of_length_eq_zero h)
      have hb : (options ++ [10]).length < 2 ^ 31 := by
        rw [← hbefore]
        rw [List.length_append] at h1
        omega
      rw [if_pos hpos, sdsAppend_eq hb, hbefore]
  rw [mainOptions, if_pos (show isOptionName (45 :: 45 :: name) = true by simp [isOptionName]), h0,
    Option.bind_some, show List.drop 2 (45 :: 45 :: name) = name from rfl,
    cstr_eq_self hzero, sdsAppend_eq h1, Option.bind_some, sdsAppend_eq h2, Option.bind_some,
    mainOptions_values values hvs _ hlen]

theorem optionsText_cons_cons (o p : Bytes × List Bytes) (opts : List (Bytes × List Bytes)) :
    optionsText (o :: p :: opts) = optionLine o.1 o.2 ++ 10 :: optionsText (p :: opts) := by
  simp [optionsText, List.intercalate_cons_cons]

/-- **The loop of `main` writes the options text.** -/
theorem mainOptions_eq (opts : List (Bytes × List Bytes)) :
    (∀ o ∈ opts, OptionName o.1 ∧ ∀ v ∈ o.2, OptionValue v) → ∀ options before : Bytes, opts ≠ [] →
      before = (if options = [] then [] else options ++ [10]) →
      (before ++ optionsText opts).length < 2 ^ 31 →
      mainOptions (optionsArgv opts) options = some (before ++ optionsText opts) := by
  induction opts with
  | nil => intro _ options before h; exact absurd rfl h
  | cons o opts ih =>
    intro hopts options before _ hbefore hlen
    obtain ⟨hn, hvs⟩ := hopts o List.mem_cons_self
    have hargv : optionsArgv (o :: opts) = (45 :: 45 :: o.1) :: (o.2 ++ optionsArgv opts) := by simp [optionsArgv]
    cases opts with
    | nil =>
      have htext : optionsText [o] = optionLine o.1 o.2 := by simp [optionsText]
      rw [htext] at hlen ⊢
      rw [hargv, mainOptions_option hn hvs hbefore hlen]
      rfl
    | cons p opts =>
      rw [optionsText_cons_cons] at hlen ⊢
      have hone : (before ++ optionLine o.1 o.2).length < 2 ^ 31 := by
        rw [← List.append_assoc, List.length_append] at hlen
        omega
      have hne : before ++ optionLine o.1 o.2 ≠ [] := by simp [optionLine]
      have hstart : before ++ (optionLine o.1 o.2 ++ 10 :: optionsText (p :: opts))
          = before ++ optionLine o.1 o.2 ++ [10] ++ optionsText (p :: opts) := by simp
      rw [hstart] at hlen ⊢
      rw [hargv, mainOptions_option hn hvs hbefore hone]
      exact ih (fun q hq => hopts q (List.mem_cons_of_mem _ hq)) _ _ (List.cons_ne_nil _ _) (by rw [if_neg hne]) hlen

/-! ## Round trip -/

/-- Trimming takes a blank off the end of a text that has none at either end. -/
theorem sdstrim_blank {t : Bytes} {a z : UInt8} (ha : t.head? = some a) (hz : t.getLast? = some z)
    (hac : inCset lineBlanks a = false) (hzc : inCset lineBlanks z = false) : sdstrim (t ++ [32]) lineBlanks = t := by
  have hfront : (t ++ [32]).dropWhile (inCset lineBlanks) = t ++ [32] := by
    cases t with
    | nil => cases ha
    | cons b t =>
      rw [List.head?_cons, Option.some.injEq] at ha
      subst ha
      exact List.dropWhile_cons_of_neg (by simp [hac])
  have hback : (t.reverse).dropWhile (inCset lineBlanks) = t.reverse := by
    rw [← List.head?_reverse] at hz
    cases hr : t.reverse with
    | nil => rfl
    | cons b r =>
      rw [hr, List.head?_cons, Option.some.injEq] at hz
      subst hz
      exact List.dropWhile_cons_of_neg (by simp [hzc])
  rw [sdstrim, hfront, List.reverse_append, List.reverse_singleton, List.singleton_append,
    List.dropWhile_cons_of_pos (by decide), hback, List.reverse_reverse]

theorem inCset_of_plain {c : UInt8} (h0 : c ≠ 0) (hs : isSpace c = false) : inCset lineBlanks c = false := by
  simp only [isSpace, Bool.or_eq_false_iff, beq_eq_false_iff_ne] at hs
  simp [inCset, lineBlanks, h0, hs]

variable {opts : List (Bytes × List Bytes)} {name : Bytes}

theorem OptionName.plainWord (hn : OptionName name) : PlainWord name := by
  constructor
  · intro c hc
    obtain ⟨_, hs, h34, h39⟩ := hn.plain c hc
    refine isPlain_iff.mpr ⟨?_, h34, h39⟩
    rw [← Bool.not_eq_true]
    intro hsep
    rw [isSpace_of_isSep hsep] at hs
    cases hs
  · obtain ⟨c, w, rfl⟩ := List.exists_cons_of_ne_nil hn.ne
    exact ⟨c, w, rfl, (hn.plain c List.mem_cons_self).2.1⟩

/-- The texts of the tokens of one line. -/
def optionTexts (name : Bytes) (values : List Bytes) : List (Bytes × Bytes) :=
  (name, name) :: values.map fun v => (reprText v, v)

theorem optionLine_eq (name : Bytes) (values : List Bytes) :
    optionLine name values = ([32] : Bytes).intercalate ((optionTexts name values).map Prod.fst) ++ [32] := by
  induction values generalizing name with
  | nil => simp [optionLine, optionTexts]
  | cons v values ih =>
    have hrec := ih (reprText v)
    have hline : optionLine name (v :: values) = name ++ 32 :: optionLine (reprText v) values := by simp [optionLine]
    have htexts : ([32] : Bytes).intercalate ((optionTexts name (v :: values)).map Prod.fst)
        = name ++ 32 :: ([32] : Bytes).intercalate ((optionTexts (reprText v) values).map Prod.fst) := by
      simp [optionTexts, List.intercalate_cons_cons]
    rw [hline, hrec, htexts]
    simp

/-- The last byte of a line before its blank: of the name, or the closing quote. -/
theorem optionTexts_last (hn : OptionName name) (values : List Bytes) :
    ∃ z, (([32] : Bytes).intercalate ((optionTexts name values).map Prod.fst)).getLast? = some z ∧
      inCset lineBlanks z = false := by
  have hquote : ∀ (values : List Bytes) (v : Bytes),
      (([32] : Bytes).intercalate ((optionTexts (reprText v) values).map Prod.fst)).getLast? = some 34 := by
    intro values
    induction values with
    | nil =>
      intro v
      have hlast : (reprText v).getLast? = some 34 := by
        rw [reprText, ← List.cons_append, List.getLast?_append]
        rfl
      simpa [optionTexts] using hlast
    | cons w values ih =>
      intro v
      have hrec := ih w
      have htexts : ([32] : Bytes).intercalate ((optionTexts (reprText v) (w :: values)).map Prod.fst)
          = reprText v ++ [32] ++ ([32] : Bytes).intercalate ((optionTexts (reprText w) values).map Prod.fst) := by
        simp [optionTexts, List.intercalate_cons_cons]
      rw [htexts, List.getLast?_append, hrec]
      rfl
  cases values with
  | nil =>
    have hz := List.getLast?_eq_getLast_of_ne_nil hn.ne
    obtain ⟨h0, hs, _⟩ := hn.plain _ (List.getLast_mem hn.ne)
    exact ⟨_, by simpa [optionTexts] using hz, inCset_of_plain h0 hs⟩
  | cons v values =>
    have htexts : ([32] : Bytes).intercalate ((optionTexts name (v :: values)).map Prod.fst)
        = name ++ [32] ++ ([32] : Bytes).intercalate ((optionTexts (reprText v) values).map Prod.fst) := by
      simp [optionTexts, List.intercalate_cons_cons]
    refine ⟨34, ?_, by decide⟩
    rw [htexts, List.getLast?_append, hquote values v]
    rfl

/-- **One line.** Its name comes back in lower case and its values as they were. -/
theorem configArgs_optionLine (hn : OptionName name) (values : List Bytes) :
    configArgs (optionLine name values) = some (sdstolower name :: values) := by
  obtain ⟨z, hz, hzc⟩ := optionTexts_last hn values
  obtain ⟨c, w, hname⟩ := List.exists_cons_of_ne_nil hn.ne
  obtain ⟨h0, hs, _⟩ := hn.plain c (by rw [hname]; exact List.mem_cons_self)
  have hhead : (([32] : Bytes).intercalate ((optionTexts name values).map Prod.fst)).head? = some c := by
    cases values with
    | nil => simp [optionTexts, hname]
    | cons v values => simp [optionTexts, List.intercalate_cons_cons, hname]
  have htrim := sdstrim_blank hhead hz (inCset_of_plain h0 hs) hzc
  have hplain : ∀ t ∈ optionTexts name values, TokenText t.1 t.2 := by
    intro t ht
    rcases List.mem_cons.mp ht with rfl | ht
    · exact tokenText_plain hn.plainWord
    · obtain ⟨v, _, rfl⟩ := List.mem_map.mp ht
      exact tokenText_repr v
  have hzero : ∀ t ∈ optionTexts name values, (0 : UInt8) ∉ t.1 := by
    intro t ht
    rcases List.mem_cons.mp ht with rfl | ht
    · exact fun h => (hn.plain 0 h).1 rfl
    · obtain ⟨v, _, rfl⟩ := List.mem_map.mp ht
      exact (reprText_free v).1
  have hargs := sdssplitargs_texts _ hplain hzero
  have hvals : (optionTexts name values).map Prod.snd = name :: values := by
    simp [optionTexts, Function.comp_def]
  have h35 : c ≠ 35 := by
    rintro rfl
    exact hn.head (by rw [hname]; rfl)
  rw [configArgs, optionLine_eq]
  simp only [htrim]
  rw [if_neg, hargs, hvals]
  · rfl
  · rw [hhead]
    rintro (h | h)
    · exact h35 (Option.some.inj h)
    · rw [List.head?_eq_some_iff] at hhead
      obtain ⟨t, ht⟩ := hhead
      rw [ht, cstr, List.takeWhile_cons_of_pos (by simpa using h0)] at h
      cases h

/-- A byte that is neither in the name nor a blank nor in any representation is not in the line. -/
theorem notMem_optionLine {d : UInt8} (hname : d ∉ name) (hblank : d ≠ 32) (hrepr : ∀ v, d ∉ reprText v)
    (values : List Bytes) : d ∉ optionLine name values := by
  intro h
  simp only [optionLine, List.mem_append, List.mem_cons, List.mem_flatMap, List.not_mem_nil, or_false] at h
  rcases h with h | h | ⟨v, _, h | h⟩
  · exact hname h
  · exact hblank h
  · exact hrepr v h
  · exact hblank h

theorem optionLine_free (hn : OptionName name) (values : List Bytes) :
    (0 : UInt8) ∉ optionLine name values ∧ (10 : UInt8) ∉ optionLine name values := by
  have h10 : (10 : UInt8) ∉ name := fun h => absurd (hn.plain 10 h).2.1 (by decide)
  have h0 : (0 : UInt8) ∉ name := fun h => (hn.plain 0 h).1 rfl
  exact ⟨notMem_optionLine h0 (by decide) (fun v => (reprText_free v).1) values,
    notMem_optionLine h10 (by decide) (fun v => (reprText_free v).2) values⟩

/-- Two bytes at least for each option: the text has room for them all in the array of lines. -/
theorem optionsText_length (hopts : ∀ o ∈ opts, OptionName o.1) : opts.length * 2 ≤ (optionsText opts).length := by
  induction opts with
  | nil => simp
  | cons o opts ih =>
    have hrec := ih fun p hp => hopts p (List.mem_cons_of_mem _ hp)
    have hpos : 0 < o.1.length := List.length_pos_iff.mpr (hopts o List.mem_cons_self).ne
    have hline : 2 ≤ (optionLine o.1 o.2).length := by
      simp only [optionLine, List.length_append, List.length_cons]
      omega
    cases opts with
    | nil => simpa [optionsText] using hline
    | cons p opts =>
      rw [optionsText_cons_cons]
      simp only [List.length_append, List.length_cons] at hrec ⊢
      omega

/-- The lines of a text that starts with a newline and goes on with the options. -/
theorem pieces_options (hne : opts ≠ []) (hopts : ∀ o ∈ opts, OptionName o.1) :
    pieces [10] (10 :: optionsText opts) = [] :: opts.map fun o => optionLine o.1 o.2 := by
  have hlines : ∀ l ∈ opts.map fun o => optionLine o.1 o.2, (10 : UInt8) ∉ l := by
    intro l hl
    obtain ⟨o, ho, rfl⟩ := List.mem_map.mp hl
    exact (optionLine_free (hopts o ho) o.2).2
  have hsplit : (optionsText opts).splitOn 10 = opts.map fun o => optionLine o.1 o.2 :=
    List.splitOn_intercalate 10 hlines (by simpa using hne)
  rw [pieces, show (10 : UInt8) :: optionsText opts = [10] ++ optionsText opts from rfl,
    piecesFrom_match (List.cons_ne_nil _ _), ← pieces, pieces_singleton, hsplit]

theorem zero_notMem_optionsText (hopts : ∀ o ∈ opts, OptionName o.1) : (0 : UInt8) ∉ optionsText opts := by
  intro h
  rcases mem_of_mem_intercalate _ h with h | ⟨l, hl, h⟩
  · exact absurd h (by decide)
  · obtain ⟨o, ho, rfl⟩ := List.mem_map.mp hl
    exact (optionLine_free (hopts o ho) o.2).1 h

/-- **The whole text.** -/
theorem configVectors_options (hopts : ∀ o ∈ opts, OptionName o.1) (hlen : (10 :: optionsText opts).length < 2 ^ 31) :
    configVectors (10 :: optionsText opts) = some (opts.map fun o => sdstolower o.1 :: o.2) := by
  by_cases hne : opts = []
  · subst hne
    decide +kernel
  have hzero : (0 : UInt8) ∉ 10 :: optionsText opts := by
    simp [zero_notMem_optionsText hopts]
  have hpieces := pieces_options hne hopts
  have hcount := optionsText_length hopts
  have hfits : Split.Fits [10] 0 (pieces [10] (10 :: optionsText opts)) := by
    left
    rw [hpieces]
    unfold Split.maxTokens
    simp only [List.length_cons, List.length_map] at hlen ⊢
    omega
  have hlines : configLines (10 :: optionsText opts) = some ([] :: opts.map fun o => optionLine o.1 o.2) := by
    rw [configLines, cstr_eq_self hzero, if_pos hlen,
      Split.sdssplitlen_eq (List.cons_ne_nil _ _) (List.cons_ne_nil _ _) hfits, hpieces]
    rfl
  have hargs : (opts.map fun o => optionLine o.1 o.2).mapM configArgs = some (opts.map fun o => sdstolower o.1 :: o.2) := by
    clear hlen hne hzero hpieces hcount hfits hlines
    induction opts with
    | nil => rfl
    | cons o opts ih =>
      have hrec := ih fun p hp => hopts p (List.mem_cons_of_mem _ hp)
      rw [List.map_cons, List.mapM_cons, configArgs_optionLine (hopts o List.mem_cons_self), hrec]
      rfl
  have hempty : configArgs [] = some [] := by decide
  have hfilter : (opts.map fun o => sdstolower o.1 :: o.2).filter (· ≠ []) = opts.map fun o => sdstolower o.1 :: o.2 := by
    refine List.filter_eq_self.mpr fun v hv => ?_
    obtain ⟨o, _, rfl⟩ := List.mem_map.mp hv
    simp
  rw [configVectors, hlines, Option.bind_some, List.mapM_cons, hempty, hargs]
  simp only [Option.bind_eq_bind, Option.bind_some, Option.pure_def, Option.map_some]
  rw [List.filter_cons_of_neg (by simp), hfilter]

/-- **Quoting round trip.** The representations of any strings, with single blanks between them, are split into
    these strings again; and the options text of `main`, behind the newline that `loadServerConfig` puts before
    it, is parsed into the same names, in lower case, and values. An `sds` has fewer than 2³¹ bytes. -/
theorem quoting_round_trip :
    (∀ ps : List Bytes, (reprLine ps).length < 2 ^ 31 →
      ∃ line, sdscatreprs ps [] = some line ∧ sdssplitargs line = some ps) ∧
    ∀ opts : List (Bytes × List Bytes), (∀ o ∈ opts, OptionName o.1 ∧ ∀ v ∈ o.2, OptionValue v) →
      (10 :: optionsText opts).length < 2 ^ 31 →
      ∃ options, mainOptions (optionsArgv opts) [] = some options ∧
        configVectors (10 :: options) = some (opts.map fun o => sdstolower o.1 :: o.2) := by
  refine ⟨fun ps hlen => ⟨reprLine ps, sdscatreprs_eq hlen, sdssplitargs_reprLine ps⟩, fun opts hopts hlen => ?_⟩
  refine ⟨optionsText opts, ?_, configVectors_options (fun o ho => (hopts o ho).1) hlen⟩
  cases opts with
  | nil => rfl
  | cons o opts =>
      rw [List.length_cons] at hlen
      exact mainOptions_eq (o :: opts) hopts [] [] (List.cons_ne_nil _ _) (by rw [if_pos rfl])
        (by rw [List.nil_append]; omega)

/-- `--Port 6380 --name "a \\n"`, with a value that has a quote, a backslash and a line break. -/
theorem quoting_round_trip_port :
    (∃ line, sdscatreprs [[34, 92, 10], []] [] = some line ∧ sdssplitargs line = some [[34, 92, 10], []]) ∧
    ∃ options, mainOptions [[45, 45, 80], [54], [45, 45, 110], [34, 92, 10]] [] = some options ∧
      configVectors (10 :: options) = some [[[112], [54]], [[110], [34, 92, 10]]] :=
  ⟨quoting_round_trip.1 [[34, 92, 10], []] (by decide +kernel),
    quoting_round_trip.2 [([80], [[54]]), ([110], [[34, 92, 10]])]
      (by
        intro o ho
        simp only [List.mem_cons, List.not_mem_nil, or_false] at ho
        rcases ho with rfl | rfl
        · exact ⟨⟨by decide +kernel, by decide +kernel, by decide +kernel⟩, fun v hv => by
            rw [List.mem_singleton.mp hv]
            exact ⟨by decide +kernel, by decide +kernel⟩⟩
        · exact ⟨⟨by decide +kernel, by decide +kernel, by decide +kernel⟩, fun v hv => by
            rw [List.mem_singleton.mp hv]
            exact ⟨by decide +kernel, by decide +kernel⟩⟩)
      (by decide +kernel)⟩

/-- A string of 2³¹ bytes has no representation: its `sds` would need a length that is no `int`. -/
theorem sdscatrepr_outgrows :
    ¬ ∃ line, sdscatreprs [List.replicate (2 ^ 31) 97] [] = some line ∧
      sdssplitargs line = some [List.replicate (2 ^ 31) 97] := by
  rintro ⟨line, hrun, _⟩
  rw [sdscatreprs, if_neg (by simp), Option.bind_some] at hrun
  obtain ⟨r, hr, _⟩ := Option.bind_eq_some_iff.mp hrun
  obtain ⟨rfl, hlen⟩ := sdscatrepr_some hr
  have hle := length_le_reprText (List.replicate (2 ^ 31) 97)
  rw [List.length_replicate] at hle
  rw [List.nil_append] at hlen
  omega

end Prez
