import Prez.Config.Reply
import Prez.Config.Language
import Prez.Numeral

/-!
# `Prez.Config.Exact` — is `CONFIG SET` exact and atomic?

A `CONFIG SET` that is refused is to leave the configuration alone. One that is accepted is to change the named
parameter only, to a value that was written as a number (or a list, or a word) in range, and `CONFIG GET` of the name
is to show that value (`SetExact`).

What is refused does leave everything alone. What is accepted is not always what was written: the parsers take the
empty string and the text before a NUL for numbers, several fields are narrower than the number that was checked,
`dbfilename` has no field behind it, and `CONFIG GET` compares names by case. `config_set_exact` says for which
requests the contract holds.
-/

namespace Prez

open Lib

/-! ## Numbers -/

/-- The text of a decimal integer with the value it stands for: digits, with or without a sign. -/
inductive DecimalText : Bytes → Int → Prop where
  | plain {b : Bytes} (digits : ∀ d ∈ b, isDigit d = true) (ne : b ≠ []) : DecimalText b (digitsValue 0 b)
  | plus {b : Bytes} (digits : ∀ d ∈ b, isDigit d = true) (ne : b ≠ []) : DecimalText (43 :: b) (digitsValue 0 b)
  | minus {b : Bytes} (digits : ∀ d ∈ b, isDigit d = true) (ne : b ≠ []) : DecimalText (45 :: b) (-(digitsValue 0 b : Int))

/-- A text that could be a number: something is written, it is all there, and it does not start with a blank. -/
structure NumberText (w : Bytes) : Prop where
  ne : w ≠ []
  zero : (0 : UInt8) ∉ w
  blank : w.head?.any isSpace = false

variable {cfg : ServerConfig} {w : Bytes} {v : Int} {o : Bytes} {b : Bytes} {os : Os}

theorem digits_plain (h : ∀ d ∈ b, isDigit d = true) : (0 : UInt8) ∉ b ∧ b.head?.any isSpace = false := by
  refine ⟨fun h0 => (isDigit_plain (h 0 h0)).1 rfl, ?_⟩
  cases b with
  | nil => rfl
  | cons c b => exact (isDigit_plain (h c List.mem_cons_self)).2.2.2

theorem DecimalText.numberText (h : DecimalText w v) : NumberText w := by
  cases h with
  | plain digits ne => exact ⟨ne, (digits_plain digits).1, (digits_plain digits).2⟩
  | plus digits ne => exact ⟨List.cons_ne_nil _ _, by simp [(digits_plain digits).1], rfl⟩
  | minus digits ne => exact ⟨List.cons_ne_nil _ _, by simp [(digits_plain digits).1], rfl⟩

theorem dropWhile_isSpace (h : w.head?.any isSpace = false) : w.dropWhile isSpace = w := by
  cases w with
  | nil => rfl
  | cons c w => exact List.dropWhile_cons_of_neg (by simpa using h)

theorem dropWhile_isDigit (h : ∀ d ∈ b, isDigit d = true) : b.dropWhile isDigit = [] := by
  induction b with
  | nil => rfl
  | cons c b ih =>
    rw [List.dropWhile_cons_of_pos (h c List.mem_cons_self)]
    exact ih fun d hd => h d (List.mem_cons_of_mem _ hd)

theorem head_digit (h : ∀ d ∈ b, isDigit d = true) (ne : b ≠ []) : b.head?.any isDigit = true := by
  obtain ⟨c, b, rfl⟩ := List.exists_cons_of_ne_nil ne
  exact h c List.mem_cons_self

/-- What `strtoll` makes of the text of an integer: all of it is converted, and out of range it stops at the limit. -/
structure Converted (w : Bytes) (v : Int) : Prop where
  fin : strtollEnd w = []
  overflow : strtollOverflow w = true ↔ ¬ LongLong v
  value : LongLong v → strtol w = v
  limit : ¬ LongLong v → strtol w = if v < 0 then -(2 ^ 63) else 2 ^ 63 - 1

section

variable {w b : Bytes} (digits : ∀ d ∈ b, isDigit d = true) (ne : b ≠ []) (hdig : strtollDigits w = b)

include digits ne hdig

theorem strtollEnd_digits : strtollEnd w = [] := by
  rw [strtollEnd, hdig, if_pos (head_digit digits ne), dropWhile_isDigit digits]

theorem Converted.nonneg (hval : strtol w = min (digitsValue 0 b : Int) (2 ^ 63 - 1))
    (hover : strtollOverflow w = decide (2 ^ 63 ≤ digitsValue 0 b)) : Converted w (digitsValue 0 b) := by
  refine ⟨strtollEnd_digits digits ne hdig, ?_, fun hv => ?_, fun hv => ?_⟩
  · rw [hover, decide_eq_true_iff]
    unfold LongLong
    omega
  · rw [hval]
    unfold LongLong at hv
    omega
  · rw [hval, if_neg (by omega)]
    unfold LongLong at hv
    omega

theorem Converted.neg (hval : strtol w = max (-(digitsValue 0 b : Int)) (-(2 ^ 63)))
    (hover : strtollOverflow w = decide (2 ^ 63 < digitsValue 0 b)) : Converted w (-(digitsValue 0 b : Int)) := by
  refine ⟨strtollEnd_digits digits ne hdig, ?_, fun hv => ?_, fun hv => ?_⟩
  · rw [hover, decide_eq_true_iff]
    unfold LongLong
    omega
  · rw [hval]
    unfold LongLong at hv
    omega
  · unfold LongLong at hv
    rw [hval, if_pos (by omega)]
    omega

end

/-- **`strtol` reads a decimal text**, up to its range. -/
theorem DecimalText.converted (h : DecimalText w v) : Converted w v := by
  have hw := h.numberText
  have hskip : (cstr w).dropWhile isSpace = w := by rw [cstr_eq_self hw.zero, dropWhile_isSpace hw.blank]
  cases h with
  | plain digits ne =>
    obtain ⟨c, b, rfl⟩ := List.exists_cons_of_ne_nil ne
    have hc := (isDigit_iff c).mp (digits c List.mem_cons_self)
    have h45 : c ≠ 45 := by rintro rfl; exact absurd hc.1 (by decide)
    have h43 : c ≠ 43 := by rintro rfl; exact absurd hc.1 (by decide)
    have hdig : strtollDigits (c :: b) = c :: b := by
      rw [strtollDigits, hskip]
      split <;> simp_all
    refine .nonneg digits ne hdig ?_ ?_
    · rw [strtol, hskip]
      split <;> simp_all
    · rw [strtollOverflow, hskip, hdig]
      split <;> simp_all
  | @plus b digits ne =>
    have hdig : strtollDigits (43 :: b) = b := by rw [strtollDigits, hskip]; rfl
    exact .nonneg digits ne hdig (by rw [strtol, hskip]; rfl) (by rw [strtollOverflow, hskip, hdig]; rfl)
  | @minus b digits ne =>
    have hdig : strtollDigits (45 :: b) = b := by rw [strtollDigits, hskip]; rfl
    exact .neg digits ne hdig (by rw [strtol, hskip]; rfl) (by rw [strtollOverflow, hskip]; rfl)

theorem all_isDigit_of_dropWhile (h : b.dropWhile isDigit = []) : ∀ d ∈ b, isDigit d = true :=
  List.dropWhile_eq_nil_iff.mp h

/-- Conversely: a text that is all there and converted to its end is the text of an integer. -/
theorem decimalText_of_end (hw : NumberText w) (hend : strtollEnd w = []) : ∃ v, DecimalText w v := by
  have hskip : (cstr w).dropWhile isSpace = w := by rw [cstr_eq_self hw.zero, dropWhile_isSpace hw.blank]
  unfold strtollEnd at hend
  by_cases hhead : (strtollDigits w).head?.any isDigit = true
  · rw [if_pos hhead] at hend
    have hall := all_isDigit_of_dropWhile hend
    have hne : strtollDigits w ≠ [] := by
      intro h
      rw [h] at hhead
      cases hhead
    unfold strtollDigits at hall hne
    rw [hskip] at hall hne
    split at hall
    · exact ⟨_, .minus hall hne⟩
    · exact ⟨_, .plus hall hne⟩
    · exact ⟨_, .plain hall hw.ne⟩
  · rw [if_neg hhead, cstr_eq_self hw.zero] at hend
    exact absurd hend hw.ne

/-- A text stands for one integer. -/
theorem DecimalText.value_unique {v v' : Int} (h : DecimalText w v) (h' : DecimalText w v') : v = v' := by
  have hsign : ∀ {b : Bytes} {c : UInt8}, isDigit c = false → ¬ ∀ d ∈ c :: b, isDigit d = true := by
    intro b c hc hall
    rw [hall c List.mem_cons_self] at hc
    cases hc
  cases h with
  | plain digits ne =>
    cases h' with
    | plain => rfl
    | plus => exact absurd digits (hsign (by decide))
    | minus => exact absurd digits (hsign (by decide))
  | plus digits ne =>
    cases h' with
    | plain digits' => exact absurd digits' (hsign (by decide))
    | plus => rfl
  | minus digits ne =>
    cases h' with
    | plain digits' => exact absurd digits' (hsign (by decide))
    | minus => rfl

theorem DecimalText.getLongLong (h : DecimalText w v) (hv : LongLong v) : getLongLongFromObject w = some v := by
  have hc := h.converted
  have hover : strtollOverflow w = false := by
    rw [← Bool.not_eq_true, hc.overflow, not_not]
    exact hv
  rw [getLongLongFromObject, h.numberText.blank, hc.fin, hover, if_neg (by simp), hc.value hv]

/-- What `getLongLongFromObject` accepts, apart from the empty string and text before a NUL, is an integer in range. -/
theorem decimalText_of_getLongLong {ll : Int} (h : getLongLongFromObject w = some ll) (hne : w ≠ [])
    (h0 : (0 : UInt8) ∉ w) : DecimalText w ll ∧ LongLong ll := by
  unfold getLongLongFromObject at h
  split at h
  · cases h
  · rename_i hno
    simp only [not_or, Bool.not_eq_true, not_not] at hno
    obtain ⟨hblank, hend, hover⟩ := hno
    obtain ⟨v, hv⟩ := decimalText_of_end ⟨hne, h0, by simpa using hblank⟩ hend
    have hll : LongLong v := by
      by_contra hno
      rw [hv.converted.overflow.mpr hno] at hover
      cases hover
    rw [hv.converted.value hll] at h
    cases h
    exact ⟨hv, hll⟩

/-! ## Names -/

/-- The parameters that `CONFIG SET` supports. -/
inductive Param where
  | dbfilename
  | maxclients
  | hz
  | timeout
  | tcpKeepalive
  | loglevel
  | clientOutputBufferLimit
  | heartbeatInterval
  | electionTimeout

def Param.name : Param → Bytes
  | .dbfilename => ascii "dbfilename"
  | .maxclients => ascii "maxclients"
  | .hz => ascii "hz"
  | .timeout => ascii "timeout"
  | .tcpKeepalive => ascii "tcp-keepalive"
  | .loglevel => ascii "loglevel"
  | .clientOutputBufferLimit => ascii "client-output-buffer-limit"
  | .heartbeatInterval => ascii "cluster-heartbeat-interval"
  | .electionTimeout => ascii "cluster-election-timeout"

/-- The branch of a parameter. -/
def Param.set (os : Os) (cfg : ServerConfig) (o : Bytes) : Param → Option (ServerConfig × SetEnd)
  | .dbfilename =>
    some (cfg, if pathIsBaseName o then .ok else .error (ascii "dbfilename can't be a path, just a filename"))
  | .maxclients => setMaxclients os cfg o
  | .hz => some (setNumber cfg o (fun ll => 0 ≤ ll) fun ll => { cfg with hz := clampHz (toInt32 ll) })
  | .timeout => some (setNumber cfg o (fun ll => 0 ≤ ll) fun ll => { cfg with maxidletime := toInt32 ll })
  | .tcpKeepalive => some (setNumber cfg o (fun ll => 0 ≤ ll && ll < 2 ^ 31) fun ll => { cfg with tcpkeepalive := ll })
  | .loglevel => some (setLoglevel cfg o)
  | .clientOutputBufferLimit => some (setObufLimits cfg o)
  | .heartbeatInterval => some (setNumber cfg o (fun ll => 0 < ll) fun ll => { cfg with heartbeatInterval := ll })
  | .electionTimeout => some (setNumber cfg o (fun ll => 0 < ll) fun ll => { cfg with electionTimeout := ll })

/-- The text that `CONFIG GET` shows for a parameter; there is no field for `dbfilename`. -/
def Param.text (cfg : ServerConfig) : Param → Option Bytes
  | .dbfilename => none
  | .maxclients => some (ll2string 128 cfg.maxclients)
  | .hz => some (ll2string 128 cfg.hz)
  | .timeout => some (ll2string 128 cfg.maxidletime)
  | .tcpKeepalive => some (ll2string 128 cfg.tcpkeepalive)
  | .loglevel => some cfg.verbosity.name
  | .clientOutputBufferLimit => some cfg.clientObufLimits.text
  | .heartbeatInterval => some (ll2string 128 cfg.heartbeatInterval)
  | .electionTimeout => some (ll2string 128 cfg.electionTimeout)

/-- A name of a parameter, in upper or lower case. -/
def Param.Names (p : Param) (name : Bytes) : Prop := name.map toLower = p.name

section

variable {p : Param} {name : Bytes}

theorem toLower_fixed : ∀ b ∈ ([0, 42, 63, 91, 92] : Bytes), toLower b = b := by decide +kernel

theorem Param.Names.plain (h : p.Names name) : (0 : UInt8) ∉ name ∧ ∀ b ∈ name, Glob.isLiteral b = true := by
  have hnone : ∀ b ∈ ([0, 42, 63, 91, 92] : Bytes), b ∉ name := by
    intro b hb hmem
    have hlow : toLower b ∈ p.name := by
      rw [← h]
      exact List.mem_map_of_mem hmem
    rw [toLower_fixed b hb] at hlow
    have hno : ∀ b ∈ ([0, 42, 63, 91, 92] : Bytes), b ∉ p.name := by cases p <;> decide +kernel
    exact hno b hb hlow
  refine ⟨hnone 0 (by decide), fun b hb => ?_⟩
  have h42 : b ≠ 42 := by rintro rfl; exact hnone 42 (by decide) hb
  have h63 : b ≠ 63 := by rintro rfl; exact hnone 63 (by decide) hb
  have h91 : b ≠ 91 := by rintro rfl; exact hnone 91 (by decide) hb
  have h92 : b ≠ 92 := by rintro rfl; exact hnone 92 (by decide) hb
  simp [Glob.isLiteral, h42, h63, h91, h92]

theorem Param.Names.length (h : p.Names name) : name.length < 2 ^ 31 := by
  have hlen : name.length = p.name.length := by rw [← h, List.length_map]
  have hshort : p.name.length ≤ 26 := by cases p <;> decide +kernel
  omega

/-- The chain of comparisons finds the branch of the parameter. -/
theorem configSetParam_eq (os : Os) (cfg : ServerConfig) (o : Bytes) (h : p.Names name) :
    configSetParam os cfg name o = p.set os cfg o := by
  have hcase : ∀ q : Bytes, strcaseEq name q = (p.name == (cstr q).map toLower) := by
    intro q
    rw [strcaseEq, cstr_eq_self h.plain.1, h]
  unfold configSetParam
  simp only [hcase]
  cases p <;> rfl

/-- `CONFIG GET` of a name shows the fields that have it. -/
theorem shown_eq (cfg : ServerConfig) (h : p.Names name) :
    shown name (configFields cfg) = (configFields cfg).flatMap fun f => if f.1 = name then [cstr f.1, cstr f.2] else [] := by
  unfold shown
  refine List.flatMap_congr fun f hf => ?_
  rw [Glob.stringmatch_word h.plain.2 h.plain.1 h.length (configNames_short cfg f hf).1]
  by_cases hf : f.1 = name
  · rw [if_pos (by simpa using hf), if_pos hf]
  · rw [if_neg (by simpa using hf), if_neg hf]

theorem Param.names_name (p : Param) : p.Names p.name := by
  cases p <;> (unfold Param.Names; decide +kernel)

/-- A name shows its own parameter alone. -/
theorem shown_name (p : Param) (cfg : ServerConfig) :
    shown p.name (configFields cfg) = match p.text cfg with
      | none => []
      | some text => [p.name, cstr text] := by
  rw [shown_eq cfg p.names_name]
  cases p <;> rfl

/-- A name in another case is not found. -/
theorem shown_other (cfg : ServerConfig) (h : p.Names name) (hne : name ≠ p.name) : shown name (configFields cfg) = [] := by
  have hlower : ∀ f ∈ configFields cfg, f.1.map toLower = f.1 := by
    have hnames : ∀ n ∈ (configFields cfg).map Prod.fst, n.map toLower = n := by
      show ∀ n ∈ [ascii "unixsocket", ascii "logfile", ascii "pidfile", ascii "timeout", ascii "tcp-keepalive",
        ascii "port", ascii "tcp-backlog", ascii "maxclients", ascii "hz", ascii "cluster-election-timeout",
        ascii "cluster-heartbeat-interval", ascii "loglevel", ascii "client-output-buffer-limit",
        ascii "unixsocketperm"], n.map toLower = n
      decide +kernel
    exact fun f hf => hnames f.1 (List.mem_map_of_mem hf)
  rw [shown_eq cfg h]
  refine List.flatMap_eq_nil_iff.mpr fun f hf => if_neg fun hname => hne ?_
  rw [← h, ← hname, hlower f hf]

end

/-! ## The contract -/

/-- The fields other than that of the parameter are as before. The size of the event loop, which follows `maxclients`, is
    no parameter. -/
def Param.OnlyField (cfg cfg' : ServerConfig) : Param → Prop
  | .dbfilename => cfg' = cfg
  | .maxclients => cfg' = { cfg with maxclients := cfg'.maxclients, setsize := cfg'.setsize }
  | .hz => cfg' = { cfg with hz := cfg'.hz }
  | .timeout => cfg' = { cfg with maxidletime := cfg'.maxidletime }
  | .tcpKeepalive => cfg' = { cfg with tcpkeepalive := cfg'.tcpkeepalive }
  | .loglevel => cfg' = { cfg with verbosity := cfg'.verbosity }
  | .clientOutputBufferLimit => cfg' = { cfg with clientObufLimits := cfg'.clientObufLimits }
  | .heartbeatInterval => cfg' = { cfg with heartbeatInterval := cfg'.heartbeatInterval }
  | .electionTimeout => cfg' = { cfg with electionTimeout := cfg'.electionTimeout }

/-- The words of a list of limits, four for each, with the limits they stand for. -/
inductive LimitsText : List Bytes → List BufferLimits → Prop where
  | nil : LimitsText [] []
  | cons {cls hard soft seconds : Bytes} {h s t : Int} {words : List Bytes} {ls : List BufferLimits}
      (hcls : cls.map toLower = ascii "normal") (hhard : DecimalText hard h) (hsoft : DecimalText soft s)
      (hseconds : DecimalText seconds t) (hh : 0 ≤ h ∧ h < 2 ^ 63) (hs : 0 ≤ s ∧ s < 2 ^ 63) (ht : 0 ≤ t ∧ t < 2 ^ 31)
      (hwords : LimitsText words ls) :
      LimitsText (cls :: hard :: soft :: seconds :: words) (⟨UInt64.ofNat h.toNat, UInt64.ofNat s.toNat, t⟩ :: ls)

/-- The value `o` is the text of an integer in the range; `kept` of it is shown. -/
def NumberMeans (range : Int → Prop) (kept : Int → Int) (o text : Bytes) : Prop :=
  ∃ v, DecimalText o v ∧ range v ∧ text = llText (kept v)

/-- What the value `o` says, as the text that is to be shown. -/
def Param.Means (cfg : ServerConfig) (o text : Bytes) : Param → Prop
  | .dbfilename => text = o
  | .maxclients => NumberMeans (fun v => 1 ≤ v ∧ v < 2 ^ 31) id o text
  | .hz => NumberMeans (fun v => 0 ≤ v) clampHz o text
  | .timeout => NumberMeans (fun v => 0 ≤ v ∧ v < 2 ^ 31) id o text
  | .tcpKeepalive => NumberMeans (fun v => 0 ≤ v ∧ v < 2 ^ 31) id o text
  | .loglevel => ∃ level : LogLevel, o.map toLower = level.name ∧ text = level.name
  | .clientOutputBufferLimit =>
    ∃ ls, LimitsText (splitTokens o 32) ls ∧ text = (ls.getLast?.getD cfg.clientObufLimits).text
  | .heartbeatInterval => NumberMeans (fun v => 1 ≤ v ∧ v < 2 ^ 63) id o text
  | .electionTimeout => NumberMeans (fun v => 1 ≤ v ∧ v < 2 ^ 63) id o text

/-- **The contract of `CONFIG SET`.** Every end but `OK` is an error reply. -/
structure SetExact (os : Os) (cfg : ServerConfig) (p : Param) (name o : Bytes) : Prop where
  error : ∀ cfg' fin, configSetParam os cfg name o = some (cfg', fin) → fin ≠ .ok → cfg' = cfg
  ok : ∀ cfg', configSetParam os cfg name o = some (cfg', .ok) →
    p.OnlyField cfg cfg' ∧ ∃ text, p.Means cfg o text ∧ shown name (configFields cfg') = [p.name, text]

/-- What a branch does, with the condition under which it replies `OK` and the one under which it then does what the
    value says. -/
structure Outcome (os : Os) (cfg : ServerConfig) (p : Param) (o : Bytes) (accepts plain : Prop) : Prop where
  refused : ∀ cfg' fin, p.set os cfg o = some (cfg', fin) → fin ≠ .ok → cfg' = cfg
  rejected : ¬ accepts → ∀ cfg', p.set os cfg o ≠ some (cfg', .ok)
  accepted : accepts → ∃ cfg', p.set os cfg o = some (cfg', .ok) ∧ p.OnlyField cfg cfg' ∧
    (plain ↔ ∃ text ∈ p.text cfg', p.Means cfg o (cstr text))

/-- A branch fulfils the contract if what it accepts is named and written as it should be. -/
theorem Outcome.exact {p : Param} {name o : Bytes} {accepts plain : Prop} (h : Outcome os cfg p o accepts plain)
    (hname : p.Names name) : SetExact os cfg p name o ↔ (accepts → name = p.name ∧ plain) := by
  have hset := configSetParam_eq os cfg o hname
  constructor
  · intro hexact hacc
    obtain ⟨cfg', hrun, -, hplain⟩ := h.accepted hacc
    obtain ⟨-, text, hmeans, hshown⟩ := hexact.ok cfg' (hset.trans hrun)
    by_cases hcase : name = p.name
    · subst hcase
      refine ⟨rfl, hplain.mpr ?_⟩
      rw [shown_name] at hshown
      cases htext : p.text cfg' with
      | none =>
        rw [htext] at hshown
        cases hshown
      | some t =>
        rw [htext] at hshown
        simp only [List.cons.injEq, and_true, true_and] at hshown
        exact ⟨t, rfl, hshown ▸ hmeans⟩
    · rw [shown_other cfg' hname hcase] at hshown
      cases hshown
  · intro hcond
    refine ⟨fun cfg' fin hrun => h.refused cfg' fin (hset.symm.trans hrun), fun cfg' hrun => ?_⟩
    by_cases hacc : accepts
    · obtain ⟨rfl, hp⟩ := hcond hacc
      obtain ⟨cfg'', hrun', honly, hplain⟩ := h.accepted hacc
      rw [hset, hrun'] at hrun
      cases hrun
      obtain ⟨text, htext, hmeans⟩ := hplain.mp hp
      refine ⟨honly, cstr text, hmeans, ?_⟩
      rw [shown_name, Option.mem_def.mp htext]
    · exact absurd (hset.symm.trans hrun) (h.rejected hacc cfg')

/-! ## Numbers that are stored -/

theorem llText_free (v : Int) : (0 : UInt8) ∉ llText v := by
  have hdec : (0 : UInt8) ∉ decimal v.natAbs := fun h => (isDigit_plain (decimal_isDigit _ 0 h)).1 rfl
  unfold llText
  split
  · simp [hdec]
  · exact hdec

theorem cstr_ll2string (h : LongLong v) : cstr (ll2string 128 v) = llText v := by
  rw [ll2string_eq (lt_of_le_of_lt (llText_length h) (by decide)), cstr_eq_self (llText_free v)]

theorem llText_inj {v w : Int} (hv : LongLong v) (hw : LongLong w) : llText v = llText w ↔ v = w := by
  refine ⟨fun h => ?_, fun h => by rw [h]⟩
  have := string2ll_llText hv
  rw [h, string2ll_llText hw] at this
  exact (Option.some.inj this).symm

/-- A branch that checks a number and stores `stored` of it, with what it is to keep. -/
theorem outcome_number {p : Param} {valid : Int → Bool} {store : Int → ServerConfig} (stored : Int → Int)
    {kept : Int → Int} {range : Int → Prop} (hset : p.set os cfg o = some (setNumber cfg o valid store))
    (honly : ∀ ll, p.OnlyField cfg (store ll)) (hmeans : ∀ text, p.Means cfg o text ↔ NumberMeans range kept o text)
    (htext : ∀ ll, p.text (store ll) = some (ll2string 128 (stored ll)))
    (hstored : ∀ ll, LongLong ll → LongLong (stored ll)) (hkept : ∀ ll, LongLong ll → LongLong (kept ll))
    {fits : Int → Prop} (hfits : ∀ ll, LongLong ll → valid ll = true → (fits ll ↔ range ll ∧ stored ll = kept ll)) :
    Outcome os cfg p o (∃ ll, getLongLongFromObject o = some ll ∧ valid ll = true)
      (o ≠ [] ∧ (0 : UInt8) ∉ o ∧ ∀ ll, getLongLongFromObject o = some ll → fits ll) := by
  refine ⟨fun cfg' fin hrun hfin => ?_, fun hno cfg' hrun => ?_, ?_⟩
  · rw [hset, setNumber] at hrun
    split at hrun
    · cases hrun
      rfl
    · split at hrun
      · cases hrun
        exact absurd rfl hfin
      · cases hrun
        rfl
  · rw [hset, setNumber] at hrun
    split at hrun
    · cases hrun
    · rename_i ll hll
      split at hrun
      · rename_i hvalid
        exact hno ⟨ll, hll, hvalid⟩
      · cases hrun
  · rintro ⟨ll, hll, hvalid⟩
    refine ⟨store ll, by rw [hset, setNumber, hll]; simp only [hvalid, if_true], honly ll, ?_⟩
    constructor
    · rintro ⟨hne, h0, hfit⟩
      obtain ⟨hdec, hlong⟩ := decimalText_of_getLongLong hll hne h0
      obtain ⟨hr, hkeep⟩ := (hfits ll hlong hvalid).mp (hfit ll hll)
      refine ⟨_, Option.mem_def.mpr (htext ll), (hmeans _).mpr ⟨ll, hdec, hr, ?_⟩⟩
      rw [cstr_ll2string (hstored ll hlong), hkeep]
    · rintro ⟨text, ht, hm⟩
      rw [htext ll, Option.mem_def, Option.some.injEq] at ht
      subst ht
      obtain ⟨v, hdec, hr, heq⟩ := (hmeans _).mp hm
      have hw := hdec.numberText
      obtain ⟨hdec', hlong⟩ := decimalText_of_getLongLong hll hw.ne hw.zero
      -- the number was accepted, so it is the one that is written
      have hv : v = ll := hdec.value_unique hdec'
      subst hv
      rw [cstr_ll2string (hstored v hlong), llText_inj (hstored v hlong) (hkept v hlong)] at heq
      refine ⟨hw.ne, hw.zero, fun ll' hll' => ?_⟩
      rw [hll] at hll'
      cases hll'
      exact (hfits v hlong hvalid).mpr ⟨hr, heq⟩

/-! ## Clients -/

/-- The operating system and the event loop accept a higher number of clients. -/
def RaiseAccepted (os : Os) (cfg : ServerConfig) (ll : Int) : Prop :=
  adjustOpenFilesLimit os (toInt32 ll) = some ll ∧ ll + eventloopFdsetIncr < 2 ^ 31 ∧
    (cfg.setsize < ll + eventloopFdsetIncr →
      (aeResizeSetSize os { cfg with maxclients := ll } (ll + eventloopFdsetIncr)).isSome = true)

theorem aeResizeSetSize_some {cfg cfg' : ServerConfig} {n : Int} (h : aeResizeSetSize os cfg n = some cfg') :
    cfg' = { cfg with setsize := cfg'.setsize } := by
  unfold aeResizeSetSize at h
  split at h
  · cases h
    rfl
  split at h
  · cases h
  split at h
  · cases h
    rfl
  · cases h

/-- What `setMaxclients` does with a number, by the answers of the system. -/
theorem setMaxclients_cases (os : Os) {ll : Int} (hint : cfg.maxclients < 2 ^ 31)
    (hll : getLongLongFromObject o = some ll) (h1 : 1 ≤ ll) :
    ((cfg.maxclients < ll → RaiseAccepted os cfg ll) ∧ ll < 2 ^ 31 ∧
      ∃ n, setMaxclients os cfg o = some ({ cfg with maxclients := ll, setsize := n }, .ok)) ∨
    ¬ (cfg.maxclients < ll → RaiseAccepted os cfg ll) ∧
      ∀ cfg' fin, setMaxclients os cfg o = some (cfg', fin) → fin ≠ .ok ∧ cfg' = cfg := by
  unfold setMaxclients
  simp only [hll, if_neg (not_lt.mpr h1)]
  by_cases hraise : ll > cfg.maxclients
  · rw [if_pos hraise]
    cases hadj : adjustOpenFilesLimit os (toInt32 ll) with
    | none =>
      refine .inr ⟨fun h => ?_, fun cfg' fin hrun => by cases hrun⟩
      have := (h hraise).1
      rw [hadj] at this
      cases this
    | some m =>
      rw [Option.bind_some]
      by_cases hm : m ≠ ll
      · rw [if_pos hm]
        refine .inr ⟨fun h => ?_, fun cfg' fin hrun => by cases hrun; exact ⟨SetEnd.noConfusion, rfl⟩⟩
        have := (h hraise).1
        rw [hadj] at this
        exact hm (Option.some.inj this)
      rw [if_neg hm]
      rw [not_not] at hm
      subst hm
      by_cases hbig : m + eventloopFdsetIncr ≥ 2 ^ 31
      · rw [if_pos hbig]
        exact .inr ⟨fun h => absurd (h hraise).2.1 (not_lt.mpr hbig), fun cfg' fin hrun => by cases hrun⟩
      have hlt : m < 2 ^ 31 := by
        unfold eventloopFdsetIncr minReservedFds at hbig
        omega
      rw [if_neg hbig]
      by_cases hsize : cfg.setsize < m + eventloopFdsetIncr
      · rw [if_pos hsize]
        cases hres : aeResizeSetSize os { cfg with maxclients := m } (m + eventloopFdsetIncr) with
        | none =>
          refine .inr ⟨fun h => ?_, fun cfg' fin hrun => by cases hrun; exact ⟨SetEnd.noConfusion, rfl⟩⟩
          have := (h hraise).2.2 hsize
          rw [hres] at this
          cases this
        | some cfg' =>
          refine .inl ⟨fun _ => ⟨hadj, not_le.mp hbig, fun _ => by rw [hres]; rfl⟩, hlt, cfg'.setsize, ?_⟩
          have := aeResizeSetSize_some hres
          simp only [Option.some.injEq, Prod.mk.injEq, and_true]
          exact this
      · rw [if_neg hsize]
        exact .inl ⟨fun _ => ⟨hadj, not_le.mp hbig, fun h => absurd h hsize⟩, hlt, cfg.setsize, rfl⟩
  · rw [if_neg hraise]
    have hsame : toInt32 ll = ll := by
      unfold toInt32
      omega
    exact .inl ⟨fun h => absurd h hraise, by omega, cfg.setsize, by rw [hsame]⟩

/-- **`maxclients`.** -/
theorem outcome_maxclients (os : Os) (hint : cfg.maxclients < 2 ^ 31) (o : Bytes) :
    Outcome os cfg .maxclients o
      (∃ ll, getLongLongFromObject o = some ll ∧ 1 ≤ ll ∧ (cfg.maxclients < ll → RaiseAccepted os cfg ll))
      (o ≠ [] ∧ (0 : UInt8) ∉ o) := by
  -- without a number, or with one below 1, the branch goes to `badfmt`
  have hbad : ∀ {cfg' fin}, setMaxclients os cfg o = some (cfg', fin) →
      (¬ ∃ ll, getLongLongFromObject o = some ll ∧ 1 ≤ ll) → fin ≠ .ok ∧ cfg' = cfg := by
    intro cfg' fin hrun hno
    unfold setMaxclients at hrun
    split at hrun
    · cases hrun
      exact ⟨SetEnd.noConfusion, rfl⟩
    · rename_i ll hll
      rw [if_pos (not_le.mp fun h1 => hno ⟨ll, hll, h1⟩)] at hrun
      cases hrun
      exact ⟨SetEnd.noConfusion, rfl⟩
  refine ⟨fun cfg' fin hrun hfin => ?_, fun hno cfg' hrun => ?_, ?_⟩
  · by_cases hnum : ∃ ll, getLongLongFromObject o = some ll ∧ 1 ≤ ll
    · obtain ⟨ll, hll, h1⟩ := hnum
      rcases setMaxclients_cases os hint hll h1 with ⟨-, -, n, hok⟩ | ⟨-, hrefuse⟩
      · rw [Param.set, hok] at hrun
        cases hrun
        exact absurd rfl hfin
      · exact (hrefuse cfg' fin hrun).2
    · exact (hbad hrun hnum).2
  · by_cases hnum : ∃ ll, getLongLongFromObject o = some ll ∧ 1 ≤ ll
    · obtain ⟨ll, hll, h1⟩ := hnum
      rcases setMaxclients_cases os hint hll h1 with ⟨hacc, -⟩ | ⟨-, hrefuse⟩
      · exact hno ⟨ll, hll, h1, hacc⟩
      · exact (hrefuse cfg' .ok hrun).1 rfl
    · exact (hbad hrun hnum).1 rfl
  · rintro ⟨ll, hll, h1, hacc⟩
    rcases setMaxclients_cases os hint hll h1 with ⟨-, hlt, n, hok⟩ | ⟨hno, -⟩
    · refine ⟨_, hok, rfl, ?_⟩
      have hlong : LongLong ll := by
        unfold LongLong
        omega
      constructor
      · rintro ⟨hne, h0⟩
        refine ⟨_, rfl, ll, (decimalText_of_getLongLong hll hne h0).1, ⟨h1, hlt⟩, ?_⟩
        exact cstr_ll2string hlong
      · rintro ⟨text, -, v, hdec, -⟩
        exact ⟨hdec.numberText.ne, hdec.numberText.zero⟩
    · exact absurd hacc hno

/-! ## Levels -/

theorem strcaseEq_iff {o w : Bytes} (h0 : (0 : UInt8) ∉ o) : strcaseEq o w = true ↔ o.map toLower = (cstr w).map toLower := by
  rw [strcaseEq, cstr_eq_self h0, beq_iff_eq]

theorem LogLevel.name_lower (level : LogLevel) : (cstr level.name).map toLower = level.name := by
  cases level <;> decide +kernel

/-- The word is one of the four levels. -/
def IsLevel (o : Bytes) : Prop := ∃ level : LogLevel, strcaseEq o level.name = true

theorem setLoglevel_level (level : LogLevel) (h : strcaseEq o level.name = true) :
    setLoglevel cfg o = ({ cfg with verbosity := level }, .ok) := by
  have hcase : ∀ q : Bytes, strcaseEq o q = ((cstr level.name).map toLower == (cstr q).map toLower) := by
    intro q
    rw [strcaseEq, beq_iff_eq] at h
    rw [strcaseEq, h]
  unfold setLoglevel
  simp only [hcase]
  cases level <;> rfl

theorem setLoglevel_other (h : ¬ IsLevel o) : setLoglevel cfg o = (cfg, .badfmt) := by
  have hwarning : ¬ strcaseEq o (ascii "warning") = true := fun hl => h ⟨.warning, hl⟩
  have hnotice : ¬ strcaseEq o (ascii "notice") = true := fun hl => h ⟨.notice, hl⟩
  have hverbose : ¬ strcaseEq o (ascii "verbose") = true := fun hl => h ⟨.verbose, hl⟩
  have hdebug : ¬ strcaseEq o (ascii "debug") = true := fun hl => h ⟨.debug, hl⟩
  rw [setLoglevel, if_neg hwarning, if_neg hnotice, if_neg hverbose, if_neg hdebug]

/-- **`loglevel`.** -/
theorem outcome_loglevel (os : Os) (cfg : ServerConfig) (o : Bytes) :
    Outcome os cfg .loglevel o (IsLevel o) ((0 : UInt8) ∉ o) := by
  refine ⟨fun cfg' fin hrun hfin => ?_, fun hno cfg' hrun => ?_, ?_⟩
  · rw [Param.set] at hrun
    by_cases hl : IsLevel o
    · obtain ⟨level, hlevel⟩ := hl
      rw [setLoglevel_level level hlevel] at hrun
      cases hrun
      exact absurd rfl hfin
    · rw [setLoglevel_other hl] at hrun
      cases hrun
      rfl
  · rw [Param.set, setLoglevel_other hno] at hrun
    cases hrun
  · rintro ⟨level, hlevel⟩
    refine ⟨{ cfg with verbosity := level }, by rw [Param.set, setLoglevel_level level hlevel], rfl, ?_⟩
    have hname : cstr level.name = level.name := by cases level <;> decide +kernel
    constructor
    · intro h0
      refine ⟨level.name, rfl, level, ?_, hname⟩
      rw [strcaseEq_iff h0, level.name_lower] at hlevel
      exact hlevel
    · rintro ⟨text, -, level', hlow, -⟩ h0
      have hmem : (0 : UInt8) ∈ level'.name := by
        rw [← hlow]
        exact List.mem_map.mpr ⟨0, h0, by decide⟩
      revert hmem
      cases level' <;> decide +kernel

/-! ## Limits -/

/-- A word of a list of limits that stands for what is stored: a class that is all there, or a number that is written
    out and fits its field. -/
def plainLimitWord (w : Bytes) (j : Nat) : Bool :=
  if j % 4 = 0 then !w.contains 0
  else !w.isEmpty && !w.contains 0 && !w.head?.any isSpace && !strtollOverflow w &&
    (decide (j % 4 ≠ 3) || decide (strtol w < 2 ^ 31))

/-- Every word passes a check of the word and its position. -/
def wordsPass (check : Bytes → Nat → Bool) (words : List Bytes) : Bool := words.zipIdx.all fun w => check w.1 w.2

/-- A check that depends on the position in a group of four goes through the groups. -/
theorem wordsPass_cons {check : Bytes → Nat → Bool} (hmod : ∀ w j, check w (j + 4) = check w j) (a b c d : Bytes)
    (words : List Bytes) :
    wordsPass check (a :: b :: c :: d :: words) = true ↔
      (check a 0 = true ∧ check b 1 = true ∧ check c 2 = true ∧ check d 3 = true) ∧ wordsPass check words = true := by
  have hrest : ((words.zipIdx 4).all fun w => check w.1 w.2) = wordsPass check words := by
    rw [wordsPass, List.zipIdx_eq_map_add, List.all_map]
    refine congrArg₂ _ rfl (funext fun w => ?_)
    show check w.1 (4 + w.2) = check w.1 w.2
    rw [Nat.add_comm, hmod]
  unfold wordsPass at hrest ⊢
  simp only [List.zipIdx_cons, List.all_cons, Bool.and_eq_true, hrest, Nat.zero_add, Nat.reduceAdd, and_assoc]

theorem limitWordOk_mod (w : Bytes) (j : Nat) : limitWordOk w (j + 4) = limitWordOk w j := by
  unfold limitWordOk
  rw [Nat.add_mod_right]

theorem plainLimitWord_mod (w : Bytes) (j : Nat) : plainLimitWord w (j + 4) = plainLimitWord w j := by
  unfold plainLimitWord
  rw [Nat.add_mod_right]

theorem limitClass_iff : limitWordOk w 0 = true ∧ plainLimitWord w 0 = true ↔ w.map toLower = ascii "normal" := by
  have hnormal : (cstr (ascii "normal")).map toLower = ascii "normal" := by decide +kernel
  constructor
  · rintro ⟨hok, hplain⟩
    have h0 : (0 : UInt8) ∉ w := by simpa [plainLimitWord] using hplain
    have := (strcaseEq_iff (w := ascii "normal") h0).mp (by simpa [limitWordOk] using hok)
    rw [this, hnormal]
  · intro hlow
    have h0 : (0 : UInt8) ∉ w := by
      intro h0
      have hmem : (0 : UInt8) ∈ ascii "normal" := by
        rw [← hlow]
        exact List.mem_map.mpr ⟨0, h0, by decide⟩
      revert hmem
      decide +kernel
    refine ⟨?_, by simpa [plainLimitWord] using h0⟩
    have := (strcaseEq_iff (w := ascii "normal") h0).mpr (hlow.trans hnormal.symm)
    simpa [limitWordOk] using this

/-- A number of a list of limits, checked and plain, is the text of the number that is read. -/
theorem limitNumber_iff {j : Nat} (hj : j % 4 ≠ 0) :
    limitWordOk w j = true ∧ plainLimitWord w j = true ↔
      DecimalText w (strtol w) ∧ 0 ≤ strtol w ∧ LongLong (strtol w) ∧ (j % 4 = 3 → strtol w < 2 ^ 31) := by
  simp only [limitWordOk, plainLimitWord, if_neg hj, Bool.and_eq_true, Bool.or_eq_true, decide_eq_true_eq,
    Bool.not_eq_true', List.isEmpty_eq_false_iff]
  constructor
  · rintro ⟨⟨hend, hpos⟩, ⟨⟨⟨hne, h0⟩, hblank⟩, hover⟩, hfit⟩
    obtain ⟨v, hv⟩ := decimalText_of_end ⟨hne, by simpa using h0, hblank⟩ hend
    have hlong : LongLong v := by
      by_contra hno
      rw [hv.converted.overflow.mpr hno] at hover
      cases hover
    rw [hv.converted.value hlong] at hpos hfit ⊢
    exact ⟨hv, hpos, hlong, fun h3 => hfit.resolve_left fun h => h h3⟩
  · rintro ⟨hdec, hpos, hlong, hfit⟩
    have hw := hdec.numberText
    have hover : strtollOverflow w = false := by
      rw [← Bool.not_eq_true, hdec.converted.overflow, not_not]
      exact hlong
    refine ⟨⟨hdec.converted.fin, hpos⟩, ⟨⟨⟨hw.ne, by simpa using hw.zero⟩, hw.blank⟩, hover⟩, ?_⟩
    by_cases h3 : j % 4 = 3
    · exact .inr (hfit h3)
    · exact .inl h3

/-- The words of a number that lies in the range of its field. -/
theorem limitNumber_value (h : DecimalText w v) (hlong : LongLong v) : strtol w = v :=
  h.converted.value hlong

/-- What checked and plain words stand for. -/
theorem limitsText_iff (words : List Bytes) :
    (∃ ls, LimitsText words ls) ↔
      words.length % 4 = 0 ∧ wordsPass limitWordOk words = true ∧ wordsPass plainLimitWord words = true := by
  constructor
  · rintro ⟨ls, h⟩
    induction h with
    | nil => exact ⟨rfl, rfl, rfl⟩
    | @cons cls hard soft seconds h s t words ls hcls hhard hsoft hseconds hh hs ht hwords ih =>
      have hlen : (cls :: hard :: soft :: seconds :: words).length % 4 = 0 := by
        simp only [List.length_cons]
        omega
      have hlong : LongLong h ∧ LongLong s ∧ LongLong t := by
        unfold LongLong
        omega
      have hvalue := limitNumber_value hhard hlong.1
      have svalue := limitNumber_value hsoft hlong.2.1
      have tvalue := limitNumber_value hseconds hlong.2.2
      have h0 := limitClass_iff.mpr hcls
      have h1 : limitWordOk hard 1 = true ∧ plainLimitWord hard 1 = true :=
        (limitNumber_iff (by decide)).mpr (by rw [hvalue]; exact ⟨hhard, hh.1, hlong.1, fun h => absurd h (by decide)⟩)
      have h2 : limitWordOk soft 2 = true ∧ plainLimitWord soft 2 = true :=
        (limitNumber_iff (by decide)).mpr (by rw [svalue]; exact ⟨hsoft, hs.1, hlong.2.1, fun h => absurd h (by decide)⟩)
      have h3 : limitWordOk seconds 3 = true ∧ plainLimitWord seconds 3 = true :=
        (limitNumber_iff (by decide)).mpr (by rw [tvalue]; exact ⟨hseconds, ht.1, hlong.2.2, fun _ => ht.2⟩)
      exact ⟨hlen, (wordsPass_cons limitWordOk_mod ..).mpr ⟨⟨h0.1, h1.1, h2.1, h3.1⟩, ih.2.1⟩,
        (wordsPass_cons plainLimitWord_mod ..).mpr ⟨⟨h0.2, h1.2, h2.2, h3.2⟩, ih.2.2⟩⟩
  · rintro ⟨hlen, hok, hplain⟩
    -- by groups of four words
    obtain ⟨n, hn⟩ : ∃ n, words.length = 4 * n := ⟨words.length / 4, by omega⟩
    clear hlen
    induction n generalizing words with
    | zero =>
      rw [List.length_eq_zero_iff.mp hn]
      exact ⟨[], .nil⟩
    | succ n ih =>
      match words, hn with
      | cls :: hard :: soft :: seconds :: words, hn =>
        rw [wordsPass_cons limitWordOk_mod] at hok
        rw [wordsPass_cons plainLimitWord_mod] at hplain
        obtain ⟨⟨ok0, ok1, ok2, ok3⟩, hok⟩ := hok
        obtain ⟨⟨plain0, plain1, plain2, plain3⟩, hplain⟩ := hplain
        obtain ⟨ls, hls⟩ := ih words hok hplain (by simp only [List.length_cons] at hn; omega)
        obtain ⟨hhard, hh, hlong, -⟩ := (limitNumber_iff (by decide)).mp ⟨ok1, plain1⟩
        obtain ⟨hsoft, hs, slong, -⟩ := (limitNumber_iff (by decide)).mp ⟨ok2, plain2⟩
        obtain ⟨hseconds, ht, tlong, hfit⟩ := (limitNumber_iff (by decide)).mp ⟨ok3, plain3⟩
        exact ⟨_, .cons (limitClass_iff.mp ⟨ok0, plain0⟩) hhard hsoft hseconds ⟨hh, hlong.2⟩ ⟨hs, slong.2⟩
          ⟨ht, hfit (by decide)⟩ hls⟩

/-- The last group is the one that is stored. -/
theorem LimitsText.setLimits {words : List Bytes} {ls : List BufferLimits} (h : LimitsText words ls)
    (limits : BufferLimits) : setLimits words limits = ls.getLast?.getD limits := by
  induction h generalizing limits with
  | nil => rfl
  | @cons cls hard soft seconds h s t words ls hcls hhard hsoft hseconds hh hs ht hwords ih =>
    have hlong : LongLong h ∧ LongLong s ∧ LongLong t := by
      unfold LongLong
      omega
    have hsame : toInt32 t = t := by
      unfold toInt32
      omega
    rw [Prez.setLimits, limitNumber_value hhard hlong.1, limitNumber_value hsoft hlong.2.1,
      limitNumber_value hseconds hlong.2.2, hsame, ih]
    cases ls with
    | nil => rfl
    | cons l ls => rw [List.getLast?_cons_cons, List.getLast?_cons, Option.getD_some, Option.getD_some]

theorem BufferLimits.text_free (l : BufferLimits) : (0 : UInt8) ∉ l.text := by
  have hdec : ∀ n, (0 : UInt8) ∉ decimal n := fun n h => (isDigit_plain (decimal_isDigit n 0 h)).1 rfl
  have hnormal : (0 : UInt8) ∉ ascii "normal " := by decide +kernel
  have hblank : (0 : UInt8) ∉ ascii " " := by decide +kernel
  simp only [BufferLimits.text, List.mem_append, not_or]
  exact ⟨⟨⟨⟨⟨hnormal, hdec _⟩, hblank⟩, hdec _⟩, hblank⟩, llText_free _⟩

/-- **`client-output-buffer-limit`.** -/
theorem outcome_limits (os : Os) (cfg : ServerConfig) (o : Bytes) :
    Outcome os cfg .clientOutputBufferLimit o
      ((splitTokens o 32).length % 4 = 0 ∧ wordsPass limitWordOk (splitTokens o 32) = true)
      (wordsPass plainLimitWord (splitTokens o 32) = true) := by
  have hiff := limitsText_iff (splitTokens o 32)
  generalize hwords : splitTokens o 32 = words at hiff
  -- the two ends of the branch
  have hset : Param.set os cfg o .clientOutputBufferLimit = some
      (if words.length % 4 = 0 ∧ wordsPass limitWordOk words = true then
        ({ cfg with clientObufLimits := setLimits words cfg.clientObufLimits }, .ok) else (cfg, .badfmt)) := by
    rw [Param.set, setObufLimits, hwords]
    by_cases hacc : words.length % 4 = 0 ∧ wordsPass limitWordOk words = true
    · rw [if_pos hacc, if_neg]
      rintro (h | h)
      · exact h hacc.1
      · rw [show (words.zipIdx.all fun w => limitWordOk w.1 w.2) = true from hacc.2] at h
        cases h
    · rw [if_neg hacc, if_pos]
      by_contra hno
      simp only [ne_eq, not_or, not_not, Bool.not_eq_true, Bool.not_eq_false'] at hno
      exact hacc hno
  refine ⟨fun cfg' fin hrun hfin => ?_, fun hno cfg' hrun => ?_, fun hacc => ?_⟩
  · rw [hset] at hrun
    split at hrun
    · cases hrun
      exact absurd rfl hfin
    · cases hrun
      rfl
  · rw [hset, if_neg hno] at hrun
    cases hrun
  · refine ⟨{ cfg with clientObufLimits := setLimits words cfg.clientObufLimits }, by rw [hset, if_pos hacc], rfl, ?_⟩
    constructor
    · intro hplain
      obtain ⟨ls, hls⟩ := hiff.mpr ⟨hacc.1, hacc.2, hplain⟩
      refine ⟨_, rfl, ls, hwords ▸ hls, ?_⟩
      rw [cstr_eq_self (BufferLimits.text_free _), hls.setLimits]
    · rintro ⟨text, -, ls, hls, -⟩
      exact (hiff.mp ⟨ls, hwords ▸ hls⟩).2.2

/-! ## All parameters -/

/-- A number is found in the value, and it passes the check of the branch. -/
def NumberAccepted (valid : Int → Bool) (o : Bytes) : Prop :=
  ∃ ll, getLongLongFromObject o = some ll ∧ valid ll = true

/-- The number is written out, and it fits the field. -/
def NumberPlain (fits : Int → Prop) (o : Bytes) : Prop :=
  o ≠ [] ∧ (0 : UInt8) ∉ o ∧ ∀ ll, getLongLongFromObject o = some ll → fits ll

/-- `CONFIG SET` of the parameter replies `OK`. -/
def Param.Accepts (os : Os) (cfg : ServerConfig) (o : Bytes) : Param → Prop
  | .dbfilename => pathIsBaseName o = true
  | .maxclients => ∃ ll, getLongLongFromObject o = some ll ∧ 1 ≤ ll ∧ (cfg.maxclients < ll → RaiseAccepted os cfg ll)
  | .hz => NumberAccepted (fun ll => 0 ≤ ll) o
  | .timeout => NumberAccepted (fun ll => 0 ≤ ll) o
  | .tcpKeepalive => NumberAccepted (fun ll => 0 ≤ ll && ll < 2 ^ 31) o
  | .loglevel => IsLevel o
  | .clientOutputBufferLimit =>
    (splitTokens o 32).length % 4 = 0 ∧ wordsPass limitWordOk (splitTokens o 32) = true
  | .heartbeatInterval => NumberAccepted (fun ll => 0 < ll) o
  | .electionTimeout => NumberAccepted (fun ll => 0 < ll) o

/-- The value is written in a way that the branch keeps: no empty number, nothing behind a NUL, `timeout` an `int`, `hz`
    above 500 also as an `int`, no limit out of range. Nothing is kept for `dbfilename`. -/
def Param.Plain (o : Bytes) : Param → Prop
  | .dbfilename => False
  | .maxclients => o ≠ [] ∧ (0 : UInt8) ∉ o
  | .hz => NumberPlain (fun ll => ll < 2 ^ 31 ∨ 500 ≤ toInt32 ll) o
  | .timeout => NumberPlain (fun ll => ll < 2 ^ 31) o
  | .tcpKeepalive => NumberPlain (fun _ => True) o
  | .loglevel => (0 : UInt8) ∉ o
  | .clientOutputBufferLimit => wordsPass plainLimitWord (splitTokens o 32) = true
  | .heartbeatInterval => NumberPlain (fun _ => True) o
  | .electionTimeout => NumberPlain (fun _ => True) o

theorem outcome_dbfilename (os : Os) (cfg : ServerConfig) (o : Bytes) :
    Outcome os cfg .dbfilename o (pathIsBaseName o = true) False := by
  refine ⟨fun cfg' fin hrun _ => ?_, fun hno cfg' hrun => ?_, fun hacc => ⟨cfg, ?_, rfl, ?_⟩⟩
  · cases hrun
    rfl
  · rw [Param.set, if_neg hno] at hrun
    cases hrun
  · rw [Param.set, if_pos hacc]
  · refine ⟨False.elim, ?_⟩
    rintro ⟨text, htext, -⟩
    cases htext

theorem longLong_clampHz (v : Int) : LongLong (clampHz v) := by
  unfold LongLong clampHz
  omega

/-- Every branch does what its conditions say. -/
theorem Param.outcome (os : Os) (hint : cfg.maxclients < 2 ^ 31) (p : Param) (o : Bytes) :
    Outcome os cfg p o (p.Accepts os cfg o) (p.Plain o) := by
  cases p with
  | dbfilename => exact outcome_dbfilename os cfg o
  | maxclients => exact outcome_maxclients os hint o
  | hz =>
    refine outcome_number (fun ll => clampHz (toInt32 ll)) rfl (fun _ => by rfl) (fun _ => by rfl) (fun _ => by rfl)
      (fun _ _ => longLong_clampHz _) (fun _ _ => longLong_clampHz _) fun ll hlong hvalid => ?_
    have h0 : 0 ≤ ll := by simpa using hvalid
    unfold clampHz toInt32
    omega
  | timeout =>
    refine outcome_number toInt32 rfl (fun _ => by rfl) (fun _ => by rfl) (fun _ => by rfl)
      (fun _ _ => longLong_toInt32 _) (fun _ h => h) fun ll hlong hvalid => ?_
    have h0 : 0 ≤ ll := by simpa using hvalid
    unfold toInt32
    omega
  | tcpKeepalive =>
    refine outcome_number id rfl (fun _ => by rfl) (fun _ => by rfl) (fun _ => by rfl) (fun _ h => h)
      (fun _ h => h) fun ll hlong hvalid => ?_
    have hrange : 0 ≤ ll ∧ ll < 2 ^ 31 := by simpa using hvalid
    exact ⟨fun _ => ⟨hrange, rfl⟩, fun _ => trivial⟩
  | loglevel => exact outcome_loglevel os cfg o
  | clientOutputBufferLimit => exact outcome_limits os cfg o
  | heartbeatInterval =>
    refine outcome_number id rfl (fun _ => by rfl) (fun _ => by rfl) (fun _ => by rfl) (fun _ h => h)
      (fun _ h => h) fun ll hlong hvalid => ?_
    have hpos : 0 < ll := by simpa using hvalid
    exact ⟨fun _ => ⟨⟨hpos, hlong.2⟩, rfl⟩, fun _ => trivial⟩
  | electionTimeout =>
    refine outcome_number id rfl (fun _ => by rfl) (fun _ => by rfl) (fun _ => by rfl) (fun _ h => h)
      (fun _ h => h) fun ll hlong hvalid => ?_
    have hpos : 0 < ll := by simpa using hvalid
    exact ⟨fun _ => ⟨⟨hpos, hlong.2⟩, rfl⟩, fun _ => trivial⟩

/-- **`CONFIG SET` is exact** for the requests whose name is in lower case and whose value is written as the field keeps
    it, and for those that are refused; for no others. -/
theorem config_set_exact (os : Os) (cfg : ServerConfig) (p : Param) (name o : Bytes) (hname : p.Names name)
    (hint : cfg.maxclients < 2 ^ 31) :
    SetExact os cfg p name o ↔ (p.Accepts os cfg o → name = p.name ∧ p.Plain o) :=
  (p.outcome os hint o).exact hname

/-- A system that accepts every limit. -/
def lenientOs : Os := ⟨some 20000, fun _ => true, 10, fun _ => true⟩

/-- `CONFIG SET hz 1000` is exact: 500 is stored, and shown. -/
theorem config_set_exact_hz :
    SetExact lenientOs initServerConfig .hz (ascii "hz") (ascii "1000") ∧
      shown (ascii "hz") (configFields { initServerConfig with hz := clampHz 1000 }) = [ascii "hz", ascii "500"] := by
  refine ⟨?_, by decide +kernel⟩
  refine (config_set_exact lenientOs initServerConfig .hz (ascii "hz") (ascii "1000") Param.hz.names_name
    (by decide)).mpr fun _ => ⟨rfl, ?_⟩
  refine ⟨by decide +kernel, by decide +kernel, fun ll hll => .inl ?_⟩
  rw [show getLongLongFromObject (ascii "1000") = some 1000 by decide +kernel] at hll
  cases hll
  decide

/-- `CONFIG SET timeout 4294967296` replies `OK`, and the timeout is 0. -/
theorem config_set_timeout_wraps :
    configSetParam lenientOs initServerConfig (ascii "timeout") (ascii "4294967296") = some (initServerConfig, .ok) ∧
      shown (ascii "timeout") (configFields initServerConfig) = [ascii "timeout", ascii "0"] ∧
      ¬ SetExact lenientOs initServerConfig .timeout (ascii "timeout") (ascii "4294967296") := by
  have hll : getLongLongFromObject (ascii "4294967296") = some 4294967296 := by decide +kernel
  have hset : configSetParam lenientOs initServerConfig (ascii "timeout") (ascii "4294967296") =
      some (initServerConfig, .ok) := by
    refine (configSetParam_eq lenientOs initServerConfig _ Param.timeout.names_name).trans ?_
    rw [Param.set, setNumber, hll]
    rfl
  have hshown : shown (ascii "timeout") (configFields initServerConfig) = [ascii "timeout", ascii "0"] := by
    decide +kernel
  refine ⟨hset, hshown, fun hexact => ?_⟩
  obtain ⟨-, text, ⟨v, hdec, hrange, -⟩, -⟩ := hexact.ok initServerConfig hset
  -- the value that was written is no `int`
  have hv : v = 4294967296 := by
    have := hdec.getLongLong ⟨by omega, by omega⟩
    rw [hll] at this
    exact (Option.some.inj this).symm
  omega

end Prez
