import Prez.Config.Load
import Prez.Config.Exact
import Prez.Lib.Run

/-!
# `Prez.Config.Range` — does the configuration stay in range?

The fields of the configuration are written twice: by `loadServerConfigFromString`, and by `CONFIG SET`. Both test what
they store, and `serverCron` and `clusterCron` rely on it: they divide by `hz` and by `election_timeout`.

The tests are not all there. `cluster-port` tests the upper bound of another field, `CONFIG SET timeout` tests a number
that is wider than the field, and nobody bounds `election_timeout` from above, to which `clusterCron` adds. `Bounded`
is what the timers need; each directive and each command keeps it exactly if it meets a condition on its words.
-/

namespace Prez

open Lib

/-! ## The timers -/

/-- `1000/server.hz`, which `serverCron` returns; `none` is a division by zero. -/
def cronPeriod (c : FileConfig) : Option Int := if c.hz = 0 then none else some (Int.tdiv 1000 c.hz)

/-- `election_timeout` in `clusterCron`, for a value of `random()`; `none` is a division by zero or an overflow. -/
def cronElectionTimeout (c : FileConfig) (random : Int) : Option Int :=
  if c.electionTimeout = 0 then none
  else
    let t := c.electionTimeout + random.tmod c.electionTimeout
    if -(2 ^ 63) ≤ t ∧ t < 2 ^ 63 then some t else none

/-- **The configuration is in range**, and the timers are defined, whatever `random()` returns. -/
structure ConfigInRange (c : FileConfig) : Prop where
  port : 0 ≤ c.port ∧ c.port ≤ 65535
  cport : 0 ≤ c.cport ∧ c.cport ≤ 65535
  hz : 1 ≤ c.hz ∧ c.hz ≤ 500
  maxclients : 1 ≤ c.maxclients
  maxidletime : 0 ≤ c.maxidletime
  tcpkeepalive : 0 ≤ c.tcpkeepalive
  heartbeatInterval : 1 ≤ c.heartbeatInterval
  electionTimeout : 1 ≤ c.electionTimeout
  period : (cronPeriod c).isSome = true
  delay : ∀ random, 0 ≤ random → random < 2 ^ 31 →
    ∃ t, cronElectionTimeout c random = some t ∧ c.electionTimeout ≤ t

/-- The highest `election_timeout` to which any value of `random()` can be added. -/
def maxElectionTimeout : Int := 2 ^ 63 - 2 ^ 31

/-- The bounds that are kept, step by step. -/
structure Bounded (c : FileConfig) : Prop where
  port : 0 ≤ c.port ∧ c.port ≤ 65535
  cport : 0 ≤ c.cport ∧ c.cport ≤ 65535
  hz : 1 ≤ c.hz ∧ c.hz ≤ 500
  maxclients : 1 ≤ c.maxclients ∧ c.maxclients < 2 ^ 31
  maxidletime : 0 ≤ c.maxidletime
  tcpkeepalive : 0 ≤ c.tcpkeepalive
  heartbeatInterval : 1 ≤ c.heartbeatInterval
  electionTimeout : 1 ≤ c.electionTimeout ∧ c.electionTimeout ≤ maxElectionTimeout

variable {c : FileConfig} {os : LoadOs}

/-- The sum of `clusterCron`, with both terms positive. -/
theorem cronElectionTimeout_eq (h1 : 1 ≤ c.electionTimeout) {random : Int} (h0 : 0 ≤ random) :
    cronElectionTimeout c random =
      if c.electionTimeout + random % c.electionTimeout < 2 ^ 63 then
        some (c.electionTimeout + random % c.electionTimeout) else none := by
  have hmod : 0 ≤ random % c.electionTimeout := Int.emod_nonneg _ (by omega)
  rw [cronElectionTimeout, if_neg (by omega), Int.tmod_eq_emod_of_nonneg h0]
  by_cases hlt : c.electionTimeout + random % c.electionTimeout < 2 ^ 63
  · rw [if_pos hlt]
    exact if_pos ⟨by omega, hlt⟩
  · rw [if_neg hlt]
    exact if_neg fun h => hlt h.2

/-- Every value of `random()` can be added exactly if the highest one can. -/
theorem delay_iff (h1 : 1 ≤ c.electionTimeout) :
    (∀ random, 0 ≤ random → random < 2 ^ 31 → ∃ t, cronElectionTimeout c random = some t ∧ c.electionTimeout ≤ t) ↔
      c.electionTimeout ≤ maxElectionTimeout := by
  unfold maxElectionTimeout
  constructor
  · intro h
    obtain ⟨t, ht, -⟩ := h (2 ^ 31 - 1) (by omega) (by omega)
    rw [cronElectionTimeout_eq h1 (by omega)] at ht
    split at ht
    · rename_i hlt
      -- above `random()` the remainder is the number itself
      by_cases hbig : 2 ^ 31 ≤ c.electionTimeout
      · rw [Int.emod_eq_of_lt (by omega) (by omega)] at hlt
        omega
      · omega
    · cases ht
  · intro hle random h0 hr
    have hmod : 0 ≤ random % c.electionTimeout := Int.emod_nonneg _ (by omega)
    have hrandom : random % c.electionTimeout ≤ random := by
      by_cases hlt : random < c.electionTimeout
      · rw [Int.emod_eq_of_lt h0 hlt]
      · have := Int.emod_lt_of_pos random (b := c.electionTimeout) (by omega)
        omega
    refine ⟨c.electionTimeout + random % c.electionTimeout, ?_, by omega⟩
    rw [cronElectionTimeout_eq h1 h0, if_pos (by omega)]

theorem bounded_iff (hint : c.maxclients < 2 ^ 31) : Bounded c ↔ ConfigInRange c := by
  constructor
  · intro h
    refine ⟨h.port, h.cport, h.hz, h.maxclients.1, h.maxidletime, h.tcpkeepalive, h.heartbeatInterval,
      h.electionTimeout.1, ?_, (delay_iff h.electionTimeout.1).mpr h.electionTimeout.2⟩
    have hz := h.hz
    rw [cronPeriod, if_neg (by omega)]
    rfl
  · intro h
    exact ⟨h.port, h.cport, h.hz, ⟨h.maxclients, hint⟩, h.maxidletime, h.tcpkeepalive, h.heartbeatInterval,
      h.electionTimeout, (delay_iff h.electionTimeout).mp h.delay⟩

/-- The fields that are bounded. -/
def FileConfig.bounds (c : FileConfig) : List Int :=
  [c.port, c.cport, c.hz, c.maxclients, c.maxidletime, c.tcpkeepalive, c.heartbeatInterval, c.electionTimeout]

theorem Bounded.keep {c c' : FileConfig} (h : Bounded c) (heq : c'.bounds = c.bounds) : Bounded c' := by
  simp only [FileConfig.bounds, List.cons.injEq, and_true] at heq
  obtain ⟨h1, h2, h3, h4, h5, h6, h7, h8⟩ := heq
  exact ⟨h1 ▸ h.port, h2 ▸ h.cport, h3 ▸ h.hz, h4 ▸ h.maxclients, h5 ▸ h.maxidletime, h6 ▸ h.tcpkeepalive,
    h7 ▸ h.heartbeatInterval, h8 ▸ h.electionTimeout⟩

theorem initFileConfig_bounded : Bounded initFileConfig where
  port := by decide
  cport := by decide
  hz := by decide
  maxclients := by decide
  maxidletime := by decide
  tcpkeepalive := by decide
  heartbeatInterval := by decide
  electionTimeout := by decide

/-! ## Directives -/

/-- The condition on the words of a directive: what `cluster-port` and `cluster-election-timeout` do not test. -/
def DirectiveInRange : Directive → List Bytes → Prop
  | .clusterPort, [v] => atoi v ≤ 65535
  | .clusterElectionTimeout, [v] => strtol v ≤ maxElectionTimeout
  | _, _ => True

section

variable {fail : Bytes → LoadStop} {c c' : FileConfig}

theorem loadNumber_ok {v : Int} {bad : Int → Bool} {err : String} {store : Int → FileConfig}
    (h : loadNumber fail v bad err store = .ok c') : bad v = false ∧ c' = store v := by
  unfold loadNumber at h
  split at h
  · cases h
  · rename_i hbad
    cases h
    exact ⟨by simpa using hbad, rfl⟩

theorem loadWord_ok {α : Type} {found : Option α} {err : String} {store : α → FileConfig}
    (h : loadWord fail found err store = .ok c') : ∃ a, c' = store a := by
  unfold loadWord at h
  split at h
  · cases h
  · cases h
    exact ⟨_, rfl⟩

theorem clampHz_range (x : Int) : 1 ≤ clampHz x ∧ clampHz x ≤ 500 := by
  unfold clampHz
  omega

/-- The directives that set a field with a bound. -/
def Directive.setsBound : Directive → Bool
  | .timeout | .tcpKeepalive | .port | .maxclients | .hz | .clusterHeartbeatInterval | .clusterElectionTimeout
  | .clusterPort => true
  | _ => false

variable {d : Directive} {os : LoadOs}

/-- The other directives store something else. -/
theorem exec_word_keeps {v : Bytes} (hd : d.setsBound = false) (h : d.exec fail os c [v] = .ok c') :
    c'.bounds = c.bounds := by
  cases d with
  | timeout | tcpKeepalive | port | maxclients | hz | clusterHeartbeatInterval | clusterElectionTimeout | clusterPort => cases hd
  | tcpBacklog =>
    rw [Directive.exec] at h
    obtain ⟨-, rfl⟩ := loadNumber_ok h
    rfl
  | maxmemorySamples =>
    rw [Directive.exec] at h
    obtain ⟨-, rfl⟩ := loadNumber_ok h
    rfl
  | syslogEnabled =>
    rw [Directive.exec] at h
    obtain ⟨b, rfl⟩ := loadWord_ok h
    rfl
  | syslogFacility =>
    rw [Directive.exec] at h
    obtain ⟨f, rfl⟩ := loadWord_ok h
    rfl
  | maxmemoryPolicy =>
    rw [Directive.exec] at h
    obtain ⟨p, rfl⟩ := loadWord_ok h
    rfl
  | daemonize =>
    rw [Directive.exec] at h
    obtain ⟨b, rfl⟩ := loadWord_ok h
    rfl
  | name | unixsocket | syslogIdent | pidfile | clusterConfigFile =>
    cases h
    rfl
  | bind =>
    rw [Directive.exec] at h
    split at h
    · cases h
    · cases h
      rfl
  | unixsocketperm =>
    rw [Directive.exec] at h
    split at h
    · cases h
    · dsimp only at h
      split at h
      · cases h
      · cases h
        rfl
  | dir =>
    rw [Directive.exec] at h
    split at h
    · cases h
      rfl
    · cases h
  | loglevel =>
    rw [Directive.exec] at h
    repeat (split at h; · cases h; rfl)
    cases h
  | logfile =>
    rw [Directive.exec] at h
    split at h
    · cases h
      rfl
    · split at h
      · cases h
      · cases h
        rfl
  | maxmemory =>
    rw [Directive.exec] at h
    split at h
    · cases h
    · cases h
      rfl
  | includeFile | clientOutputBufferLimit => cases h

/-- A directive with one word behind it. -/
theorem exec_word_bounded_iff {v : Bytes} (hb : Bounded c) (h : d.exec fail os c [v] = .ok c') :
    Bounded c' ↔ DirectiveInRange d [v] := by
  cases d with
  | timeout =>
    rw [Directive.exec] at h
    obtain ⟨hbad, rfl⟩ := loadNumber_ok h
    exact iff_true_intro { hb with maxidletime := by simpa using hbad }
  | tcpKeepalive =>
    rw [Directive.exec] at h
    obtain ⟨hbad, rfl⟩ := loadNumber_ok h
    exact iff_true_intro { hb with tcpkeepalive := by simpa using hbad }
  | port =>
    rw [Directive.exec] at h
    obtain ⟨hbad, rfl⟩ := loadNumber_ok h
    exact iff_true_intro { hb with port := by simpa using hbad }
  | maxclients =>
    rw [Directive.exec] at h
    obtain ⟨hbad, rfl⟩ := loadNumber_ok h
    have h1 : 1 ≤ atoi v := by simpa using hbad
    exact iff_true_intro { hb with maxclients := ⟨h1, (toInt32_range _).2⟩ }
  | hz =>
    cases h
    exact iff_true_intro { hb with hz := clampHz_range _ }
  | clusterHeartbeatInterval =>
    rw [Directive.exec] at h
    obtain ⟨hbad, rfl⟩ := loadNumber_ok h
    have h1 : 0 < strtol v := by simpa using hbad
    exact iff_true_intro { hb with heartbeatInterval := h1 }
  | clusterElectionTimeout =>
    rw [Directive.exec] at h
    obtain ⟨hbad, rfl⟩ := loadNumber_ok h
    have h1 : 0 < strtol v := by simpa using hbad
    exact ⟨fun hb' => hb'.electionTimeout.2, fun hle => { hb with electionTimeout := ⟨h1, hle⟩ }⟩
  | clusterPort =>
    rw [Directive.exec] at h
    split at h
    · cases h
    · rename_i hbad
      cases h
      rw [not_or, not_lt] at hbad
      exact ⟨fun hb' => hb'.cport.2, fun hle => { hb with cport := ⟨hbad.1, hle⟩ }⟩
  | _ => exact iff_true_intro (hb.keep (exec_word_keeps rfl h))

/-- **A directive keeps the bounds exactly if it meets the condition.** -/
theorem exec_bounded_iff {args : List Bytes} (hb : Bounded c) (h : d.exec fail os c args = .ok c') :
    Bounded c' ↔ DirectiveInRange d args := by
  match args, h with
  | [], h => cases d <;> cases h
  | [v], h => exact exec_word_bounded_iff hb h
  | v :: w :: args, h =>
    -- only the addresses and the limits take more words
    have hkeep : c'.bounds = c.bounds := by
      cases d with
      | bind =>
        rw [Directive.exec] at h
        split at h
        · cases h
        · cases h
          rfl
      | clientOutputBufferLimit =>
        match args, h with
        | [soft, seconds], h =>
          rw [Directive.exec] at h
          split at h
          · split at h
            · obtain ⟨-, rfl⟩ := loadNumber_ok h
              rfl
            · cases h
          · cases h
      | _ => cases h
    cases d <;> exact iff_true_intro (hb.keep hkeep)

end

/-! ## Texts -/

/-- What a name can open while a text is loaded: the standard input, which is empty after that, or a file, from whatever
    directory. -/
def Opens (os : LoadOs) (stdin filename content : Bytes) : Prop :=
  if filename = [45] then content = stdin ∨ content = [] else ∃ dirs, os.fopen dirs filename = some content

/-- The texts that are loaded with a text: itself, and what its `include` lines read. -/
inductive Part (os : LoadOs) (stdin text : Bytes) : Bytes → Prop where
  | self : Part os stdin text text
  | incl {t line word file content config : Bytes} {lines : List Bytes} (part : Part os stdin text t)
      (hlines : configLines t = some lines) (hline : line ∈ lines) (hargs : configArgs line = some [word, file])
      (hword : Directive.lookup word = some .includeFile) (hopen : Opens os stdin (cstr file) content)
      (hread : readConfig content [] = some config) : Part os stdin text config

/-- Every line of a text meets the condition. -/
def TextInRange (text : Bytes) : Prop :=
  ∀ lines, configLines text = some lines → ∀ line ∈ lines, ∀ word args d,
    configArgs line = some (word :: args) → Directive.lookup word = some d → DirectiveInRange d args

/-- What is kept while a text is loaded. -/
structure LoadInv (stdin : Bytes) (s : Loading) : Prop where
  bounded : Bounded s.config
  stdin : s.stdin = stdin ∨ s.stdin = []

theorem openConfig_opens {stdin filename content rest : Bytes} {s : Loading} (hs : LoadInv stdin s)
    (h : openConfig os s filename = some (content, rest)) :
    Opens os stdin filename content ∧ (rest = stdin ∨ rest = []) := by
  unfold openConfig at h
  unfold Opens
  by_cases hname : filename = [45]
  · rw [if_pos hname] at h ⊢
    cases h
    exact ⟨hs.stdin, .inr rfl⟩
  · rw [if_neg hname] at h ⊢
    obtain ⟨content', hopen, heq⟩ := Option.map_eq_some_iff.mp h
    cases heq
    exact ⟨⟨_, hopen⟩, hs.stdin⟩

/-- A line keeps the bounds if it meets the condition, and if what it includes keeps them. -/
theorem loadLine_inv {incl : Loading → Bytes → Except LoadStop Loading} {stdin line : Bytes} {linenum : Nat}
    {s s' : Loading} (hs : LoadInv stdin s)
    (hok : ∀ word args d, configArgs line = some (word :: args) → Directive.lookup word = some d → DirectiveInRange d args)
    (hincl : ∀ word file, configArgs line = some [word, file] → Directive.lookup word = some .includeFile →
      incl s (cstr file) = .ok s' → LoadInv stdin s') (h : loadLine os incl s linenum line = .ok s') :
    LoadInv stdin s' := by
  unfold loadLine at h
  dsimp only at h
  cases hargs : configArgs line with
  | none =>
    rw [hargs] at h
    cases h
  | some argv =>
    rw [hargs] at h
    cases argv with
    | nil =>
      cases h
      exact hs
    | cons word args =>
      dsimp only at h
      split at h
      · cases h
      · rename_i file hword
        exact hincl word file hargs hword h
      · rename_i args _ _ d hword _
        cases hexec : d.exec (LoadStop.loaderr linenum (sdstrim line lineBlanks)) os s.config args with
        | error e =>
          rw [hexec] at h
          cases h
        | ok c =>
          rw [hexec] at h
          cases h
          exact ⟨(exec_bounded_iff hs.bounded hexec).mpr (hok word args d hargs hword), hs.stdin⟩

/-- **A text whose parts meet the condition is loaded in bounds**, by induction on the nesting of the files. -/
theorem load_inv {stdin text : Bytes} (hok : ∀ t, Part os stdin text t → TextInRange t) :
    ∀ {depth : Nat} {t : Bytes} {s s' : Loading}, Part os stdin text t → LoadInv stdin s →
      loadServerConfigFromString os depth s t = .ok s' → LoadInv stdin s' := by
  intro depth
  induction depth with
  | zero =>
    intro t s s' _ _ h
    cases h
  | succ depth ih =>
    intro t s s' hpart hs h
    rw [loadServerConfigFromString] at h
    cases hlines : configLines t with
    | none =>
      rw [hlines] at h
      cases h
    | some lines =>
      rw [hlines] at h
      refine foldlM_invariant (fun l hl s s' hs hline => ?_) hs h
      have hmem : l.1 ∈ lines := List.fst_mem_of_mem_zipIdx hl
      refine loadLine_inv hs (hok t hpart lines hlines l.1 hmem) (fun word file hargs hword hincl => ?_) hline
      split at hincl
      · cases hincl
      · rename_i content rest hopen
        obtain ⟨hopens, hrest⟩ := openConfig_opens hs hopen
        split at hincl
        · cases hincl
        · rename_i config hread
          have hs' : LoadInv stdin { s with stdin := rest } := ⟨hs.bounded, hrest⟩
          exact ih (.incl hpart hlines hmem hargs hword hopens hread) hs' hincl

/-! ## Commands -/

/-- What happens after the file is loaded: `initServer()` adapts the number of clients to the limits of the system, and
    then commands are executed. -/
inductive ConfigStep where
  | initServer (os : Os)
  | set (os : Os) (name value : Bytes)

def ConfigStep.step (c : FileConfig) : ConfigStep → Option FileConfig
  | .initServer os =>
    (adjustOpenFilesLimit os c.maxclients).bind fun maxclients =>
      if maxclients + eventloopFdsetIncr ≥ 2 ^ 31 then none
      else some { c with maxclients, setsize := maxclients + eventloopFdsetIncr }
  | .set os name value => (configSetParam os c.toServerConfig name value).map fun r => { c with toServerConfig := r.1 }

/-- The condition on a command: what `CONFIG SET timeout` and `CONFIG SET cluster-election-timeout` do not test. -/
def SetInRange (name value : Bytes) : Prop :=
  ∀ ll, getLongLongFromObject value = some ll →
    (strcaseEq name (ascii "timeout") = true → 0 ≤ ll → 0 ≤ toInt32 ll) ∧
    (strcaseEq name (ascii "cluster-election-timeout") = true → ll ≤ maxElectionTimeout)

def ConfigStep.InRange : ConfigStep → Prop
  | .initServer _ => True
  | .set _ name value => SetInRange name value

/-- The chain of comparisons of `configSetCommand`: the branch of one parameter, or the message for an unknown one. -/
theorem configSetParam_cases (os : Os) (cfg : ServerConfig) (name o : Bytes) :
    (∃ p : Param, strcaseEq name p.name = true ∧ configSetParam os cfg name o = p.set os cfg o) ∨
      (∀ p : Param, ¬ strcaseEq name p.name = true) ∧ configSetParam os cfg name o = some (cfg, .unsupported) := by
  unfold configSetParam
  by_cases h1 : strcaseEq name (ascii "dbfilename") = true
  · exact .inl ⟨.dbfilename, h1, by rw [if_pos h1]; rfl⟩
  by_cases h2 : strcaseEq name (ascii "maxclients") = true
  · exact .inl ⟨.maxclients, h2, by rw [if_neg h1, if_pos h2]; rfl⟩
  by_cases h3 : strcaseEq name (ascii "hz") = true
  · exact .inl ⟨.hz, h3, by rw [if_neg h1, if_neg h2, if_pos h3]; rfl⟩
  rw [if_neg h1, if_neg h2, if_neg h3]
  by_cases h4 : strcaseEq name (ascii "timeout") = true
  · exact .inl ⟨.timeout, h4, by rw [if_pos h4]; rfl⟩
  by_cases h5 : strcaseEq name (ascii "tcp-keepalive") = true
  · exact .inl ⟨.tcpKeepalive, h5, by rw [if_neg h4, if_pos h5]; rfl⟩
  by_cases h6 : strcaseEq name (ascii "loglevel") = true
  · exact .inl ⟨.loglevel, h6, by rw [if_neg h4, if_neg h5, if_pos h6]; rfl⟩
  rw [if_neg h4, if_neg h5, if_neg h6]
  by_cases h7 : strcaseEq name (ascii "client-output-buffer-limit") = true
  · exact .inl ⟨.clientOutputBufferLimit, h7, by rw [if_pos h7]; rfl⟩
  by_cases h8 : strcaseEq name (ascii "cluster-heartbeat-interval") = true
  · exact .inl ⟨.heartbeatInterval, h8, by rw [if_neg h7, if_pos h8]; rfl⟩
  by_cases h9 : strcaseEq name (ascii "cluster-election-timeout") = true
  · exact .inl ⟨.electionTimeout, h9, by rw [if_neg h7, if_neg h8, if_pos h9]; rfl⟩
  refine .inr ⟨fun p => ?_, by rw [if_neg h7, if_neg h8, if_neg h9]⟩
  cases p with
  | dbfilename => exact h1
  | maxclients => exact h2
  | hz => exact h3
  | timeout => exact h4
  | tcpKeepalive => exact h5
  | loglevel => exact h6
  | clientOutputBufferLimit => exact h7
  | heartbeatInterval => exact h8
  | electionTimeout => exact h9

theorem Param.name_lower (p : Param) : (cstr p.name).map toLower = p.name := by
  cases p <;> decide +kernel

theorem Param.Names.strcaseEq {name : Bytes} {p : Param} (h : p.Names name) : strcaseEq name p.name = true := by
  rw [Lib.strcaseEq, p.name_lower, cstr_eq_self h.plain.1, h, beq_self_eq_true]

/-- A word is compared with success to one name only. -/
theorem Param.eq_of_strcaseEq {name : Bytes} {p q : Param} (hp : strcaseEq name p.name = true)
    (hq : strcaseEq name q.name = true) : p.name = q.name := by
  rw [strcaseEq, p.name_lower, beq_iff_eq] at hp
  rw [strcaseEq, q.name_lower, beq_iff_eq] at hq
  rw [← hp, hq]

/-- The number of clients after `CONFIG SET maxclients`. -/
theorem setMaxclients_bounds {os : Os} {cfg cfg' : ServerConfig} {o : Bytes} {fin : SetEnd} (h1 : 1 ≤ cfg.maxclients)
    (hint : cfg.maxclients < 2 ^ 31) (h : setMaxclients os cfg o = some (cfg', fin)) :
    1 ≤ cfg'.maxclients ∧ cfg'.maxclients < 2 ^ 31 ∧
      cfg' = { cfg with maxclients := cfg'.maxclients, setsize := cfg'.setsize } := by
  have hout := outcome_maxclients os hint o
  by_cases hfin : fin = .ok
  · subst hfin
    have hacc := not_not.mp fun hno => hout.rejected hno cfg' h
    obtain ⟨ll, hll, hpos, hraise⟩ := hacc
    rcases setMaxclients_cases os hint hll hpos with ⟨-, hlt, n, hok⟩ | ⟨hno, -⟩
    · rw [hok] at h
      cases h
      exact ⟨hpos, hlt, rfl⟩
    · exact absurd hraise hno
  · rw [hout.refused cfg' fin h hfin]
    exact ⟨h1, hint, rfl⟩

/-- What a branch that checks a number leaves. -/
theorem setNumber_result {cfg cfg' : ServerConfig} {o : Bytes} {valid : Int → Bool} {store : Int → ServerConfig}
    {fin : SetEnd} (h : setNumber cfg o valid store = (cfg', fin)) :
    (∃ ll, getLongLongFromObject o = some ll ∧ valid ll = true ∧ cfg' = store ll) ∨
      (∀ ll, getLongLongFromObject o = some ll → ¬ valid ll = true) ∧ cfg' = cfg := by
  unfold setNumber at h
  cases hll : getLongLongFromObject o with
  | none =>
    rw [hll] at h
    cases h
    exact .inr ⟨fun ll h => absurd h (Option.some_ne_none ll).symm, rfl⟩
  | some ll =>
    rw [hll] at h
    dsimp only at h
    split at h
    · rename_i hvalid
      cases h
      exact .inl ⟨ll, rfl, hvalid, rfl⟩
    · rename_i hvalid
      cases h
      exact .inr ⟨fun ll' h => Option.some.inj h ▸ hvalid, rfl⟩

section

variable {c : FileConfig} {os : Os} {name value : Bytes}

/-- The parameters other than `timeout` and `cluster-election-timeout` have no condition. -/
theorem setInRange_other {p : Param} (hname : strcaseEq name p.name = true) (ht : p.name ≠ ascii "timeout")
    (he : p.name ≠ ascii "cluster-election-timeout") : SetInRange name value := by
  intro ll _
  refine ⟨fun h => absurd ?_ ht, fun h => absurd ?_ he⟩
  · exact Param.eq_of_strcaseEq (q := .timeout) hname h
  · exact Param.eq_of_strcaseEq (q := .electionTimeout) hname h

/-- The other branches keep the bounds. -/
theorem set_bounded_other {p : Param} {cfg' : ServerConfig} {fin : SetEnd} (hb : Bounded c)
    (hsame : cfg' = c.toServerConfig → Bounded { c with toServerConfig := cfg' })
    (h : p.set os c.toServerConfig value = some (cfg', fin)) (ht : p ≠ .timeout) (he : p ≠ .electionTimeout) :
    Bounded { c with toServerConfig := cfg' } := by
  cases p with
  | timeout => exact absurd rfl ht
  | electionTimeout => exact absurd rfl he
  | hz =>
    rcases setNumber_result (Option.some.inj h) with ⟨ll, -, -, heq⟩ | ⟨-, heq⟩
    · subst heq
      exact { hb with hz := clampHz_range _ }
    · exact hsame heq
  | tcpKeepalive =>
    rcases setNumber_result (Option.some.inj h) with ⟨ll, -, hvalid, heq⟩ | ⟨-, heq⟩
    · subst heq
      have hrange : 0 ≤ ll ∧ ll < 2 ^ 31 := by simpa using hvalid
      exact { hb with tcpkeepalive := hrange.1 }
    · exact hsame heq
  | heartbeatInterval =>
    rcases setNumber_result (Option.some.inj h) with ⟨ll, -, hvalid, heq⟩ | ⟨-, heq⟩
    · subst heq
      have hpos : 0 < ll := by simpa using hvalid
      exact { hb with heartbeatInterval := hpos }
    · exact hsame heq
  | maxclients =>
    obtain ⟨h1, hlt, heq⟩ := setMaxclients_bounds hb.maxclients.1 hb.maxclients.2 h
    rw [heq]
    exact { hb with maxclients := ⟨h1, hlt⟩ }
  | dbfilename =>
    cases h
    exact hsame rfl
  | loglevel =>
    by_cases hl : IsLevel value
    · obtain ⟨level, hlevel⟩ := hl
      rw [Param.set, setLoglevel_level level hlevel] at h
      cases h
      exact hb.keep rfl
    · rw [Param.set, setLoglevel_other hl] at h
      cases h
      exact hsame rfl
  | clientOutputBufferLimit =>
    rw [Param.set, setObufLimits] at h
    split at h
    · cases h
      exact hsame rfl
    · cases h
      exact hb.keep rfl

/-- **A command keeps the bounds exactly if it meets the condition.** -/
theorem set_bounded_iff {r : ServerConfig × SetEnd} (hb : Bounded c)
    (h : configSetParam os c.toServerConfig name value = some r) :
    Bounded { c with toServerConfig := r.1 } ↔ SetInRange name value := by
  obtain ⟨cfg', fin⟩ := r
  have hsame : cfg' = c.toServerConfig → Bounded { c with toServerConfig := cfg' } := fun heq => hb.keep (by rw [heq])
  rcases configSetParam_cases os c.toServerConfig name value with ⟨p, hname, hset⟩ | ⟨hnone, hset⟩
  · rw [hset] at h
    cases p with
    | timeout =>
      have hno : ¬ strcaseEq name (ascii "cluster-election-timeout") = true := fun hq =>
        absurd (Param.eq_of_strcaseEq (p := .timeout) (q := .electionTimeout) hname hq) (by decide +kernel)
      rcases setNumber_result (Option.some.inj h) with ⟨ll, hll, hvalid, heq⟩ | ⟨hno', heq⟩
      · subst heq
        have h0 : 0 ≤ ll := by simpa using hvalid
        constructor
        · intro hb' ll' hll'
          rw [hll] at hll'
          cases hll'
          exact ⟨fun _ _ => hb'.maxidletime, fun hq => absurd hq hno⟩
        · exact fun hc => { hb with maxidletime := (hc ll hll).1 hname h0 }
      · refine iff_of_true (hsame heq) fun ll hll => ⟨fun _ h0 => ?_, fun hq => absurd hq hno⟩
        exact absurd (by simpa using h0) (hno' ll hll)
    | electionTimeout =>
      have hno : ¬ strcaseEq name (ascii "timeout") = true := fun hq =>
        absurd (Param.eq_of_strcaseEq (p := .electionTimeout) (q := .timeout) hname hq) (by decide +kernel)
      rcases setNumber_result (Option.some.inj h) with ⟨ll, hll, hvalid, heq⟩ | ⟨hno', heq⟩
      · subst heq
        have h1 : 0 < ll := by simpa using hvalid
        constructor
        · intro hb' ll' hll'
          rw [hll] at hll'
          cases hll'
          exact ⟨fun hq => absurd hq hno, fun _ => hb'.electionTimeout.2⟩
        · exact fun hc => { hb with electionTimeout := ⟨h1, (hc ll hll).2 hname⟩ }
      · refine iff_of_true (hsame heq) fun ll hll => ⟨fun hq => absurd hq hno, fun _ => ?_⟩
        have hneg : ¬ 0 < ll := by simpa using hno' ll hll
        unfold maxElectionTimeout
        omega
    | _ =>
      exact iff_of_true (set_bounded_other hb hsame h nofun nofun)
        (setInRange_other hname (by decide +kernel) (by decide +kernel))
  · rw [hset] at h
    cases h
    refine iff_of_true (hsame rfl) fun ll _ => ⟨fun hq => absurd hq (hnone .timeout), fun hq => absurd hq (hnone .electionTimeout)⟩

theorem step_bounded_iff {c' : FileConfig} {e : ConfigStep} (hb : Bounded c) (h : e.step c = some c') :
    Bounded c' ↔ e.InRange := by
  cases e with
  | initServer os =>
    obtain ⟨m, hadj, h⟩ := Option.bind_eq_some_iff.mp h
    split at h
    · cases h
    · cases h
      have hm : 1 ≤ m ∧ m < 2 ^ 31 := (adjustOpenFilesLimit_cases hadj).elim (· ▸ hb.maxclients) id
      exact iff_true_intro { hb with maxclients := hm }
  | set os name value =>
    obtain ⟨r, hset, rfl⟩ := Option.map_eq_some_iff.mp h
    exact set_bounded_iff hb hset

end

/-- **The configuration stays in range**: whatever text is loaded and whatever commands follow, if each directive and each
    command meets its condition, the fields are in range and the timers are defined. -/
theorem config_in_range (os : LoadOs) (depth : Nat) (stdin text : Bytes) {s : Loading} {c : FileConfig}
    (hload : loadServerConfigFromString os depth ⟨initFileConfig, stdin⟩ text = .ok s)
    (hparts : ∀ t, Part os stdin text t → TextInRange t)
    (hrun : RunBy ConfigStep.step (fun _ e => e.InRange) s.config c) : ConfigInRange c := by
  have hinit : LoadInv stdin ⟨initFileConfig, stdin⟩ := ⟨initFileConfig_bounded, .inl rfl⟩
  have hloaded : Bounded s.config := (load_inv hparts .self hinit hload).bounded
  have hb : Bounded c :=
    hrun.invariant (fun c e c' he hstep hb => (step_bounded_iff hb hstep).mpr he) hloaded
  exact (bounded_iff hb.maxclients.2).mp hb

/-- A system with no files but the one that is loaded. -/
def bareOs : LoadOs := ⟨fun _ _ => true, fun _ _ => none, fun _ _ => none⟩

/-- What a load gives, found by executing it. -/
theorem exists_ok {ε α β : Type} {x : Except ε α} {f : α → β} {v : β} (h : x.toOption.map f = some v) :
    ∃ a, x = .ok a ∧ f a = v := by
  cases x with
  | error e => cases h
  | ok a => exact ⟨a, rfl, Option.some.inj h⟩

/-- `cluster-port 17000` in the file, and then `CONFIG SET hz 1000`. -/
theorem config_in_range_hz :
    ∃ s c, loadServerConfigFromString bareOs 1 ⟨initFileConfig, []⟩ (ascii "cluster-port 17000") = .ok s ∧
      s.config.cport = 17000 ∧ ConfigStep.step s.config (.set lenientOs (ascii "hz") (ascii "1000")) = some c ∧
      ConfigInRange c := by
  obtain ⟨s, hload, hport⟩ : ∃ s, loadServerConfigFromString bareOs 1 ⟨initFileConfig, []⟩ (ascii "cluster-port 17000") =
      .ok s ∧ s.config.cport = 17000 := exists_ok (f := fun s : Loading => s.config.cport) (by decide +kernel)
  have hset : configSetParam lenientOs s.config.toServerConfig (ascii "hz") (ascii "1000") =
      some ({ s.config.toServerConfig with hz := 500 }, .ok) := by
    refine (configSetParam_eq lenientOs s.config.toServerConfig _ Param.hz.names_name).trans ?_
    rw [Param.set, setNumber, show getLongLongFromObject (ascii "1000") = some 1000 by decide +kernel]
    rfl
  have hstep : ConfigStep.step s.config (.set lenientOs (ascii "hz") (ascii "1000")) =
      some { s.config with hz := 500 } := by rw [ConfigStep.step, hset]; rfl
  have hlines : configLines (ascii "cluster-port 17000") = some [ascii "cluster-port 17000"] := by decide +kernel
  have hargs : configArgs (ascii "cluster-port 17000") = some [ascii "cluster-port", ascii "17000"] := by decide +kernel
  have hword : Directive.lookup (ascii "cluster-port") = some .clusterPort := by decide +kernel
  -- the text has no part but itself
  have hself : ∀ t, Part bareOs [] (ascii "cluster-port 17000") t → t = ascii "cluster-port 17000" := by
    intro t ht
    induction ht with
    | self => rfl
    | incl part hl hline ha hw hopen hread ih =>
        subst ih
        rw [hlines] at hl
        cases hl
        rw [List.mem_singleton.mp hline, hargs] at ha
        cases ha
        rw [hword] at hw
        cases hw
  refine ⟨s, _, hload, hport, hstep, ?_⟩
  refine config_in_range bareOs 1 [] (ascii "cluster-port 17000") hload (fun t ht => ?_)
    (.single ⟨.set lenientOs (ascii "hz") (ascii "1000"), ?_, hstep⟩)
  · intro lines hl line hline word args d ha hw
    rw [hself t ht, hlines] at hl
    cases hl
    rw [List.mem_singleton.mp hline, hargs] at ha
    cases ha
    rw [hword] at hw
    cases hw
    show atoi (ascii "17000") ≤ 65535
    decide +kernel
  · exact setInRange_other Param.hz.names_name.strcaseEq (by decide +kernel) (by decide +kernel)

/-- `cluster-port 70000` is accepted; so is `CONFIG SET timeout 2147483648`, which makes the timeout negative; and after
    `CONFIG SET cluster-election-timeout 9223372036854775807` the sum in `clusterCron` overflows. -/
theorem config_out_of_range :
    (∃ s, loadServerConfigFromString bareOs 1 ⟨initFileConfig, []⟩ (ascii "cluster-port 70000") = .ok s ∧
      s.config.cport = 70000 ∧ ¬ ConfigInRange s.config) ∧
    (∃ c, ConfigStep.step initFileConfig (.set lenientOs (ascii "timeout") (ascii "2147483648")) = some c ∧
      c.maxidletime = -2147483648 ∧ ¬ ConfigInRange c) ∧
    ∃ c, ConfigStep.step initFileConfig
        (.set lenientOs (ascii "cluster-election-timeout") (ascii "9223372036854775807")) = some c ∧
      cronElectionTimeout c 1 = none ∧ ¬ ConfigInRange c := by
  refine ⟨?_, ?_, ?_⟩
  · obtain ⟨s, hload, hport⟩ : ∃ s, loadServerConfigFromString bareOs 1 ⟨initFileConfig, []⟩
        (ascii "cluster-port 70000") = .ok s ∧ s.config.cport = 70000 :=
      exists_ok (f := fun s : Loading => s.config.cport) (by decide +kernel)
    refine ⟨s, hload, hport, fun h => ?_⟩
    have := h.cport.2
    omega
  · obtain ⟨c, hstep, htimeout⟩ := Option.map_eq_some_iff.mp (show
      (ConfigStep.step initFileConfig (.set lenientOs (ascii "timeout") (ascii "2147483648"))).map
        (fun c => c.maxidletime) = some (-2147483648) by decide +kernel)
    refine ⟨c, hstep, htimeout, fun h => ?_⟩
    have := h.maxidletime
    omega
  · obtain ⟨c, hstep, hdelay⟩ := Option.map_eq_some_iff.mp (show
      (ConfigStep.step initFileConfig
        (.set lenientOs (ascii "cluster-election-timeout") (ascii "9223372036854775807"))).map
          (fun c => cronElectionTimeout c 1) = some none by decide +kernel)
    refine ⟨c, hstep, hdelay, fun h => ?_⟩
    obtain ⟨t, ht, -⟩ := h.delay 1 (by decide) (by decide)
    rw [hdelay] at ht
    cases ht

end Prez
