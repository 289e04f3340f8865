import Prez.Config.Glob
import Prez.Client.Input
import Prez.Lib.Printf
import Prez.Split

/-!
# `Prez.Config.Params` — the parameters of `CONFIG`

The part of `server` that `config.c` reads and writes at run time, and what `CONFIG SET` does to it, one branch for
each parameter. The branches that are compiled out (`#if 0`) are not there; of `dbfilename` only the test of the
name is left.

`CONFIG SET maxclients` asks the operating system for file descriptors and the event loop for slots. What they answer
is an input (`Os`). There is no result when the process exits or an `int` overflows.
-/

namespace Prez

open Lib

/-! ## Numbers -/

/-- The digits that `strtoll` converts start here. -/
def strtollDigits (s : Bytes) : Bytes :=
  match (cstr s).dropWhile isSpace with
  | 45 :: b => b
  | 43 :: b => b
  | b => b

/-- `*eptr` after `strtoll(s, &eptr, 10)`: without a digit nothing is converted. -/
def strtollEnd (s : Bytes) : Bytes :=
  if (strtollDigits s).head?.any isDigit then (strtollDigits s).dropWhile isDigit else cstr s

/-- `errno == ERANGE` after it. -/
def strtollOverflow (s : Bytes) : Bool :=
  match (cstr s).dropWhile isSpace with
  | 45 :: b => decide (2 ^ 63 < digitsValue 0 b)
  | _ => decide (2 ^ 63 ≤ digitsValue 0 (strtollDigits s))

/-- `getLongLongFromObject` on the text of an object; `none` is `PREZ_ERR`. -/
def getLongLongFromObject (s : Bytes) : Option Int :=
  if s.head?.any isSpace ∨ strtollEnd s ≠ [] ∨ strtollOverflow s then none else some (strtol s)

/-- The tokens of `sdssplitlen(s, len, sep, 1, &count)`. -/
def splitTokens (s : Bytes) (sep : UInt8) : List Bytes := if s = [] then [] else s.splitOn sep

/-- They fit the array of `Split.sdssplitlen` for every argument of a request. -/
theorem splitTokens_eq {s : Bytes} (hs : s.length ≤ 2 ^ 29) (sep : UInt8) :
    Split.sdssplitlen s [sep] = some (some (splitTokens s sep)) := by
  by_cases hne : s = []
  · subst hne
    rfl
  have hfits : Split.Fits [sep] 0 (pieces [sep] s) := by
    have hcount := length_piecesFrom_mul_le [sep] [] s
    rw [List.length_singleton, Nat.mul_one, ← pieces] at hcount
    left
    unfold Split.maxTokens
    omega
  rw [Split.sdssplitlen_eq (List.cons_ne_nil _ _) hne hfits, splitTokens, if_neg hne, pieces_singleton]

/-- `pathIsBaseName(path)`. -/
def pathIsBaseName (path : Bytes) : Bool := (strchr 47 path).isNone && (strchr 92 path).isNone

/-! ## The configuration -/

/-- `PREZ_DEBUG` to `PREZ_WARNING`. -/
inductive LogLevel where
  | debug
  | verbose
  | notice
  | warning
deriving DecidableEq

/-- `clientBufferLimitsConfig`. -/
structure BufferLimits where
  hardLimitBytes : UInt64
  softLimitBytes : UInt64
  softLimitSeconds : Int

/-- The fields of `server` that `CONFIG` uses, with those of `server.cluster` and the size of the event loop.
    `PREZ_CLIENT_TYPE_NORMAL` is the only class of `client_obuf_limits`. -/
structure ServerConfig where
  unixsocket : Option Bytes
  logfile : Option Bytes
  pidfile : Option Bytes
  maxidletime : Int
  tcpkeepalive : Int
  port : Int
  tcpBacklog : Int
  maxclients : Int
  hz : Int
  electionTimeout : Int
  heartbeatInterval : Int
  verbosity : LogLevel
  clientObufLimits : BufferLimits
  unixsocketperm : UInt32
  setsize : Int

/-- `initServerConfig()`, with the event loop of `initServer()`. -/
def initServerConfig : ServerConfig where
  unixsocket := none
  logfile := some []
  pidfile := some (ascii "/var/run/prez.pid")
  maxidletime := 0
  tcpkeepalive := 0
  port := 7981
  tcpBacklog := 511
  maxclients := 10000
  hz := 100
  electionTimeout := 150
  heartbeatInterval := 10
  verbosity := .debug
  clientObufLimits := ⟨0, 0, 0⟩
  unixsocketperm := 0
  setsize := 10000 + 128

/-- What the system answers: the limit on open files, which limits it accepts, the highest descriptor in use, and which
    sizes the polling interface accepts. -/
structure Os where
  getrlimit : Option Nat
  setrlimit : Nat → Bool
  maxfd : Int
  aeApiResize : Int → Bool

/-- What `configSetCommand` ends with: a call of `addReply`, of `addReplyError`, of `addReplyErrorFormat`, the label
    `badfmt`, or the branch for an unknown parameter. -/
inductive SetEnd where
  | ok
  | error (err : Bytes)
  | format (message : Bytes)
  | badfmt
  | unsupported

/-! ## `CONFIG SET` -/

/-- A number that is checked and stored. -/
def setNumber (cfg : ServerConfig) (o : Bytes) (valid : Int → Bool) (store : Int → ServerConfig) : ServerConfig × SetEnd :=
  match getLongLongFromObject o with
  | none => (cfg, .badfmt)
  | some ll => if valid ll then (store ll, .ok) else (cfg, .badfmt)

/-- The loop of `adjustOpenFilesLimit`: 16 less at each try. -/
def tryLimits (os : Os) (oldlimit : Nat) (f : Nat) : Nat :=
  if f > oldlimit then
    if os.setrlimit f then f else if f < 16 then f else tryLimits os oldlimit (f - 16)
  else f
termination_by f
decreasing_by omega

/-- `PREZ_MIN_RESERVED_FDS`. -/
def minReservedFds : Int := 32

/-- `PREZ_EVENTLOOP_FDSET_INCR`. -/
def eventloopFdsetIncr : Int := minReservedFds + 96

/-- `adjustOpenFilesLimit()`: the new value of `server.maxclients`. -/
def adjustOpenFilesLimit (os : Os) (maxclients : Int) : Option Int :=
  if maxclients + minReservedFds ≥ 2 ^ 31 then none
  else
    let maxfiles := (toULong (maxclients + minReservedFds)).toNat
    match os.getrlimit with
    | none => some (1024 - minReservedFds)
    | some oldlimit =>
      if oldlimit < maxfiles then
        let f := max (tryLimits os oldlimit maxfiles) oldlimit
        if f ≠ maxfiles then
          let maxclients := toInt32 (f - minReservedFds)
          if maxclients < 1 then none else some maxclients
        else some maxclients
      else some maxclients

/-- `aeResizeSetSize(server.el, setsize)`; `none` is `AE_ERR`. -/
def aeResizeSetSize (os : Os) (cfg : ServerConfig) (setsize : Int) : Option ServerConfig :=
  if setsize = cfg.setsize then some cfg
  else if os.maxfd ≥ setsize then none
  else if os.aeApiResize setsize then some { cfg with setsize }
  else none

/-- `CONFIG SET maxclients`. -/
def setMaxclients (os : Os) (cfg : ServerConfig) (o : Bytes) : Option (ServerConfig × SetEnd) :=
  match getLongLongFromObject o with
  | none => some (cfg, .badfmt)
  | some ll =>
    if ll < 1 then some (cfg, .badfmt)
    else if ll > cfg.maxclients then
      (adjustOpenFilesLimit os (toInt32 ll)).bind fun maxclients =>
      if maxclients ≠ ll then
        some (cfg, .format (ascii "The operating system is not able to handle the specified number of clients, try with "
          ++ llText maxclients))
      else if maxclients + eventloopFdsetIncr ≥ 2 ^ 31 then none
      else if cfg.setsize < maxclients + eventloopFdsetIncr then
        match aeResizeSetSize os { cfg with maxclients } (maxclients + eventloopFdsetIncr) with
        | none =>
          some (cfg, .error (ascii
            "The event loop API used by Prez is not able to handle the specified number of clients"))
        | some cfg => some (cfg, .ok)
      else some ({ cfg with maxclients }, .ok)
    else some ({ cfg with maxclients := toInt32 ll }, .ok)

/-- `CONFIG SET loglevel`. -/
def setLoglevel (cfg : ServerConfig) (o : Bytes) : ServerConfig × SetEnd :=
  if strcaseEq o (ascii "warning") then ({ cfg with verbosity := .warning }, .ok)
  else if strcaseEq o (ascii "notice") then ({ cfg with verbosity := .notice }, .ok)
  else if strcaseEq o (ascii "verbose") then ({ cfg with verbosity := .verbose }, .ok)
  else if strcaseEq o (ascii "debug") then ({ cfg with verbosity := .debug }, .ok)
  else (cfg, .badfmt)

/-- The check of the `j`-th word of a limit: a class, or a number that is not negative. -/
def limitWordOk (v : Bytes) (j : Nat) : Bool :=
  if j % 4 = 0 then strcaseEq v (ascii "normal") else strtollEnd v = [] && decide (0 ≤ strtol v)

/-- The limits, four words each; the seconds go through an `int`. -/
def setLimits : List Bytes → BufferLimits → BufferLimits
  | _ :: hard :: soft :: seconds :: v, _ =>
    setLimits v ⟨UInt64.ofNat (strtol hard).toNat, UInt64.ofNat (strtol soft).toNat, toInt32 (strtol seconds)⟩
  | _, limits => limits

/-- `CONFIG SET client-output-buffer-limit`. -/
def setObufLimits (cfg : ServerConfig) (o : Bytes) : ServerConfig × SetEnd :=
  let v := splitTokens o 32
  if v.length % 4 ≠ 0 ∨ !(v.zipIdx.all fun w => limitWordOk w.1 w.2) then (cfg, .badfmt)
  else ({ cfg with clientObufLimits := setLimits v cfg.clientObufLimits }, .ok)

/-- `PREZ_MIN_HZ` and `PREZ_MAX_HZ`. -/
def clampHz (hz : Int) : Int := min (max hz 1) 500

/-- The branches of `configSetCommand` for the parameter `name` and the value `o`. -/
def configSetParam (os : Os) (cfg : ServerConfig) (name o : Bytes) : Option (ServerConfig × SetEnd) :=
  if strcaseEq name (ascii "dbfilename") then
    some (cfg, if pathIsBaseName o then .ok else .error (ascii "dbfilename can't be a path, just a filename"))
  else if strcaseEq name (ascii "maxclients") then setMaxclients os cfg o
  else if strcaseEq name (ascii "hz") then
    some (setNumber cfg o (fun ll => 0 ≤ ll) fun ll => { cfg with hz := clampHz (toInt32 ll) })
  else if strcaseEq name (ascii "timeout") then
    some (setNumber cfg o (fun ll => 0 ≤ ll) fun ll => { cfg with maxidletime := toInt32 ll })
  else if strcaseEq name (ascii "tcp-keepalive") then
    some (setNumber cfg o (fun ll => 0 ≤ ll && ll < 2 ^ 31) fun ll => { cfg with tcpkeepalive := ll })
  else if strcaseEq name (ascii "loglevel") then some (setLoglevel cfg o)
  else if strcaseEq name (ascii "client-output-buffer-limit") then some (setObufLimits cfg o)
  else if strcaseEq name (ascii "cluster-heartbeat-interval") then
    some (setNumber cfg o (fun ll => 0 < ll) fun ll => { cfg with heartbeatInterval := ll })
  else if strcaseEq name (ascii "cluster-election-timeout") then
    some (setNumber cfg o (fun ll => 0 < ll) fun ll => { cfg with electionTimeout := ll })
  else some (cfg, .unsupported)

/-! ## `CONFIG GET` -/

/-- `config_get_string_field`: NULL is shown as the empty string. -/
def stringField (name : String) (var : Option Bytes) : Bytes × Bytes := (ascii name, var.getD [])

/-- `config_get_numerical_field`. -/
def numericalField (name : String) (var : Int) : Bytes × Bytes := (ascii name, ll2string 128 var)

def LogLevel.name : LogLevel → Bytes
  | .warning => ascii "warning"
  | .verbose => ascii "verbose"
  | .notice => ascii "notice"
  | .debug => ascii "debug"

/-- `sdscatprintf(buf, "%s %llu %llu %ld", ...)`. -/
def BufferLimits.text (l : BufferLimits) : Bytes :=
  ascii "normal " ++ decimal l.hardLimitBytes.toNat ++ ascii " " ++ decimal l.softLimitBytes.toNat ++ ascii " " ++
    llText l.softLimitSeconds

/-- The digits that `%o` prints. -/
def octal (n : Nat) : Bytes := (convDigits .octal 64 n).headD 48 :: (convDigits .octal 64 n).tail

/-- The parameters that `CONFIG GET` can show, in the order of the source, with the text of their values. -/
def configFields (cfg : ServerConfig) : List (Bytes × Bytes) :=
  [stringField "unixsocket" cfg.unixsocket,
    stringField "logfile" cfg.logfile,
    stringField "pidfile" cfg.pidfile,
    numericalField "timeout" cfg.maxidletime,
    numericalField "tcp-keepalive" cfg.tcpkeepalive,
    numericalField "port" cfg.port,
    numericalField "tcp-backlog" cfg.tcpBacklog,
    numericalField "maxclients" cfg.maxclients,
    numericalField "hz" cfg.hz,
    numericalField "cluster-election-timeout" cfg.electionTimeout,
    numericalField "cluster-heartbeat-interval" cfg.heartbeatInterval,
    (ascii "loglevel", cfg.verbosity.name),
    (ascii "client-output-buffer-limit", cfg.clientObufLimits.text),
    (ascii "unixsocketperm", octal cfg.unixsocketperm.toNat)]

/-! ## What `CONFIG SET` keeps -/

/-- The texts of the configuration are no longer than an argument of a request, and the seconds are a `time_t`. -/
structure ConfigOk (cfg : ServerConfig) : Prop where
  unixsocket : (cfg.unixsocket.getD []).length ≤ 2 ^ 29
  logfile : (cfg.logfile.getD []).length ≤ 2 ^ 29
  pidfile : (cfg.pidfile.getD []).length ≤ 2 ^ 29
  seconds : LongLong cfg.clientObufLimits.softLimitSeconds

/-- The defaults are short. -/
theorem initServerConfig_ok : ConfigOk initServerConfig := ⟨by decide, by decide, by decide, by decide⟩

/-- A fixed message: no line breaks, and no NUL. -/
def FixedText (err : Bytes) : Prop := (∀ b ∈ err, b ≠ 13 ∧ b ≠ 10 ∧ b ≠ 0) ∧ err.length < 2 ^ 29
deriving Decidable

/-- What is known of an end of `configSetCommand`. -/
structure SetOk (r : ServerConfig × SetEnd) : Prop where
  config : ConfigOk r.1
  error : ∀ err, r.2 = .error err → FixedText err
  format : ∀ message, r.2 = .format message → message.length < 2 ^ 29

theorem longLong_toInt32 (x : Int) : LongLong (toInt32 x) := by
  unfold LongLong toInt32
  omega

section

variable {cfg : ServerConfig}

section

variable (h : ConfigOk cfg)

include h

/-- An end without a text of its own. -/
theorem SetOk.simple {fin : SetEnd} (herror : ∀ err, fin ≠ .error err) (hformat : ∀ m, fin ≠ .format m) :
    SetOk (cfg, fin) :=
  ⟨h, fun err heq => absurd heq (herror err), fun m heq => absurd heq (hformat m)⟩

theorem SetOk.ok : SetOk (cfg, .ok) := .simple h nofun nofun

theorem SetOk.badfmt : SetOk (cfg, .badfmt) := .simple h nofun nofun

/-- A fixed message. -/
theorem setOk_error {err : Bytes} (herr : FixedText err) : SetOk (cfg, .error err) :=
  ⟨h, fun _ heq => SetEnd.error.inj heq ▸ herr, nofun⟩

/-- A message with what was sent in it. -/
theorem setOk_format {message : Bytes} (hlen : message.length < 2 ^ 29) : SetOk (cfg, .format message) :=
  ⟨h, nofun, fun _ heq => SetEnd.format.inj heq ▸ hlen⟩

/-- A branch that checks a number. -/
theorem setNumber_ok (o : Bytes) (valid : Int → Bool) {store : Int → ServerConfig}
    (hstore : ∀ ll, ConfigOk (store ll)) : SetOk (setNumber cfg o valid store) := by
  unfold setNumber
  split
  · exact .badfmt h
  split
  · exact .ok (hstore _)
  · exact .badfmt h

/-- `CONFIG SET loglevel`. -/
theorem setLoglevel_ok (o : Bytes) : SetOk (setLoglevel cfg o) := by
  have hset : ∀ level, ConfigOk { cfg with verbosity := level } := fun _ => { h with }
  unfold setLoglevel
  split
  · exact .ok (hset _)
  split
  · exact .ok (hset _)
  split
  · exact .ok (hset _)
  split
  · exact .ok (hset _)
  · exact .badfmt h

end

/-- The seconds are converted to `int`. -/
theorem setLimits_seconds (v : List Bytes) {limits : BufferLimits} (h : LongLong limits.softLimitSeconds) :
    LongLong (setLimits v limits).softLimitSeconds := by
  fun_induction setLimits v limits with
  | case1 _ _ hard soft seconds v ih => exact ih (longLong_toInt32 _)
  | case2 => exact h

/-- `CONFIG SET client-output-buffer-limit`. -/
theorem setObufLimits_ok (h : ConfigOk cfg) (o : Bytes) : SetOk (setObufLimits cfg o) := by
  unfold setObufLimits
  dsimp only
  split
  · exact .badfmt h
  · exact .ok { h with seconds := setLimits_seconds _ h.seconds }

/-- What `adjustOpenFilesLimit` leaves: the number, or one that the system has room for. -/
theorem adjustOpenFilesLimit_cases {os : Os} {maxclients m : Int} (h : adjustOpenFilesLimit os maxclients = some m) :
    m = maxclients ∨ 1 ≤ m ∧ m < 2 ^ 31 := by
  unfold adjustOpenFilesLimit at h
  split at h
  · cases h
  dsimp only at h
  split at h
  · cases h
    exact .inr (by decide)
  split at h
  · split at h
    · split at h
      · cases h
      · rename_i hlt
        cases h
        exact .inr ⟨by omega, (toInt32_range _).2⟩
    · cases h
      exact .inl rfl
  · cases h
    exact .inl rfl

/-- `CONFIG SET maxclients`. -/
theorem setMaxclients_ok (os : Os) (h : ConfigOk cfg) (o : Bytes) {r : ServerConfig × SetEnd}
    (hr : setMaxclients os cfg o = some r) : SetOk r := by
  have hset : ∀ m n, ConfigOk { cfg with maxclients := m, setsize := n } := fun _ _ => { h with }
  unfold setMaxclients at hr
  split at hr
  · cases hr
    exact .badfmt h
  split at hr
  · cases hr
    exact .badfmt h
  split at hr
  · obtain ⟨m, hm, hr⟩ := Option.bind_eq_some_iff.mp hr
    split at hr
    · -- the limit that was possible is a number of at most twenty characters
      cases hr
      have hlong : LongLong m := by
        rcases adjustOpenFilesLimit_cases hm with rfl | hm
        · exact longLong_toInt32 _
        · unfold LongLong
          omega
      have hlen := llText_length hlong
      refine setOk_format h ?_
      rw [List.length_append]
      have htext : (ascii "The operating system is not able to handle the specified number of clients, try with ").length
          = 85 := by decide +kernel
      omega
    split at hr
    · cases hr
    split at hr
    · split at hr
      · cases hr
        exact setOk_error h (by decide +kernel)
      · rename_i hresize
        cases hr
        unfold aeResizeSetSize at hresize
        split at hresize
        · cases hresize
          exact .ok (hset _ _)
        split at hresize
        · cases hresize
        split at hresize
        · cases hresize
          exact .ok (hset _ _)
        · cases hresize
    · cases hr
      exact .ok (hset _ _)
  · cases hr
    exact .ok (hset _ _)

/-- One test of a chain of `else if`. -/
theorem else_if {c : Prop} [Decidable c] {α : Type} {x y : Option α} {P : Option α → Prop} (hx : c → P x) (hy : P y) :
    P (if c then x else y) := by
  split
  · rename_i hc
    exact hx hc
  · exact hy

/-- The ends of `configSetCommand`. -/
theorem configSetParam_ok (os : Os) (h : ConfigOk cfg) (name o : Bytes) :
    ∀ r, configSetParam os cfg name o = some r → SetOk r := by
  have hends : ∀ {r : ServerConfig × SetEnd}, SetOk r → ∀ r', some r = some r' → SetOk r' := by
    rintro r hr _ ⟨⟩
    exact hr
  -- a number is stored in a field that no text or limit depends on
  have hnumber : ∀ (valid : Int → Bool) {store : Int → ServerConfig}, (∀ ll, ConfigOk (store ll)) →
      ∀ r, some (setNumber cfg o valid store) = some r → SetOk r :=
    fun valid _ hstore => hends (setNumber_ok h o valid hstore)
  have hnext : ∀ {c : Prop} [Decidable c] {x y : Option (ServerConfig × SetEnd)}, (∀ r, x = some r → SetOk r) →
      (∀ r, y = some r → SetOk r) → ∀ r, (if c then x else y) = some r → SetOk r :=
    fun hx hy => else_if (P := fun x => ∀ r, x = some r → SetOk r) (fun _ => hx) hy
  unfold configSetParam
  refine hnext (hends ?_) ?_
  · split
    · exact .ok h
    · exact setOk_error h (by decide +kernel)
  refine hnext (fun r hr => setMaxclients_ok os h o hr) ?_
  refine hnext (hnumber _ fun _ => { h with }) ?_
  refine hnext (hnumber _ fun _ => { h with }) ?_
  refine hnext (hnumber _ fun _ => { h with }) ?_
  refine hnext (hends (setLoglevel_ok h o)) ?_
  refine hnext (hends (setObufLimits_ok h o)) ?_
  refine hnext (hnumber _ fun _ => { h with }) ?_
  refine hnext (hnumber _ fun _ => { h with }) ?_
  exact hends (.simple h nofun nofun)

/-! ## When `CONFIG SET` ends -/

/-- `CONFIG SET maxclients` can go on with a larger number `ll`: `adjustOpenFilesLimit` returns, and if the system can
    handle that many clients, the size of the event loop is an `int`. -/
def RaiseEnds (os : Os) (ll : Int) : Prop :=
  ∃ m, adjustOpenFilesLimit os (toInt32 ll) = some m ∧ (m = ll → ll + eventloopFdsetIncr < 2 ^ 31)

/-- Only a larger number can stop `CONFIG SET maxclients`. -/
theorem setMaxclients_isSome_iff {os : Os} {o : Bytes} : (setMaxclients os cfg o).isSome = true ↔
    ∀ ll, getLongLongFromObject o = some ll → 1 ≤ ll → cfg.maxclients < ll → RaiseEnds os ll := by
  unfold setMaxclients
  cases getLongLongFromObject o with
  | none => exact ⟨fun _ => nofun, fun _ => rfl⟩
  | some ll =>
    simp only [Option.some.injEq, forall_eq']
    by_cases hraise : 1 ≤ ll ∧ cfg.maxclients < ll
    · rw [if_neg (by omega), if_pos hraise.2, imp_iff_right hraise.1, imp_iff_right hraise.2, RaiseEnds]
      cases adjustOpenFilesLimit os (toInt32 ll) with
      | none => exact ⟨nofun, nofun⟩
      | some m =>
        simp only [Option.bind_some, Option.some.injEq, exists_eq_left']
        by_cases hm : m = ll
        · subst hm
          rw [if_neg (not_not.mpr rfl), imp_iff_right rfl]
          by_cases hfits : m + eventloopFdsetIncr < 2 ^ 31
          · rw [if_neg (not_le.mpr hfits)]
            refine iff_of_true ?_ hfits
            split
            · split <;> rfl
            · rfl
          · rw [if_pos (not_lt.mp hfits)]
            exact iff_of_false nofun hfits
        · rw [if_pos hm]
          exact iff_of_true rfl fun h => absurd h hm
    · refine iff_of_true ?_ fun h1 hmore => absurd ⟨h1, hmore⟩ hraise
      split
      · rfl
      · rw [if_neg (by omega)]
        rfl

/-- A word is not equal, without regard to case, to each of two words that differ in more than case. -/
theorem strcaseEq_other {a b c : Bytes} (h : strcaseEq a b = true) (hne : strcaseEq b c = false) : strcaseEq a c = false := by
  unfold strcaseEq at *
  rw [eq_of_beq h]
  exact hne

/-- No other parameter asks the system. -/
theorem configSetParam_isSome_iff {os : Os} {name o : Bytes} : (configSetParam os cfg name o).isSome = true ↔
    (strcaseEq name (ascii "maxclients") = true → (setMaxclients os cfg o).isSome = true) := by
  unfold configSetParam
  by_cases hname : strcaseEq name (ascii "maxclients") = true
  · rw [strcaseEq_other hname (by decide +kernel), if_neg Bool.false_ne_true, if_pos hname, imp_iff_right hname]
  · refine iff_of_true ?_ fun h => absurd h hname
    refine else_if (P := fun x => x.isSome = true) (fun _ => rfl) ?_
    rw [if_neg hname]
    iterate 7 refine else_if (P := fun x => x.isSome = true) (fun _ => rfl) ?_
    rfl

end

end Prez
