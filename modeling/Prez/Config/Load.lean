import Prez.Config.Lines
import Prez.Config.Params

/-!
# `Prez.Config.Load` — `loadServerConfigFromString`

The configuration file is read line by line; the first word of a line selects one branch of a chain of comparisons, which
stores the other words in fields of `server`. A branch that does not like its value goes to the label `loaderr`, which
reports the line and exits; so what is loaded is loaded completely, or there is no server.

`include` loads another file in the middle of a line. How deep such files may nest is a parameter (`depth`): the source
recurses until its stack is used up.
-/

namespace Prez

open Lib

/-! ## Words -/

/-- The multiplier of a unit; the units that are not known count as 1. -/
def memtollUnit (u : Bytes) : Int :=
  if u = [] ∨ strcaseEq u (ascii "b") then 1
  else if strcaseEq u (ascii "k") then 1000
  else if strcaseEq u (ascii "kb") then 1024
  else if strcaseEq u (ascii "m") then 1000 * 1000
  else if strcaseEq u (ascii "mb") then 1024 * 1024
  else if strcaseEq u (ascii "g") then 1000 * 1000 * 1000
  else if strcaseEq u (ascii "gb") then 1024 * 1024 * 1024
  else 1

/-- `memtoll(p, NULL)`; `none` is a product that is no `long long`. -/
def memtoll (p : Bytes) : Option Int :=
  let p := cstr p
  let u := (match p with | 45 :: b => b | b => b).dropWhile isDigit
  let digits := p.length - u.length
  if 128 ≤ digits then some (2 ^ 63 - 1)
  else
    let val := strtol (p.take digits) * memtollUnit u
    if -(2 ^ 63) ≤ val ∧ val < 2 ^ 63 then some val else none

/-- `yesnotoi(s)`; `none` is -1. -/
def yesnotoi (s : Bytes) : Option Bool :=
  if strcaseEq s (ascii "yes") then some true else if strcaseEq s (ascii "no") then some false else none

/-- The value of the octal digits in front. -/
def octalValue (acc : Nat) : Bytes → Nat
  | [] => acc
  | c :: b => if 48 ≤ c ∧ c ≤ 55 then octalValue (acc * 8 + (c.toNat - 48)) b else acc

/-- `strtol(s, NULL, 8)`; `none` sets `errno`. -/
def strtolOctal (s : Bytes) : Option Int :=
  let v : Int :=
    match (cstr s).dropWhile isSpace with
    | 45 :: b => -(octalValue 0 b)
    | 43 :: b => octalValue 0 b
    | b => octalValue 0 b
  if -(2 ^ 63) ≤ v ∧ v < 2 ^ 63 then some v else none

/-! ## What a file can set -/

/-- `validSyslogFacilities`. -/
inductive SyslogFacility where
  | user
  | local0
  | local1
  | local2
  | local3
  | local4
  | local5
  | local6
  | local7

def SyslogFacility.name : SyslogFacility → Bytes
  | .user => ascii "user"
  | .local0 => ascii "local0"
  | .local1 => ascii "local1"
  | .local2 => ascii "local2"
  | .local3 => ascii "local3"
  | .local4 => ascii "local4"
  | .local5 => ascii "local5"
  | .local6 => ascii "local6"
  | .local7 => ascii "local7"

def SyslogFacility.valid : List SyslogFacility :=
  [.user, .local0, .local1, .local2, .local3, .local4, .local5, .local6, .local7]

/-- `PREZ_MAXMEMORY_VOLATILE_LRU` to `PREZ_MAXMEMORY_NO_EVICTION`. -/
inductive MaxmemoryPolicy where
  | volatileLru
  | volatileTtl
  | volatileRandom
  | allkeysLru
  | allkeysRandom
  | noEviction

/-- The names of the policies, in the order of the comparisons. -/
def MaxmemoryPolicy.names : List (Bytes × MaxmemoryPolicy) :=
  [(ascii "volatile-lru", .volatileLru), (ascii "volatile-random", .volatileRandom), (ascii "volatile-ttl", .volatileTtl),
    (ascii "allkeys-lru", .allkeysLru), (ascii "allkeys-random", .allkeysRandom), (ascii "noeviction", .noEviction)]

/-- The fields of `server` that a configuration file sets: those of `CONFIG`, and these; with the directories that the
    process went to, the last one first. -/
structure FileConfig extends ServerConfig where
  name : Bytes
  bindaddr : List Bytes
  syslogEnabled : Bool
  syslogIdent : Bytes
  syslogFacility : SyslogFacility
  maxmemory : UInt64
  maxmemoryPolicy : MaxmemoryPolicy
  maxmemorySamples : Int
  daemonize : Bool
  cport : Int
  clusterConfigfile : Option Bytes
  dirs : List Bytes

/-- `initServerConfig()`; `server` is a global variable, so the memory fields are 0. -/
def initFileConfig : FileConfig where
  toServerConfig := initServerConfig
  name := ascii "prezserver"
  bindaddr := []
  syslogEnabled := false
  syslogIdent := ascii "prez"
  syslogFacility := .local0
  maxmemory := 0
  maxmemoryPolicy := .volatileLru
  maxmemorySamples := 0
  daemonize := false
  cport := 17981
  clusterConfigfile := none
  dirs := []

/-- Why there is no server: the label `loaderr` with what it prints, another `exit(1)`, or a step without a defined
    result. -/
inductive LoadStop where
  | loaderr (linenum : Nat) (line err : Bytes)
  | exit
  | undefined

/-- What the system answers while a file is loaded, from the directory the process is in: is a directory there, the error
    of `fopen(name, "a")` if there is one, and the contents of a file. -/
structure LoadOs where
  chdir : List Bytes → Bytes → Bool
  appendError : List Bytes → Bytes → Option Bytes
  fopen : List Bytes → Bytes → Option Bytes

/-! ## Directives -/

/-- The directives, in the order of the comparisons. -/
inductive Directive where
  | timeout
  | name
  | tcpKeepalive
  | port
  | tcpBacklog
  | bind
  | unixsocket
  | unixsocketperm
  | dir
  | loglevel
  | logfile
  | syslogEnabled
  | syslogIdent
  | syslogFacility
  | includeFile
  | maxclients
  | maxmemory
  | maxmemoryPolicy
  | maxmemorySamples
  | daemonize
  | hz
  | pidfile
  | clusterPort
  | clusterConfigFile
  | clusterElectionTimeout
  | clusterHeartbeatInterval
  | clientOutputBufferLimit
deriving DecidableEq

/-- The words that are compared. -/
def Directive.words : List (Bytes × Directive) :=
  [(ascii "timeout", .timeout), (ascii "name", .name), (ascii "tcp-keepalive", .tcpKeepalive), (ascii "port", .port),
    (ascii "tcp-backlog", .tcpBacklog), (ascii "bind", .bind), (ascii "unixsocket", .unixsocket),
    (ascii "unixsocketperm", .unixsocketperm), (ascii "dir", .dir), (ascii "loglevel", .loglevel),
    (ascii "logfile", .logfile), (ascii "syslog-enabled", .syslogEnabled), (ascii "syslog-ident", .syslogIdent),
    (ascii "syslog-facility", .syslogFacility), (ascii "include", .includeFile), (ascii "maxclients", .maxclients),
    (ascii "maxmemory", .maxmemory), (ascii "maxmemory-policy", .maxmemoryPolicy),
    (ascii "maxmemory-samples", .maxmemorySamples), (ascii "daemonize", .daemonize), (ascii "hz", .hz),
    (ascii "pidfile", .pidfile), (ascii "cluster-port", .clusterPort), (ascii "cluster-config-file", .clusterConfigFile),
    (ascii "cluster-election-timeout", .clusterElectionTimeout),
    (ascii "cluster-heartbeat-interval", .clusterHeartbeatInterval),
    (ascii "client-output-buffer-limit", .clientOutputBufferLimit)]

/-- The chain of comparisons with the first word of a line. -/
def Directive.lookup (word : Bytes) : Option Directive :=
  (Directive.words.find? fun d => strcaseEq word d.1).map Prod.snd

section

variable (fail : Bytes → LoadStop)

/-- A number is stored, and then tested. -/
def loadNumber (v : Int) (bad : Int → Bool) (err : String) (store : Int → FileConfig) : Except LoadStop FileConfig :=
  if bad v then .error (fail (ascii err)) else .ok (store v)

/-- A word that is looked up. -/
def loadWord {α : Type} (found : Option α) (err : String) (store : α → FileConfig) : Except LoadStop FileConfig :=
  match found with
  | none => .error (fail (ascii err))
  | some a => .ok (store a)

/-- The branch of a directive, with the words behind it. `include` is not here (see `loadLine`). -/
def Directive.exec (os : LoadOs) (c : FileConfig) : Directive → List Bytes → Except LoadStop FileConfig
  | .timeout, [v] => loadNumber fail (atoi v) (· < 0) "Invalid timeout value" fun n => { c with maxidletime := n }
  | .name, [v] => .ok { c with name := cstr v }
  | .tcpKeepalive, [v] =>
    loadNumber fail (atoi v) (· < 0) "Invalid tcp-keepalive value" fun n => { c with tcpkeepalive := n }
  | .port, [v] => loadNumber fail (atoi v) (fun n => n < 0 || n > 65535) "Invalid port" fun n => { c with port := n }
  | .tcpBacklog, [v] => loadNumber fail (atoi v) (· < 0) "Invalid backlog value" fun n => { c with tcpBacklog := n }
  | .bind, v :: vs =>
    if (v :: vs).length > 16 then .error (fail (ascii "Too many bind addresses specified"))
    else .ok { c with bindaddr := (v :: vs).map cstr }
  | .unixsocket, [v] => .ok { c with unixsocket := some (cstr v) }
  | .unixsocketperm, [v] =>
    match strtolOctal v with
    | none => .error (fail (ascii "Invalid socket file permissions"))
    | some n =>
      let perm := UInt32.ofNat (n % 2 ^ 32).toNat
      if perm > 0o777 then .error (fail (ascii "Invalid socket file permissions"))
      else .ok { c with unixsocketperm := perm }
  | .dir, [v] => if os.chdir c.dirs (cstr v) then .ok { c with dirs := cstr v :: c.dirs } else .error .exit
  | .loglevel, [v] =>
    if strcaseEq v (ascii "debug") then .ok { c with verbosity := .debug }
    else if strcaseEq v (ascii "verbose") then .ok { c with verbosity := .verbose }
    else if strcaseEq v (ascii "notice") then .ok { c with verbosity := .notice }
    else if strcaseEq v (ascii "warning") then .ok { c with verbosity := .warning }
    else .error (fail (ascii "Invalid log level. Must be one of debug, notice, warning"))
  | .logfile, [v] =>
    if cstr v = [] then .ok { c with logfile := some (cstr v) }
    else
      match os.appendError c.dirs (cstr v) with
      | some err => .error (fail (ascii "Can't open the log file: " ++ err))
      | none => .ok { c with logfile := some (cstr v) }
  | .syslogEnabled, [v] =>
    loadWord fail (yesnotoi v) "argument must be 'yes' or 'no'" fun b => { c with syslogEnabled := b }
  | .syslogIdent, [v] => .ok { c with syslogIdent := cstr v }
  | .syslogFacility, [v] =>
    loadWord fail (SyslogFacility.valid.find? fun f => strcaseEq f.name v)
      "Invalid log facility. Must be one of USER or between LOCAL0-LOCAL7" fun f => { c with syslogFacility := f }
  | .maxclients, [v] =>
    loadNumber fail (atoi v) (· < 1) "Invalid max clients limit" fun n => { c with maxclients := n }
  | .maxmemory, [v] =>
    match memtoll v with
    | none => .error .undefined
    | some n => .ok { c with maxmemory := UInt64.ofInt n }
  | .maxmemoryPolicy, [v] =>
    loadWord fail (MaxmemoryPolicy.names.find? fun p => strcaseEq v p.1) "Invalid maxmemory policy"
      fun p => { c with maxmemoryPolicy := p.2 }
  | .maxmemorySamples, [v] =>
    loadNumber fail (atoi v) (· ≤ 0) "maxmemory-samples must be 1 or greater" fun n => { c with maxmemorySamples := n }
  | .daemonize, [v] => loadWord fail (yesnotoi v) "argument must be 'yes' or 'no'" fun b => { c with daemonize := b }
  | .hz, [v] => .ok { c with hz := clampHz (atoi v) }
  | .pidfile, [v] => .ok { c with pidfile := some (cstr v) }
  -- the upper bound is tested on `server.port`
  | .clusterPort, [v] =>
    if atoi v < 0 ∨ c.port > 65535 then .error (fail (ascii "Invalid port")) else .ok { c with cport := atoi v }
  | .clusterConfigFile, [v] => .ok { c with clusterConfigfile := some (cstr v) }
  | .clusterElectionTimeout, [v] =>
    loadNumber fail (strtol v) (· ≤ 0) "cluster election timeout must be 1 or greater"
      fun n => { c with electionTimeout := n }
  | .clusterHeartbeatInterval, [v] =>
    loadNumber fail (strtol v) (· ≤ 0) "cluster heartbeat interval must be 1 or greater"
      fun n => { c with heartbeatInterval := n }
  | .clientOutputBufferLimit, [cls, hard, soft, seconds] =>
    if strcaseEq cls (ascii "normal") then
      match memtoll hard, memtoll soft with
      | some hard, some soft =>
        loadNumber fail (atoi seconds) (· < 0) "Negative number of seconds in soft limit is invalid"
          fun n => { c with clientObufLimits := ⟨UInt64.ofInt hard, UInt64.ofInt soft, n⟩ }
      | _, _ => .error .undefined
    else .error (fail (ascii "Unrecognized client limit class"))
  | _, _ => .error (fail (ascii "Bad directive or wrong number of arguments"))

end

/-! ## Loading -/

/-- The server while it loads, with what is left to read on the standard input. -/
structure Loading where
  config : FileConfig
  stdin : Bytes

/-- One line; `incl` loads a file. -/
def loadLine (os : LoadOs) (incl : Loading → Bytes → Except LoadStop Loading) (s : Loading) (linenum : Nat) (line : Bytes) :
    Except LoadStop Loading :=
  let fail := LoadStop.loaderr linenum (sdstrim line lineBlanks)
  match configArgs line with
  | none => .error (fail (ascii "Unbalanced quotes in configuration line"))
  | some [] => .ok s
  | some (word :: args) =>
    match Directive.lookup word, args with
    | none, _ => .error (fail (ascii "Bad directive or wrong number of arguments"))
    | some .includeFile, [file] => incl s (cstr file)
    | some d, args => (d.exec fail os s.config args).map fun c => { s with config := c }

theorem splitLine_shrinks {k : Nat} {c : UInt8} {inp : Bytes} : (splitLine (k + 1) (c :: inp)).2.length ≤ inp.length := by
  have hle : ∀ (inp : Bytes) (k : Nat), (splitLine k inp).2.length ≤ inp.length := by
    intro inp
    induction inp with
    | nil => intro k; cases k <;> simp [splitLine]
    | cons c inp ih =>
      intro k
      cases k with
      | zero => simp [splitLine]
      | succ k =>
        rw [splitLine]
        split
        · simp
        · exact (ih k).trans (by simp)
  rw [splitLine]
  split
  · exact le_refl _
  · exact hle inp k

theorem fgets_shrinks {size : Nat} {inp : Bytes} {r : Bytes × Bytes} (h : fgets (size + 2) inp = some r) :
    r.2.length < inp.length := by
  cases inp with
  | nil => cases h
  | cons c inp =>
    cases h
    exact Nat.lt_succ_of_le splitLine_shrinks

/-- The loop of `loadServerConfig` that reads a file into `config`, at most `PREZ_CONFIGLINE_MAX` bytes at a time. -/
def readConfig (inp config : Bytes) : Option Bytes :=
  match h : fgets (1023 + 2) inp with
  | none => some config
  | some (buf, rest) =>
    have := fgets_shrinks h
    (sdsAppend config (cstr buf)).bind (readConfig rest)
termination_by inp.length

/-- The contents that `loadServerConfig(filename, NULL)` opens, and the standard input after that. -/
def openConfig (os : LoadOs) (s : Loading) (filename : Bytes) : Option (Bytes × Bytes) :=
  if filename = [45] then some (s.stdin, [])
  else (os.fopen s.config.dirs filename).map fun content => (content, s.stdin)

/-- `loadServerConfigFromString(config)`, with files nested at most `depth` deep. -/
def loadServerConfigFromString (os : LoadOs) : Nat → Loading → Bytes → Except LoadStop Loading
  | 0, _, _ => .error .undefined
  | depth + 1, s, config =>
    let incl (s : Loading) (filename : Bytes) : Except LoadStop Loading :=
      match openConfig os s filename with
      | none => .error .exit
      | some (content, stdin) =>
        match readConfig content [] with
        | none => .error .undefined
        | some config => loadServerConfigFromString os depth { s with stdin } config
    match configLines config with
    | none => .error .undefined
    | some lines => lines.zipIdx.foldlM (fun s line => loadLine os incl s (line.2 + 1) line.1) s

end Prez
