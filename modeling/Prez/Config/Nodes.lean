import Prez.Lib.Words
import Prez.Memory.Iterators
import Prez.Client.Parse

/-!
# `Prez.Config.Nodes` — loading `nodes.conf`

`clusterLoadConfig` reads a line `name host:port` for each node, looks the name up and creates the node if it is new, and
`clusterCron` dials the nodes. The model keeps what decides the outcome: the sizes of the buffers, the byte from which the port
is read, and the memory that is read without having been set (`ConfMemory`).

A line that fits the buffers is one turn of the loop (`loadNodeLines_line`). A line that does not is cut by `fgets`, and the
server stops wherever it is cut (`loadNodeLines_long`).
-/

namespace Prez

open Lib

/-! ## Loading -/

/-- `clusterNode.name`. -/
structure NameBlock where
  bytes : Bytes
  len : bytes.length = 40
deriving DecidableEq

/-- The 40 bytes that are read at a name: the string, its terminator and what stands behind it. -/
def nameBlock (behind : Nat → UInt8) (name : Bytes) : NameBlock where
  bytes := window 40 behind name
  len := window_length ..

/-- `sdsnewlen(name, PREZ_CLUSTER_NAMELEN)`. -/
def NameBlock.key (block : NameBlock) : SdsKey := ⟨block.bytes, by rw [block.len]; decide⟩

/-- The part of `clusterNode` that the configuration sets; `link` is whether there is one. -/
structure ConfNode where
  name : NameBlock
  ip : Bytes
  port : Int
  flags : UInt32
  link : Bool
deriving DecidableEq

/-- What the memory holds behind the name of a line when it is looked up and when its node is created, and in the flags of
    that node. -/
structure ConfMemory where
  lookup : Nat → Nat → UInt8
  create : Nat → Nat → UInt8
  flags : Nat → UInt32

/-- `server.cluster->nodes`, the records in the order of their creation, and `server.cluster->myself`. -/
structure ConfState where
  nodes : Dict SdsKey Nat
  records : List ConfNode
  myself : Option Nat

/-- The process ends with a message, with a failed assertion, or the code has no defined behaviour. -/
inductive ConfEnd where
  | fmterr
  | assertFailed
  | undefined
deriving DecidableEq

/-- `clusterLookupNode(name)`. -/
def clusterLookupNode (seed : UInt32) (behind : Nat → UInt8) (nodes : Dict SdsKey Nat) (name : Bytes) :
    Option (Dict SdsKey Nat × Option Nat) :=
  (dictFind (nodesType seed) nodes (nameBlock behind name).key).map fun (nodes, o) => (nodes, o.map fun r => r.2.2)

/-- `clusterAddNode(node)`, for the record with this number. -/
def clusterAddNode (seed : UInt32) (canResize : Bool) (nodes : Dict SdsKey Nat) (node : ConfNode) (k : Nat) :
    Option (Dict SdsKey Nat × Bool) :=
  dictAdd (nodesType seed) canResize nodes node.name.key k

/-- `createClusterNode(nodename, 0)`, which leaves the flags as they are. -/
def newNode (mem : ConfMemory) (turn : Nat) (name : Bytes) : ConfNode :=
  ⟨nameBlock (mem.create turn) name, [], 0, mem.flags turn, false⟩

/-- The node of a name, which is created if it does not exist. -/
def findOrCreate (seed : UInt32) (canResize : Bool) (mem : ConfMemory) (turn : Nat) (name : Bytes) (s : ConfState) :
    Option (ConfState × Nat) :=
  (clusterLookupNode seed (mem.lookup turn) s.nodes name).bind fun (nodes, found) =>
  match found with
  | some k => some ({ s with nodes := nodes }, k)
  | none =>
    let node := newNode mem turn name
    let k := s.records.length
    (clusterAddNode seed canResize nodes node k).map fun (nodes, _) =>
      ({ s with nodes := nodes, records := s.records ++ [node] }, k)

/-- The node that has the name of the server. -/
def ConfState.setMyself (s : ConfState) (own : Bool) (k : Nat) : ConfState :=
  if own then
    { s with
      records := s.records.modify k fun node => { node with flags := node.flags ||| nodeMyself }
      myself := some k }
  else s

/-- The address of a node. -/
def ConfState.setAddress (s : ConfState) (k : Nat) (ip : Bytes) (port : Int) : ConfState :=
  { s with records := s.records.modify k fun node => { node with ip := ip, port := port } }

/-- `PREZ_IP_STR_LEN`. -/
def ipStrLen : Nat := 46

/-- The address and the port of a line. The port is read from `p+2` on, which is behind the terminator if nothing follows the
    colon; an address that does not fit runs over the fields behind it. -/
def parseAddress (addr : Bytes) : Except ConfEnd (Bytes × Int) :=
  match strchr 58 addr with
  | none => .error .fmterr
  | some p =>
    if p < ipStrLen ∧ p + 1 < addr.length then .ok (addr.take p, atoi (addr.drop (p + 2)))
    else .error .undefined

/-- One turn of the loop of `clusterLoadConfig`, on a line that is not blank. There is no test of `argc`. -/
def loadNodeLine (seed : UInt32) (canResize : Bool) (serverName : Bytes) (mem : ConfMemory) (turn : Nat) (line : Bytes)
    (s : ConfState) : Except ConfEnd ConfState :=
  match sdssplitargs line with
  | none => .error .fmterr
  | some (name :: addr :: _) =>
    match findOrCreate seed canResize mem turn name s with
    | none => .error .undefined
    | some (s, k) =>
      (parseAddress addr).map fun (ip, port) => (s.setMyself (strcaseEq name serverName) k).setAddress k ip port
  | some _ => .error .undefined

/-- `while(fgets(line,maxline,fp) != NULL)`. Every turn reads a byte at least; `turn` counts the lines that are not blank. -/
def loadNodeLines (seed : UInt32) (canResize : Bool) (serverName : Bytes) (mem : ConfMemory) :
    (fuel turn : Nat) → Bytes → ConfState → Except ConfEnd ConfState
  | 0, _, _, _ => .error .undefined
  | fuel + 1, turn, file, s =>
    match fgets 1024 file with
    | none => .ok s
    | some (line, file) =>
      if line.head? = some 10 then loadNodeLines seed canResize serverName mem fuel turn file s
      else
        (loadNodeLine seed canResize serverName mem turn line s).bind fun s =>
          loadNodeLines seed canResize serverName mem fuel (turn + 1) file s

/-- `clusterLoadConfig(filename)` on a file that can be read. -/
def clusterLoadConfig (seed : UInt32) (canResize : Bool) (serverName : Bytes) (mem : ConfMemory) (file : Bytes) :
    Except ConfEnd ConfState :=
  (loadNodeLines seed canResize serverName mem (file.length + 1) 0 file ⟨dictCreate, [], none⟩).bind fun s =>
    if s.myself.isSome then .ok s else .error .assertFailed

/-- `PREZ_CLUSTER_PORT_INCR`. -/
def clusterPortIncr : Int := 10000

/-- Where the first loop of `clusterCron` connects to for a node, if it does; the sum of the ports is an `int`. -/
def ConfNode.dial (node : ConfNode) : Option (Option (Bytes × Int)) :=
  if isSkipped node.flags then some none
  else if node.link then some none
  else if node.port + clusterPortIncr < 2 ^ 31 then some (some (node.ip, node.port + clusterPortIncr))
  else none

/-- The body of that loop: the connections tried so far, with the numbers of the records. -/
def dialTurn (records : List ConfNode) (tried : Option (List (Nat × Bytes × Int))) (k : Nat) :
    Option (List (Nat × Bytes × Int)) :=
  tried.bind fun tried =>
  (records[k]?).bind fun node =>
  node.dial.map fun target => tried ++ (target.map fun t => (k, t)).toList

/-- The connections that the first loop of `clusterCron` tries. -/
def dialNodes (seed : UInt32) (s : ConfState) : Option (List (Nat × Bytes × Int)) :=
  (dictEachReleased (nodesType seed) (dialTurn s.records) s.nodes (some [])).bind Prod.snd

/-! ## Lines -/

/-- No NUL, no blank and no quote. -/
def PlainText (w : Bytes) : Prop := ∀ c ∈ w, c ≠ 0 ∧ isSpace c = false ∧ c ≠ 34 ∧ c ≠ 39
deriving Decidable

variable {ws : List (Bytes × UInt8)} {w : Bytes}

/-- A plain text that is not empty is one word. -/
theorem PlainText.word (h : PlainText w) (hne : w ≠ []) : PlainWord w := by
  obtain ⟨c, w', rfl⟩ := List.exists_cons_of_ne_nil hne
  refine ⟨fun d hd => isPlain_iff.mpr ⟨?_, (h d hd).2.2⟩, c, w', rfl, (h c List.mem_cons_self).2.1⟩
  by_contra hsep
  have hspace := isSpace_of_isSep (Bool.eq_true_of_not_eq_false hsep)
  rw [(h d hd).2.1] at hspace
  cases hspace

theorem PlainText.take (h : PlainText w) (m : Nat) : PlainText (w.take m) :=
  fun c hc => h c (List.mem_of_mem_take hc)

theorem plainText_append {w v : Bytes} (hw : PlainText w) (hv : PlainText v) : PlainText (w ++ v) := by
  intro c hc
  rcases List.mem_append.mp hc with hc | hc
  · exact hw c hc
  · exact hv c hc

theorem plainText_digits (h : ∀ d ∈ w, isDigit d = true) : PlainText w := by
  intro c hc
  have hrange := (isDigit_iff c).mp (h c hc)
  obtain ⟨hzero, -, -, hspace⟩ := isDigit_plain (h c hc)
  refine ⟨hzero, hspace, ?_, ?_⟩
  · rintro rfl
    exact absurd hrange.1 (by decide)
  · rintro rfl
    exact absurd hrange.1 (by decide)

/-- Words of a line, each with the separator behind it. -/
def PlainWords (ws : List (Bytes × UInt8)) : Prop := ∀ p ∈ ws, PlainText p.1 ∧ p.1 ≠ [] ∧ isSep p.2 = true

theorem PlainWords.split (h : PlainWords ws) : ∀ p ∈ ws, PlainWord p.1 ∧ isSep p.2 = true :=
  fun p hp => ⟨(h p hp).1.word (h p hp).2.1, (h p hp).2.2⟩

theorem PlainWords.zero_notMem (h : PlainWords ws) : (0 : UInt8) ∉ wordLine ws := by
  intro hmem
  obtain ⟨p, hp, hmem⟩ := List.mem_flatMap.mp hmem
  obtain ⟨htext, -, hsep⟩ := h p hp
  rcases List.mem_append.mp hmem with hmem | hmem
  · exact (htext 0 hmem).1 rfl
  · rw [← List.mem_singleton.mp hmem] at hsep
    cases hsep

theorem length_le_wordLine (ws : List (Bytes × UInt8)) : ws.length ≤ (wordLine ws).length := by
  induction ws with
  | nil => exact Nat.le_refl 0
  | cons p ws ih =>
    rw [wordLine, List.flatMap_cons, List.length_append, List.length_append]
    exact Nat.succ_le_of_lt (Nat.lt_of_le_of_lt ih (by simp [wordLine]))

/-- A line that ends in a separator. -/
theorem PlainWords.sdssplitargs_ended (h : PlainWords ws) : sdssplitargs (wordLine ws) = some (ws.map Prod.fst) := by
  rw [sdssplitargs, cstr_eq_self h.zero_notMem]
  exact sdssplitargsFrom_plain ws h.split _ (Nat.lt_succ_of_le (length_le_wordLine ws))

/-- A line that ends in a word. -/
theorem PlainWords.sdssplitargs_open (h : PlainWords ws) (hw : PlainText w) (hne : w ≠ []) :
    sdssplitargs (wordLine ws ++ w) = some (ws.map Prod.fst ++ [w]) := by
  have hzero : (0 : UInt8) ∉ wordLine ws ++ w := by
    intro hmem
    rcases List.mem_append.mp hmem with hmem | hmem
    · exact h.zero_notMem hmem
    · exact (hw 0 hmem).1 rfl
  have hpos := List.length_pos_iff.mpr hne
  have hle := length_le_wordLine ws
  obtain ⟨fuel, hfuel⟩ : ∃ fuel, (wordLine ws ++ w).length + 1 = fuel + 2 + ws.length :=
    ⟨(wordLine ws).length - ws.length + w.length - 1, by rw [List.length_append]; omega⟩
  rw [sdssplitargs, cstr_eq_self hzero, hfuel, sdssplitargsFrom_words ws w h.split, sdssplitargsFrom_last (hw.word hne)]
  rfl

/-- The fields of a line `name host:port`. -/
structure NodeLine where
  name : Bytes
  host : Bytes
  port : Bytes

/-- `host:port`. -/
def NodeLine.address (l : NodeLine) : Bytes := l.host ++ 58 :: l.port

/-- A line without its newline. -/
def NodeLine.text (l : NodeLine) : Bytes := l.name ++ 32 :: l.address

/-- The number of the port. -/
def NodeLine.portNumber (l : NodeLine) : Nat := digitsValue 0 l.port

/-- A line of `nodes.conf`. -/
structure NodeLine.Ok (l : NodeLine) : Prop where
  name : PlainText l.name
  named : l.name ≠ []
  host : PlainText l.host
  colon : (58 : UInt8) ∉ l.host
  digits : ∀ d ∈ l.port, isDigit d = true
  port : 1 ≤ l.portNumber ∧ l.portNumber ≤ 65535

instance (l : NodeLine) : Decidable l.Ok :=
  decidable_of_iff (PlainText l.name ∧ l.name ≠ [] ∧ PlainText l.host ∧ (58 : UInt8) ∉ l.host ∧
      l.port.all isDigit = true ∧ 1 ≤ l.portNumber ∧ l.portNumber ≤ 65535)
    ⟨fun ⟨name, named, host, colon, digits, port⟩ => ⟨name, named, host, colon, List.all_eq_true.mp digits, port⟩,
      fun h => ⟨h.name, h.named, h.host, h.colon, List.all_eq_true.mpr h.digits, h.port⟩⟩

namespace NodeLine

variable {l : NodeLine}

theorem Ok.port_ne (h : l.Ok) : l.port ≠ [] := by
  intro hnil
  have hport := h.port.1
  rw [portNumber, hnil] at hport
  cases hport

theorem Ok.address (h : l.Ok) : PlainText l.address := by
  refine plainText_append h.host fun c hc => ?_
  rcases List.mem_cons.mp hc with rfl | hc
  · decide
  · exact plainText_digits h.digits c hc

theorem address_ne (l : NodeLine) : l.address ≠ [] := by simp [address]

theorem text_ne (l : NodeLine) : l.text ≠ [] := by simp [text]

/-- A line has no line end inside. -/
theorem Ok.newline_notMem (h : l.Ok) : (10 : UInt8) ∉ l.text := by
  intro hmem
  rcases List.mem_append.mp hmem with hmem | hmem
  · exact absurd (h.name 10 hmem).2.1 (by decide)
  · rcases List.mem_cons.mp hmem with hmem | hmem
    · exact absurd hmem (by decide)
    · exact absurd (h.address 10 hmem).2.1 (by decide)

theorem Ok.plainWords (h : l.Ok) : PlainWords [(l.name, 32)] := by
  intro p hp
  rw [List.mem_singleton.mp hp]
  exact ⟨h.name, h.named, rfl⟩

theorem text_eq (l : NodeLine) : l.text = wordLine [(l.name, 32)] ++ l.address := by
  simp [text, wordLine]

/-- What is read when the line fits the buffer: the newline is missing if it does not, or at the end of the file. -/
def Reads (l : NodeLine) (line : Bytes) : Prop := line = l.text ∨ line = l.text ++ [10]

/-- The words of a line. -/
theorem Ok.words (h : l.Ok) {line : Bytes} (hline : l.Reads line) : sdssplitargs line = some [l.name, l.address] := by
  rcases hline with rfl | rfl
  · rw [text_eq, h.plainWords.sdssplitargs_open h.address l.address_ne]
    rfl
  · have hwords : PlainWords [(l.name, 32), (l.address, 10)] := by
      intro p hp
      rcases List.mem_cons.mp hp with rfl | hp
      · exact ⟨h.name, h.named, rfl⟩
      · rw [List.mem_singleton.mp hp]
        exact ⟨h.address, l.address_ne, rfl⟩
    have heq : l.text ++ [10] = wordLine [(l.name, 32), (l.address, 10)] := by simp [text, wordLine]
    rw [heq, hwords.sdssplitargs_ended]
    rfl

theorem Ok.strchr (h : l.Ok) (rest : Bytes) : Prez.strchr 58 (l.host ++ 58 :: rest) = some l.host.length :=
  strchr_append (fun b hb => ⟨fun heq => h.colon (by rw [← heq]; exact hb), (h.host b hb).1⟩) rest

/-- The address and the port that are read from a line. -/
theorem Ok.parseAddress (h : l.Ok) :
    Prez.parseAddress l.address =
      if l.host.length < ipStrLen then .ok (l.host, atoi l.port.tail) else .error .undefined := by
  have hpos := List.length_pos_iff.mpr h.port_ne
  have hlen : l.host.length + 1 < l.address.length := by
    rw [NodeLine.address, List.length_append, List.length_cons]
    omega
  have htake : l.address.take l.host.length = l.host := List.take_left
  have hdrop : l.address.drop (l.host.length + 2) = l.port.tail := by
    rw [NodeLine.address, List.drop_length_add_append, ← List.drop_one]
    rfl
  rw [Prez.parseAddress, NodeLine.address, h.strchr l.port]
  dsimp only
  rw [← NodeLine.address, htake, hdrop]
  exact if_congr (and_iff_left hlen) rfl rfl

/-- An address that is cut before its port. -/
theorem Ok.parseAddress_cut (h : l.Ok) {m : Nat} (hm : m ≤ l.host.length + 1) :
    ∃ e, Prez.parseAddress (l.address.take m) = .error e := by
  rcases Nat.lt_or_ge l.host.length m with hcolon | hhost
  · have hcut : l.address.take m = l.host ++ [58] := by
      rw [Nat.le_antisymm hm hcolon, NodeLine.address, List.take_length_add_append]
      rfl
    refine ⟨.undefined, ?_⟩
    rw [Prez.parseAddress, hcut, h.strchr []]
    exact if_neg fun hlen => absurd hlen.2 (by simp)
  · have hcut : l.address.take m = l.host.take m := List.take_append_of_le_length hhost
    have hnone : Prez.strchr 58 (l.host.take m) = none :=
      strchr_none fun b hb heq => h.colon (by rw [← heq]; exact List.mem_of_mem_take hb)
    exact ⟨.fmterr, by rw [Prez.parseAddress, hcut, hnone]⟩

end NodeLine

section

variable (seed : UInt32) (canResize : Bool) (serverName : Bytes) (mem : ConfMemory)

/-- The state after a line. -/
def ConfState.setLine (s : ConfState) (l : NodeLine) (k : Nat) : ConfState :=
  (s.setMyself (strcaseEq l.name serverName) k).setAddress k l.host (atoi l.port.tail)

variable {l : NodeLine}

/-- **A line is read as it was written.** -/
theorem NodeLine.Ok.loadNodeLine (h : l.Ok) {line : Bytes} (hline : l.Reads line) (turn : Nat) {s s' : ConfState}
    {k : Nat} (hfind : findOrCreate seed canResize mem turn l.name s = some (s', k)) :
    Prez.loadNodeLine seed canResize serverName mem turn line s =
      if l.host.length < ipStrLen then .ok (s'.setLine serverName l k) else .error .undefined := by
  rw [Prez.loadNodeLine, h.words hline]
  dsimp only
  rw [hfind]
  dsimp only
  rw [h.parseAddress]
  split <;> rfl

/-- A line of one word: `argv[1]` is read behind the end of the array. -/
theorem loadNodeLine_word {w line : Bytes} (hw : PlainText w) (hne : w ≠ [])
    (hline : line = w ∨ ∃ sep, isSep sep = true ∧ line = w ++ [sep]) (turn : Nat) (s : ConfState) :
    loadNodeLine seed canResize serverName mem turn line s = .error .undefined := by
  have hsplit : sdssplitargs line = some [w] := by
    rcases hline with rfl | ⟨sep, hsep, rfl⟩
    · exact PlainWords.sdssplitargs_open (fun p hp => absurd hp List.not_mem_nil) hw hne
    · have hwords : PlainWords [(w, sep)] := by
        intro p hp
        rw [List.mem_singleton.mp hp]
        exact ⟨hw, hne, hsep⟩
      have heq : w ++ [sep] = wordLine [(w, sep)] := by simp [wordLine]
      rw [heq, hwords.sdssplitargs_ended]
      rfl
  rw [loadNodeLine, hsplit]

/-- A line that is cut before its port. -/
theorem NodeLine.Ok.loadNodeLine_cut (h : l.Ok) {m : Nat} (hm : m ≤ l.host.length + 1) (turn : Nat) (s : ConfState) :
    ∃ e, Prez.loadNodeLine seed canResize serverName mem turn (l.name ++ 32 :: l.address.take m) s = .error e := by
  by_cases hnil : l.address.take m = []
  · rw [hnil]
    exact ⟨_, loadNodeLine_word seed canResize serverName mem h.name h.named (.inr ⟨32, rfl, rfl⟩) turn s⟩
  · have hsplit : sdssplitargs (l.name ++ 32 :: l.address.take m) = some [l.name, l.address.take m] := by
      have hline : l.name ++ 32 :: l.address.take m = wordLine [(l.name, 32)] ++ l.address.take m := by simp [wordLine]
      rw [hline, h.plainWords.sdssplitargs_open (h.address.take m) hnil]
      rfl
    rw [Prez.loadNodeLine, hsplit]
    dsimp only
    cases findOrCreate seed canResize mem turn l.name s with
    | none => exact ⟨_, rfl⟩
    | some r =>
      obtain ⟨e, herr⟩ := h.parseAddress_cut hm
      exact ⟨e, by dsimp only; rw [herr]; rfl⟩

/-! ### Lines in a file -/

/-- What follows the text of a line: its newline and the rest of the file, or nothing. -/
def LineEnd (file r : Bytes) : Prop := r = 10 :: file ∨ r = [] ∧ file = []

/-- A text without newlines is read with its newline, or without it and with the newline still to come, or is cut. -/
theorem fgets_text {t r file : Bytes} (hnl : (10 : UInt8) ∉ t) (hne : t ≠ []) (hr : LineEnd file r) :
    (t.length < 1024 ∧ ∃ line, (line = t ∨ line = t ++ [10]) ∧ fgets 1024 (t ++ r) = some (line, file)) ∨
    (t.length < 1024 ∧ r = 10 :: file ∧ fgets 1024 (t ++ r) = some (t, r)) ∨
    (1024 ≤ t.length ∧ fgets 1024 (t ++ r) = some (t.take 1023, t.drop 1023 ++ r)) := by
  rcases Nat.lt_or_ge t.length 1024 with hlen | hlen
  · rcases hr with rfl | ⟨rfl, rfl⟩
    · rcases Nat.lt_or_ge (t.length + 1) 1024 with hshort | hfull
      · exact .inl ⟨hlen, t ++ [10], .inr rfl, fgets_line hnl hshort⟩
      · -- the newline does not fit any more
        refine .inr (.inl ⟨hlen, rfl, ?_⟩)
        rw [fgets_cut hnl hne hfull, List.take_of_length_le (Nat.le_of_lt_succ hlen),
          List.drop_eq_nil_of_le (Nat.le_of_lt_succ hlen)]
        rfl
    · refine .inl ⟨hlen, t, .inl rfl, ?_⟩
      rw [List.append_nil]
      exact fgets_eof hne hnl hlen
  · exact .inr (.inr ⟨hlen, fgets_cut hnl hne (Nat.le_succ_of_le hlen) r⟩)

/-- One turn of the loop. -/
theorem loadNodeLines_turn {file line rest : Bytes} (hread : fgets 1024 file = some (line, rest)) (hhead : line.head? ≠ some 10)
    (fuel turn : Nat) (s : ConfState) :
    loadNodeLines seed canResize serverName mem (fuel + 1) turn file s =
      (loadNodeLine seed canResize serverName mem turn line s).bind fun s =>
        loadNodeLines seed canResize serverName mem fuel (turn + 1) rest s := by
  rw [loadNodeLines, hread]
  exact if_neg hhead

/-- A blank line is passed over. -/
theorem loadNodeLines_blank (fuel turn : Nat) (file : Bytes) (s : ConfState) :
    loadNodeLines seed canResize serverName mem (fuel + 1) turn (10 :: file) s =
      loadNodeLines seed canResize serverName mem fuel turn file s := by
  rw [loadNodeLines]
  rfl

theorem PlainText.newline_notMem {w : Bytes} (h : PlainText w) : (10 : UInt8) ∉ w :=
  fun hmem => absurd (h 10 hmem).2.1 (by decide)

theorem head_ne_newline {t line : Bytes} (hnl : (10 : UInt8) ∉ t) (hne : t ≠ []) (hline : line = t ∨ line = t ++ [10]) :
    line.head? ≠ some 10 := by
  obtain ⟨c, t', rfl⟩ := List.exists_cons_of_ne_nil hne
  have hc : (c :: t').head? ≠ some 10 := fun h => hnl (by rw [Option.some.inj h]; exact List.mem_cons_self)
  rcases hline with rfl | rfl
  · exact hc
  · exact hc

/-- A word alone on its line ends the run. -/
theorem loadNodeLines_word {w r file : Bytes} (hw : PlainText w) (hne : w ≠ []) (hr : LineEnd file r) (fuel turn : Nat)
    (s : ConfState) : ∃ e, loadNodeLines seed canResize serverName mem fuel turn (w ++ r) s = .error e := by
  cases fuel with
  | zero => exact ⟨_, rfl⟩
  | succ fuel =>
    have hnl := hw.newline_notMem
    have hword : ∀ {v line rest : Bytes}, PlainText v → v ≠ [] → (line = v ∨ line = v ++ [10]) →
        fgets 1024 (w ++ r) = some (line, rest) →
        ∃ e, loadNodeLines seed canResize serverName mem (fuel + 1) turn (w ++ r) s = .error e := by
      intro v line rest hv hvne hline hread
      refine ⟨.undefined, ?_⟩
      rw [loadNodeLines_turn seed canResize serverName mem hread (head_ne_newline hv.newline_notMem hvne hline),
        loadNodeLine_word seed canResize serverName mem hv hvne (hline.imp_right fun h => ⟨10, rfl, h⟩)]
      rfl
    rcases fgets_text hnl hne hr with ⟨-, line, hline, hread⟩ | ⟨-, -, hread⟩ | ⟨hlen, hread⟩
    · exact hword hw hne hline hread
    · exact hword hw hne (.inl rfl) hread
    · refine hword (hw.take 1023) (fun hnil => ?_) (.inl rfl) hread
      have hlen' := congrArg List.length hnil
      rw [List.length_take, List.length_nil] at hlen'
      omega

/-- **A line that fits the buffer is one turn**, or two with the newline read alone. -/
theorem loadNodeLines_line (h : l.Ok) (hlen : l.text.length < 1024) {r file : Bytes} (hr : LineEnd file r)
    {fuel : Nat} (hfuel : (l.text ++ r).length < fuel) (turn : Nat) (s : ConfState) :
    ∃ line fuel', l.Reads line ∧ file.length < fuel' ∧
      loadNodeLines seed canResize serverName mem fuel turn (l.text ++ r) s =
        (loadNodeLine seed canResize serverName mem turn line s).bind fun s =>
          loadNodeLines seed canResize serverName mem fuel' (turn + 1) file s := by
  have hnl := h.newline_notMem
  have hpos := List.length_pos_iff.mpr l.text_ne
  obtain ⟨fuel, rfl⟩ := Nat.exists_eq_add_one_of_ne_zero (Nat.ne_of_gt (Nat.zero_lt_of_lt hfuel))
  have hfile : file.length + l.text.length ≤ fuel := by
    rw [List.length_append] at hfuel
    rcases hr with rfl | ⟨-, rfl⟩
    · rw [List.length_cons] at hfuel
      omega
    · rw [List.length_nil]
      omega
  rcases fgets_text hnl l.text_ne hr with ⟨-, line, hline, hread⟩ | ⟨hshort, hrest, hread⟩ | ⟨hlong, -⟩
  · exact ⟨line, fuel, hline, by omega,
      loadNodeLines_turn seed canResize serverName mem hread (head_ne_newline hnl l.text_ne hline) fuel turn s⟩
  · obtain ⟨fuel, rfl⟩ := Nat.exists_eq_add_one_of_ne_zero (show fuel ≠ 0 by omega)
    refine ⟨l.text, fuel, .inl rfl, ?_, ?_⟩
    · rw [hrest, List.length_append, List.length_cons] at hfuel
      omega
    · rw [loadNodeLines_turn seed canResize serverName mem hread (head_ne_newline hnl l.text_ne (.inl rfl)), hrest]
      simp only [loadNodeLines_blank]
  · omega

/-- **A line that does not fit stops the server**, wherever it is cut. -/
theorem loadNodeLines_long (h : l.Ok) (hlen : 1024 ≤ l.text.length) {r file : Bytes} (hr : LineEnd file r)
    (fuel turn : Nat) (s : ConfState) :
    ∃ e, loadNodeLines seed canResize serverName mem fuel turn (l.text ++ r) s = .error e := by
  have hnl := h.newline_notMem
  cases fuel with
  | zero => exact ⟨_, rfl⟩
  | succ fuel =>
  have hread : fgets 1024 (l.text ++ r) = some (l.text.take 1023, l.text.drop 1023 ++ r) :=
    fgets_cut hnl l.text_ne (Nat.le_succ_of_le hlen) r
  have hturn := loadNodeLines_turn seed canResize serverName mem hread
    (head_ne_newline (fun hmem => hnl (List.mem_of_mem_take hmem)) (by simp [l.text_ne]) (.inl rfl)) fuel turn s
  rw [hturn]
  rcases Nat.lt_or_ge l.name.length 1023 with hname | hname
  · obtain ⟨m, hm⟩ : ∃ m, 1023 = l.name.length + (m + 1) := ⟨1022 - l.name.length, by omega⟩
    have htake : l.text.take 1023 = l.name ++ 32 :: l.address.take m := by
      rw [hm, NodeLine.text, List.take_length_add_append]
      rfl
    have hdrop : l.text.drop 1023 = l.address.drop m := by
      rw [hm, NodeLine.text, List.drop_length_add_append]
      rfl
    rw [htake, hdrop]
    rcases Nat.lt_or_ge (l.host.length + 1) m with hport | hcut
    · -- the port is cut, and the rest of it is a line of one word
      obtain ⟨j, rfl⟩ : ∃ j, m = l.host.length + (j + 1) := ⟨m - l.host.length - 1, by omega⟩
      have hrest : l.address.drop (l.host.length + (j + 1)) = l.port.drop j := by
        rw [NodeLine.address, List.drop_length_add_append]
        rfl
      have hdigits : PlainText (l.port.drop j) := plainText_digits fun d hd => h.digits d (List.mem_of_mem_drop hd)
      have hne : l.port.drop j ≠ [] := by
        intro hnil
        rw [List.drop_eq_nil_iff] at hnil
        rw [NodeLine.text, NodeLine.address] at hlen
        simp only [List.length_append, List.length_cons] at hlen
        omega
      rw [hrest]
      cases loadNodeLine seed canResize serverName mem turn (l.name ++ 32 :: l.address.take (l.host.length + (j + 1))) s with
      | error e => exact ⟨e, rfl⟩
      | ok s => exact loadNodeLines_word seed canResize serverName mem hdigits hne hr fuel (turn + 1) s
    · obtain ⟨e, herr⟩ := h.loadNodeLine_cut seed canResize serverName mem hcut turn s
      exact ⟨e, by rw [herr]; rfl⟩
  · -- cut in the name
    have hne : l.name.take 1023 ≠ [] := by simp [h.named]
    have htake : l.text.take 1023 = l.name.take 1023 := List.take_append_of_le_length hname
    rw [htake, loadNodeLine_word seed canResize serverName mem (h.name.take 1023) hne (.inl rfl)]
    exact ⟨_, rfl⟩

end

end Prez
