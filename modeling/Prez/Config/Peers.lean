import Prez.Config.Nodes
import Prez.Config.Exact

/-!
# `Prez.Config.Peers` — where the nodes of `nodes.conf` are dialled

Two steps have to cancel out: the port is read from the second character behind the colon, and `PREZ_CLUSTER_PORT_INCR` is added
when the node is dialled. They do for the ports `1dddd` and for no others (`portFits_iff`).

A name is read as a block of 40 bytes, whatever its length. Behind a short name stands what the memory held there, so the block
of a name is not the same at every read, and a node is found again only if it is. `createClusterNode` does not set the flags
either, and a node with the wrong bits in them is not dialled at all. `peers_dialled` says what it takes.
-/

namespace Prez

open Lib

/-! ## The table -/

section

variable {seed : UInt32} {canResize : Bool} {mem : ConfMemory} {s : ConfState}

theorem NameBlock.key_inj {a b : NameBlock} : a.key = b.key ↔ a = b := by
  refine ⟨fun h => ?_, fun h => by rw [h]⟩
  cases a
  cases b
  cases h
  rfl

/-- A name is in the table neither when it is looked up nor when it is added. -/
def IsNew (seed : UInt32) (mem : ConfMemory) (turn : Nat) (name : Bytes) (nodes : Dict SdsKey Nat) : Prop :=
  nodes.map (nodesType seed) (nameBlock (mem.lookup turn) name).key = none ∧
  nodes.map (nodesType seed) (nameBlock (mem.create turn) name).key = none

variable {nodes : Dict SdsKey Nat}

theorem clusterLookupNode_spec (hw : nodes.Wf (nodesType seed)) (behind : Nat → UInt8) (name : Bytes) :
    ∃ nodes', clusterLookupNode seed behind nodes name =
        some (nodes', nodes.map (nodesType seed) (nameBlock behind name).key) ∧
      Moved (nodesType seed) nodes nodes' ∧ nodes'.iterators = nodes.iterators := by
  obtain ⟨nodes', o, hfind, hmoved, hval, -⟩ := dictFind_spec (nodesType_lawful seed) hw (nameBlock behind name).key
  refine ⟨nodes', ?_, hmoved, dictFind_iterators hfind⟩
  rw [clusterLookupNode, hfind, ← hval]
  rfl

theorem addSmall_of_length (hw : nodes.Wf (nodesType seed)) (hlen : nodes.entries.length ≤ 2 ^ 29) :
    AddSmall (nodesType seed) canResize nodes := by
  intro d' hstep _ _
  obtain ⟨d₁, hstep', hmoved⟩ := dictRehashStep_moved (nodesType_lawful seed) hw
  cases Option.some.inj ((Option.mem_def.mp hstep).symm.trans hstep')
  have hsize := dictSize_eq hmoved.wf
  rw [hmoved.perm.length_eq, dictSize] at hsize
  omega

/-- **What a line does to the table**: a new name adds an entry for a new record, any other leaves the entries as they are. -/
theorem findOrCreate_spec (hw : s.nodes.Wf (nodesType seed)) (hlen : s.nodes.entries.length ≤ 2 ^ 29) (turn : Nat)
    (name : Bytes) :
    ∃ s' k, findOrCreate seed canResize mem turn name s = some (s', k) ∧ s'.nodes.Wf (nodesType seed) ∧
      s'.nodes.iterators = s.nodes.iterators ∧
      (IsNew seed mem turn name s.nodes → k = s.records.length ∧ s'.records = s.records ++ [newNode mem turn name] ∧
        s'.myself = s.myself ∧
        s'.nodes.entries.Perm (((nameBlock (mem.create turn) name).key, k) :: s.nodes.entries)) ∧
      (¬ IsNew seed mem turn name s.nodes → s'.nodes.entries.length = s.nodes.entries.length) := by
  obtain ⟨nodes, hlookup, hmoved, hiter⟩ := clusterLookupNode_spec hw (mem.lookup turn) name
  have hmap := hmoved.map_eq (nodesType_lawful seed) hw
  cases hfound : s.nodes.map (nodesType seed) (nameBlock (mem.lookup turn) name).key with
  | some k =>
    refine ⟨{ s with nodes := nodes }, k, ?_, hmoved.wf, hiter, fun hnew => ?_, fun _ => hmoved.perm.length_eq⟩
    · rw [findOrCreate, hlookup, hfound]
      rfl
    · rw [hnew.1] at hfound
      cases hfound
  | none =>
    have hsmall : AddSmall (nodesType seed) canResize nodes :=
      addSmall_of_length hmoved.wf (by rw [hmoved.perm.length_eq]; exact hlen)
    obtain ⟨nodes', ok, hadd, hw', hok, -, hperm⟩ := dictAdd_spec (nodesType_lawful seed) hmoved.wf hsmall
      (nameBlock (mem.create turn) name).key s.records.length
    rw [hmap] at hok
    refine ⟨⟨nodes', s.records ++ [newNode mem turn name], s.myself⟩, s.records.length, ?_, hw', ?_, ?_, ?_⟩
    · rw [findOrCreate, hlookup, hfound, Option.bind_some]
      dsimp only
      rw [clusterAddNode, newNode, hadd]
      rfl
    · exact (dictAdd_iterators hadd).trans hiter
    · intro hnew
      rw [hnew.2] at hok
      rw [hok] at hperm
      exact ⟨rfl, rfl, rfl, hperm.trans (hmoved.perm.cons _)⟩
    · intro hnew
      have hkey : ok = false := by
        rw [hok, Option.isNone_eq_false_iff, Option.isSome_iff_ne_none]
        exact fun hnone => hnew ⟨hfound, hnone⟩
      rw [hkey] at hperm
      exact hperm.length_eq.trans hmoved.perm.length_eq

/-- A lookup finds the entry with its key. -/
theorem nodes_map_eq_some (hw : nodes.Wf (nodesType seed)) {key : SdsKey} {k : Nat} :
    nodes.map (nodesType seed) key = some k ↔ (key, k) ∈ nodes.entries := by
  constructor
  · intro hmap
    obtain ⟨e, hfind, rfl⟩ := Option.map_eq_some_iff.mp hmap
    have heq := (dictSdsKeyCompare_iff key e.1).mp (Assoc.eq_of_find? hfind)
    rw [heq]
    exact List.mem_of_find?_eq_some hfind
  · intro hmem
    have hsome : (nodes.map (nodesType seed) key).isSome = true :=
      Assoc.lookup_isSome.mpr ⟨_, hmem, (dictSdsKeyCompare_iff key key).mpr rfl⟩
    obtain ⟨v, hv⟩ := Option.isSome_iff_exists.mp hsome
    obtain ⟨e, hfind, rfl⟩ := Option.map_eq_some_iff.mp hv
    have heq := hw.distinct.eq_of_keys (nodesType_lawful seed).keyEq hmem (List.mem_of_find?_eq_some hfind)
      (Assoc.eq_of_find? hfind)
    rw [hv, ← heq]

end

/-- The record of a line. -/
def loadedNode (serverName : Bytes) (mem : ConfMemory) (k : Nat) (l : NodeLine) : ConfNode where
  name := nameBlock (mem.create k) l.name
  ip := l.host
  port := atoi l.port.tail
  flags := if strcaseEq l.name serverName then mem.flags k ||| nodeMyself else mem.flags k
  link := false

/-- The name of a line is taken for that of no line in `done`. -/
def FreshName (mem : ConfMemory) (done : List NodeLine) (k : Nat) (name : Bytes) : Prop :=
  ∀ j l, done[j]? = some l → nameBlock (mem.create j) l.name ≠ nameBlock (mem.lookup k) name ∧
    nameBlock (mem.create j) l.name ≠ nameBlock (mem.create k) name

/-- No line is taken for one before it. -/
def FreshNames (mem : ConfMemory) (lines : List NodeLine) : Prop :=
  ∀ k l, lines[k]? = some l → FreshName mem (lines.take k) k l.name

theorem freshNames_concat {mem : ConfMemory} {done : List NodeLine} {l : NodeLine} :
    FreshNames mem (done ++ [l]) ↔ FreshNames mem done ∧ FreshName mem done done.length l.name := by
  constructor
  · intro h
    refine ⟨fun k l' hk => ?_, ?_⟩
    · have hlt := (List.getElem?_eq_some_iff.mp hk).1
      have hfresh := h k l' (by rw [List.getElem?_append_left hlt]; exact hk)
      rw [List.take_append_of_le_length (Nat.le_of_lt hlt)] at hfresh
      exact hfresh
    · have hfresh := h done.length l List.getElem?_concat_length
      rw [List.take_left] at hfresh
      exact hfresh
  · rintro ⟨hdone, hlast⟩ k l' hk
    rcases Nat.lt_or_ge k done.length with hlt | hge
    · rw [List.getElem?_append_left hlt] at hk
      rw [List.take_append_of_le_length (Nat.le_of_lt hlt)]
      exact hdone k l' hk
    · have hlen := (List.getElem?_eq_some_iff.mp hk).1
      rw [List.length_append, List.length_singleton] at hlen
      obtain rfl : k = done.length := by omega
      rw [List.getElem?_concat_length] at hk
      rw [List.take_left, ← Option.some.inj hk]
      exact hlast

/-- Whatever stands behind it, a name keeps its first 40 bytes. -/
theorem nameBlock_cstr (behind : Nat → UInt8) {name : Bytes} (hname : PlainText name) :
    cstr (nameBlock behind name).bytes = name.take 40 := by
  have hzero : (0 : UInt8) ∉ name := fun hmem => (hname 0 hmem).1 rfl
  rw [nameBlock]
  dsimp only
  rcases Nat.lt_or_ge name.length 40 with hshort | hlong
  · obtain ⟨junk, hjunk⟩ := window_eq behind hshort
    rw [List.take_of_length_le (Nat.le_of_lt hshort), hjunk, cstr_append_nul hzero]
  · rw [window, List.take_append_of_le_length hlong]
    exact cstr_eq_self fun hmem => hzero (List.mem_of_mem_take hmem)

/-- **Names that differ in their first 40 bytes** are never taken for one another. -/
theorem freshNames_of_names (mem : ConfMemory) {lines : List NodeLine} (hok : ∀ l ∈ lines, l.Ok)
    (hnames : lines.Pairwise fun l l' => l.name.take 40 ≠ l'.name.take 40) : FreshNames mem lines := by
  intro k l' hk j l hj
  have hlt : j < k := Nat.lt_of_lt_of_le (List.getElem?_eq_some_iff.mp hj).1 (List.length_take_le k lines)
  rw [List.getElem?_take_of_lt hlt] at hj
  have hne : ∀ (behind behind' : Nat → UInt8), nameBlock behind l.name ≠ nameBlock behind' l'.name := by
    intro behind behind' heq
    have hcstr := congrArg (fun block => cstr (NameBlock.bytes block)) heq
    rw [nameBlock_cstr behind (hok l (List.mem_of_getElem? hj)).name,
      nameBlock_cstr behind' (hok l' (List.mem_of_getElem? hk)).name] at hcstr
    obtain ⟨hjlen, rfl⟩ := List.getElem?_eq_some_iff.mp hj
    obtain ⟨hklen, rfl⟩ := List.getElem?_eq_some_iff.mp hk
    exact List.pairwise_iff_getElem.mp hnames j k hjlen hklen hlt hcstr
  exact ⟨hne _ _, hne _ _⟩

section

variable (seed : UInt32) (serverName : Bytes) (mem : ConfMemory)

/-- The state when every line so far has made a node. -/
structure Loaded (done : List NodeLine) (s : ConfState) : Prop where
  records : s.records = done.mapIdx (loadedNode serverName mem)
  entries : s.nodes.entries.Perm (done.mapIdx fun k l => ((nameBlock (mem.create k) l.name).key, k))
  myself : s.myself.isSome = done.any fun l => strcaseEq l.name serverName
  own : ∀ k, s.myself = some k → ∃ l, done[k]? = some l ∧ strcaseEq l.name serverName = true

/-- The state after the lines `done`: a line that was taken for another leaves the table short. -/
structure Reading (done : List NodeLine) (s : ConfState) : Prop where
  wf : s.nodes.Wf (nodesType seed)
  iterators : s.nodes.iterators = 0
  loaded : FreshNames mem done → Loaded serverName mem done s
  short : ¬ FreshNames mem done → s.nodes.entries.length < done.length

end

section

variable {seed : UInt32} {serverName : Bytes} {mem : ConfMemory} {done : List NodeLine} {s : ConfState}
variable {k : Nat}

section

variable (h : Loaded serverName mem done s)

include h

theorem Loaded.mem_entries {key : SdsKey} :
    (key, k) ∈ s.nodes.entries ↔ ∃ l, done[k]? = some l ∧ key = (nameBlock (mem.create k) l.name).key := by
  rw [h.entries.mem_iff, List.mem_mapIdx]
  constructor
  · rintro ⟨j, hj, heq⟩
    cases heq
    exact ⟨done[k], List.getElem?_eq_getElem hj, rfl⟩
  · rintro ⟨l, hl, rfl⟩
    obtain ⟨hk, rfl⟩ := List.getElem?_eq_some_iff.mp hl
    exact ⟨k, hk, rfl⟩

/-- A name is found with a record exactly if its block is that of the record. -/
theorem Loaded.map_eq_some (hw : s.nodes.Wf (nodesType seed)) {block : NameBlock} :
    s.nodes.map (nodesType seed) block.key = some k ↔
      ∃ l, done[k]? = some l ∧ block = nameBlock (mem.create k) l.name := by
  rw [nodes_map_eq_some hw, h.mem_entries]
  simp only [NameBlock.key_inj]

theorem Loaded.map_eq_none (hw : s.nodes.Wf (nodesType seed)) {block : NameBlock} :
    s.nodes.map (nodesType seed) block.key = none ↔ ∀ j l, done[j]? = some l → nameBlock (mem.create j) l.name ≠ block := by
  rw [Option.eq_none_iff_forall_ne_some]
  constructor
  · intro hnone j l hl heq
    exact hnone j ((h.map_eq_some hw).mpr ⟨l, hl, heq.symm⟩)
  · intro hne k hk
    obtain ⟨l, hl, heq⟩ := (h.map_eq_some hw).mp hk
    exact hne k l hl heq.symm

theorem Loaded.isNew (hw : s.nodes.Wf (nodesType seed)) {name : Bytes} :
    IsNew seed mem k name s.nodes ↔ FreshName mem done k name := by
  rw [IsNew, h.map_eq_none hw, h.map_eq_none hw]
  constructor
  · rintro ⟨hlookup, hcreate⟩ j l hl
    exact ⟨hlookup j l hl, hcreate j l hl⟩
  · intro hfresh
    exact ⟨fun j l hl => (hfresh j l hl).1, fun j l hl => (hfresh j l hl).2⟩

theorem Loaded.entries_length : s.nodes.entries.length = done.length := by
  rw [h.entries.length_eq, List.length_mapIdx]

end

theorem Reading.length_le (ht : Reading seed serverName mem done s) : s.nodes.entries.length ≤ done.length := by
  by_cases hfresh : FreshNames mem done
  · exact Nat.le_of_eq (ht.loaded hfresh).entries_length
  · exact Nat.le_of_lt (ht.short hfresh)

@[simp] theorem ConfState.setLine_nodes (l : NodeLine) (k : Nat) : (s.setLine serverName l k).nodes = s.nodes := by
  unfold setLine setAddress setMyself
  split <;> rfl

theorem ConfState.setLine_myself (l : NodeLine) (k : Nat) :
    (s.setLine serverName l k).myself = if strcaseEq l.name serverName then some k else s.myself := by
  unfold setLine setAddress setMyself
  split <;> rfl

theorem modify_concat {α : Type} (l : List α) (x : α) (f : α → α) : (l ++ [x]).modify l.length f = l ++ [f x] := by
  induction l with
  | nil => rfl
  | cons y l ih => exact congrArg (y :: ·) ih

/-- The record that a line fills in. -/
theorem ConfState.setLine_records {records : List ConfNode} {l : NodeLine} (hk : k = records.length)
    (hs : s.records = records ++ [newNode mem k l.name]) :
    (s.setLine serverName l k).records = records ++ [loadedNode serverName mem k l] := by
  unfold setLine setAddress setMyself loadedNode
  split
  · dsimp only
    rw [hs, hk, modify_concat, modify_concat]
    rfl
  · dsimp only
    rw [hs, hk, modify_concat]
    rfl

/-- **One line.** -/
theorem Reading.line (ht : Reading seed serverName mem done s) (canResize : Bool) (hlen : done.length ≤ 2 ^ 29)
    {l : NodeLine} (h : l.Ok) {line : Bytes} (hline : l.Reads line) :
    ∃ s', loadNodeLine seed canResize serverName mem done.length line s =
        (if l.host.length < ipStrLen then .ok s' else .error .undefined) ∧ Reading seed serverName mem (done ++ [l]) s' := by
  obtain ⟨s₁, k, hfind, hw, hiter, hnew, hold⟩ :=
    findOrCreate_spec ht.wf (Nat.le_trans ht.length_le hlen) done.length l.name
  refine ⟨s₁.setLine serverName l k, h.loadNodeLine seed canResize serverName mem hline done.length hfind, ?_, ?_, ?_, ?_⟩
  · rw [ConfState.setLine_nodes]
    exact hw
  · rw [ConfState.setLine_nodes, hiter]
    exact ht.iterators
  · intro hfresh
    obtain ⟨hdone, hlast⟩ := freshNames_concat.mp hfresh
    have hloaded := ht.loaded hdone
    obtain ⟨hk, hrecords, hmyself, hentries⟩ := hnew ((hloaded.isNew ht.wf).mpr hlast)
    have hcount : s.records.length = done.length := by rw [hloaded.records, List.length_mapIdx]
    rw [hcount] at hk
    subst hk
    refine ⟨?_, ?_, ?_, fun own hown => ?_⟩
    · rw [ConfState.setLine_records hcount.symm hrecords, List.mapIdx_concat, hloaded.records]
    · rw [ConfState.setLine_nodes, List.mapIdx_concat]
      exact hentries.trans ((hloaded.entries.cons _).trans (List.perm_append_singleton _ _).symm)
    · rw [ConfState.setLine_myself, List.any_append, ← hloaded.myself, ← hmyself]
      cases hown : strcaseEq l.name serverName <;> simp [hown]
    · rw [ConfState.setLine_myself] at hown
      split at hown
      · rename_i hname
        cases hown
        exact ⟨l, List.getElem?_concat_length, hname⟩
      · obtain ⟨l', hl', hname⟩ := hloaded.own own (hmyself ▸ hown)
        exact ⟨l', by rw [List.getElem?_append_left (List.getElem?_eq_some_iff.mp hl').1]; exact hl', hname⟩
  · intro hstale
    rw [ConfState.setLine_nodes, List.length_append, List.length_singleton]
    by_cases hisNew : IsNew seed mem done.length l.name s.nodes
    · -- the line is new, so it was another one before it that was not
      have hdone : ¬ FreshNames mem done := fun hdone =>
        hstale (freshNames_concat.mpr ⟨hdone, ((ht.loaded hdone).isNew ht.wf).mp hisNew⟩)
      rw [(hnew hisNew).2.2.2.length_eq, List.length_cons]
      exact Nat.succ_lt_succ (ht.short hdone)
    · rw [hold hisNew]
      exact Nat.lt_succ_of_le ht.length_le

/-! ### Whole files -/

/-- The lines of a file; the last one may have no newline. -/
def nodesFile (ended : Bool) : List NodeLine → Bytes
  | [] => []
  | l :: lines => l.text ++ if ended || !lines.isEmpty then 10 :: nodesFile ended lines else []

theorem nodesFile_cons (ended : Bool) (l : NodeLine) (lines : List NodeLine) :
    ∃ r, nodesFile ended (l :: lines) = l.text ++ r ∧ LineEnd (nodesFile ended lines) r := by
  refine ⟨_, rfl, ?_⟩
  split
  · exact .inl rfl
  · rename_i hlast
    obtain rfl : lines = [] := by
      cases lines with
      | nil => rfl
      | cons l lines => exact absurd (Bool.or_true ended) hlast
    exact .inr ⟨rfl, rfl⟩

/-- A line that fits the buffer of `fgets`, with a host that fits `ip`. -/
def NodeLine.Fits (l : NodeLine) : Prop := l.text.length < 1024 ∧ l.host.length < ipStrLen
deriving Decidable

/-- **Loading a file** goes on to the end exactly if every line fits. -/
theorem Reading.lines (canResize ended : Bool) (lines : List NodeLine) :
    ∀ {done : List NodeLine} {s : ConfState} {fuel : Nat}, Reading seed serverName mem done s → (∀ l ∈ lines, l.Ok) →
      done.length + lines.length ≤ 2 ^ 29 → (nodesFile ended lines).length < fuel →
      ((∀ l ∈ lines, l.Fits) → ∃ s',
        loadNodeLines seed canResize serverName mem fuel done.length (nodesFile ended lines) s = .ok s' ∧
          Reading seed serverName mem (done ++ lines) s') ∧
      (¬ (∀ l ∈ lines, l.Fits) → ∃ e,
        loadNodeLines seed canResize serverName mem fuel done.length (nodesFile ended lines) s = .error e) := by
  induction lines with
  | nil =>
    intro done s fuel ht _ _ hfuel
    obtain ⟨fuel, rfl⟩ := Nat.exists_eq_add_one_of_ne_zero (Nat.ne_of_gt (Nat.zero_lt_of_lt hfuel))
    refine ⟨fun _ => ⟨s, rfl, ?_⟩, fun hfits => absurd (fun l hl => absurd hl List.not_mem_nil) hfits⟩
    rw [List.append_nil]
    exact ht
  | cons l lines ih =>
    intro done s fuel ht hok hcount hfuel
    obtain ⟨hl, hlines⟩ := List.forall_mem_cons.mp hok
    obtain ⟨r, hfile, hr⟩ := nodesFile_cons ended l lines
    rw [List.length_cons] at hcount
    rw [hfile] at hfuel ⊢
    rw [List.forall_mem_cons]
    rcases Nat.lt_or_ge l.text.length 1024 with hshort | hlong
    · obtain ⟨line, fuel', hline, hfuel', hrun⟩ := loadNodeLines_line seed canResize serverName mem hl hshort hr hfuel
        done.length s
      obtain ⟨s₁, hload, ht₁⟩ := ht.line canResize (by omega) hl hline
      rw [hrun, hload]
      by_cases hhost : l.host.length < ipStrLen
      · rw [if_pos hhost]
        have hrec := ih ht₁ hlines (by rw [List.length_append, List.length_singleton]; omega) hfuel'
        rw [List.length_append, List.length_singleton, List.append_assoc] at hrec
        exact ⟨fun hfits => hrec.1 hfits.2, fun hfits => hrec.2 fun hrest => hfits ⟨⟨hshort, hhost⟩, hrest⟩⟩
      · rw [if_neg hhost]
        exact ⟨fun hfits => absurd hfits.1.2 hhost, fun _ => ⟨_, rfl⟩⟩
    · exact ⟨fun hfits => absurd hfits.1.1 (Nat.not_lt.mpr hlong),
        fun _ => loadNodeLines_long seed canResize serverName mem hl hlong hr fuel done.length s⟩

theorem reading_init (seed : UInt32) (serverName : Bytes) (mem : ConfMemory) :
    Reading seed serverName mem [] ⟨dictCreate, [], none⟩ where
  wf := dictCreate_wf
  iterators := rfl
  loaded _ := ⟨rfl, .refl _, rfl, nofun⟩
  short hstale := absurd (fun k l hk => by cases hk) hstale

end

/-! ## Peers -/

/-- A `1` and four digits. -/
def PortFits (port : Bytes) : Prop := port.length = 5 ∧ port.head? = some 49
deriving Decidable

theorem atoi_digits {b : Bytes} (hb : ∀ d ∈ b, isDigit d = true) (hv : digitsValue 0 b < 2 ^ 31) :
    atoi b = digitsValue 0 b := by
  have hstrtol : strtol b = digitsValue 0 b := by
    by_cases hne : b = []
    · subst hne
      rfl
    · refine (DecimalText.plain hb hne).converted.value ⟨?_, ?_⟩ <;> omega
  rw [atoi, hstrtol, toInt32]
  omega

/-- A digit in front of `n` others stands for ten thousand only as a 1 in front of four. -/
theorem pow_mul_eq {x : Nat} (hx : x ≤ 9) (n : Nat) : x * 10 ^ n = 10000 ↔ n = 4 ∧ x = 1 := by
  constructor
  · intro h
    rcases Nat.lt_trichotomy n 4 with hlt | rfl | hgt
    · have hpow : 10 ^ n ≤ 10 ^ 3 := Nat.pow_le_pow_right (by decide) (Nat.le_of_lt_succ hlt)
      have := Nat.mul_le_mul hx hpow
      omega
    · omega
    · have hpow : 10 ^ 5 ≤ 10 ^ n := Nat.pow_le_pow_right (by decide) hgt
      rcases Nat.eq_zero_or_pos x with rfl | hpos
      · omega
      · have := Nat.mul_le_mul hpos hpow
        omega
  · rintro ⟨rfl, rfl⟩
    rfl

namespace NodeLine

variable {l : NodeLine}

/-- The number of the port, by its first digit and the rest. -/
theorem Ok.portNumber_eq (h : l.Ok) :
    ∃ d rest, l.port = d :: rest ∧ d.toNat - 48 ≤ 9 ∧ 48 ≤ d.toNat ∧ atoi rest = digitsValue 0 rest ∧
      digitsValue 0 rest ≤ 65535 ∧ l.portNumber = (d.toNat - 48) * 10 ^ rest.length + digitsValue 0 rest := by
  obtain ⟨d, rest, hport⟩ := List.exists_cons_of_ne_nil h.port_ne
  have hdigits := h.digits
  rw [hport] at hdigits
  obtain ⟨hd, hrest⟩ := List.forall_mem_cons.mp hdigits
  have hvalue : l.portNumber = (d.toNat - 48) * 10 ^ rest.length + digitsValue 0 rest := by
    rw [portNumber, hport, digitsValue, if_pos hd, digitsValue_acc hrest]
    simp
  have hle : digitsValue 0 rest ≤ 65535 := by
    have := h.port.2
    omega
  have hrange := (isDigit_iff d).mp hd
  exact ⟨d, rest, hport, by omega, hrange.1, atoi_digits hrest (by omega), hle, hvalue⟩

/-- **The increment makes up for the first digit of the ports `1dddd` only.** -/
theorem Ok.portFits_iff (h : l.Ok) : atoi l.port.tail + clusterPortIncr = l.portNumber ↔ PortFits l.port := by
  obtain ⟨d, rest, hport, hd, hd48, hatoi, -, hvalue⟩ := h.portNumber_eq
  rw [hport, List.tail_cons, hatoi, hvalue, clusterPortIncr, PortFits, List.length_cons, List.head?_cons]
  have hfirst : d.toNat - 48 = 1 ↔ some d = some 49 := by
    rw [Option.some.injEq, ← UInt8.toNat_inj]
    change _ ↔ d.toNat = 49
    omega
  rw [← hfirst]
  have hpow := pow_mul_eq hd rest.length
  constructor
  · intro heq
    obtain ⟨hlen, hone⟩ := hpow.mp (by omega)
    exact ⟨by omega, hone⟩
  · rintro ⟨hlen, hone⟩
    have := hpow.mpr ⟨by omega, hone⟩
    omega

end NodeLine

/-- The loop over some records, all of them there and with a port that can be added to. -/
theorem foldl_dialTurn (records : List ConfNode) (ks : List Nat) :
    ∀ tried, (∀ k ∈ ks, ∃ node, records[k]? = some node ∧ node.dial.isSome = true) →
      ∃ tried', ks.foldl (dialTurn records) (some tried) = some tried' ∧
        ∀ k target, (k, target) ∈ tried' ↔
          (k, target) ∈ tried ∨ k ∈ ks ∧ ∃ node, records[k]? = some node ∧ node.dial = some (some target) := by
  induction ks with
  | nil =>
    intro tried _
    exact ⟨tried, rfl, fun k target => by simp⟩
  | cons j ks ih =>
    intro tried hks
    obtain ⟨⟨node, hnode, hdial⟩, hks⟩ := List.forall_mem_cons.mp hks
    obtain ⟨o, ho⟩ := Option.isSome_iff_exists.mp hdial
    have hturn : dialTurn records (some tried) j = some (tried ++ (o.map fun t => (j, t)).toList) := by
      rw [dialTurn, Option.bind_some, hnode, Option.bind_some, ho]
      rfl
    obtain ⟨tried', hfold, hmem⟩ := ih (tried ++ (o.map fun t => (j, t)).toList) hks
    refine ⟨tried', by rw [List.foldl_cons, hturn]; exact hfold, fun k target => ?_⟩
    have hlast : (k, target) ∈ (o.map fun t => (j, t)).toList ↔ k = j ∧ ∃ node, records[k]? = some node ∧
        node.dial = some (some target) := by
      rw [Option.mem_toList, Option.map_eq_some_iff]
      constructor
      · rintro ⟨t, rfl, heq⟩
        cases heq
        exact ⟨rfl, node, hnode, ho⟩
      · rintro ⟨rfl, node', hnode', hdial'⟩
        rw [hnode] at hnode'
        rw [← Option.some.inj hnode', ho] at hdial'
        exact ⟨target, Option.some.inj hdial', rfl⟩
    rw [hmem, List.mem_append, hlast, List.mem_cons, or_and_right, or_assoc]

/-- Where the node of a line is dialled. -/
theorem loadedNode_dial (serverName : Bytes) (mem : ConfMemory) {l : NodeLine} (h : l.Ok) (k : Nat) :
    (loadedNode serverName mem k l).dial =
      if isSkipped (loadedNode serverName mem k l).flags then some none
      else some (some (l.host, atoi l.port.tail + clusterPortIncr)) := by
  obtain ⟨d, rest, hport, -, -, hatoi, hle, -⟩ := h.portNumber_eq
  have hsum : atoi l.port.tail + clusterPortIncr < 2 ^ 31 := by
    rw [hport, List.tail_cons, hatoi, clusterPortIncr]
    omega
  rw [ConfNode.dial]
  split
  · rfl
  · exact (if_neg Bool.false_ne_true).trans (if_pos hsum)

section

variable {seed : UInt32} {serverName : Bytes} {mem : ConfMemory} {lines : List NodeLine} {s : ConfState}
variable {l : NodeLine}

theorem Loaded.record (h : Loaded serverName mem lines s) {k : Nat} (hl : lines[k]? = some l) :
    s.records[k]? = some (loadedNode serverName mem k l) := by
  rw [h.records, List.getElem?_mapIdx, hl]
  rfl

/-- **What is dialled** after a file has been loaded. -/
theorem Loaded.dialNodes (h : Loaded serverName mem lines s) (hw : s.nodes.Wf (nodesType seed)) (hiter : s.nodes.iterators = 0)
    (hok : ∀ l ∈ lines, l.Ok) :
    ∃ tried, Prez.dialNodes seed s = some tried ∧
      ∀ k l, lines[k]? = some l → ∀ host port, (k, host, port) ∈ tried ↔
        isSkipped (loadedNode serverName mem k l).flags = false ∧ host = l.host ∧
          port = atoi l.port.tail + clusterPortIncr := by
  have hvalue : ∀ k ∈ s.nodes.entries.map Prod.snd, ∃ l, lines[k]? = some l := by
    intro k hk
    obtain ⟨⟨key, k⟩, hmem, rfl⟩ := List.mem_map.mp hk
    obtain ⟨l, hl, -⟩ := h.mem_entries.mp hmem
    exact ⟨l, hl⟩
  have hdials : ∀ k ∈ s.nodes.entries.map Prod.snd, ∃ node, s.records[k]? = some node ∧ node.dial.isSome = true := by
    intro k hk
    obtain ⟨l, hl⟩ := hvalue k hk
    refine ⟨_, h.record hl, ?_⟩
    rw [loadedNode_dial serverName mem (hok l (List.mem_of_getElem? hl))]
    split <;> rfl
  obtain ⟨tried, hfold, hmem⟩ := foldl_dialTurn s.records _ [] hdials
  refine ⟨tried, ?_, fun k l hl host port => ?_⟩
  · rw [Prez.dialNodes, dictEachReleased_eq (nodesType_lawful seed) hw (by rw [hiter]; decide), hfold]
    rfl
  · have hk : k ∈ s.nodes.entries.map Prod.snd := List.mem_map.mpr ⟨_, h.mem_entries.mpr ⟨l, hl, rfl⟩, rfl⟩
    have hdial := loadedNode_dial serverName mem (hok l (List.mem_of_getElem? hl)) k
    rw [hmem, h.record hl]
    constructor
    · rintro (hnil | ⟨-, node, hnode, hto⟩)
      · cases hnil
      · rw [← Option.some.inj hnode, hdial] at hto
        split at hto
        · cases hto
        · rename_i hskip
          cases hto
          exact ⟨Bool.eq_false_of_not_eq_true hskip, rfl, rfl⟩
    · rintro ⟨hskip, rfl, rfl⟩
      exact .inr ⟨hk, _, rfl, by rw [hdial, if_neg (by rw [hskip]; exact Bool.false_ne_true)]⟩

/-- The bit that marks the server's own record is among those that are tested. -/
theorem isSkipped_myself (flags : UInt32) : isSkipped (flags ||| nodeMyself) = true := by
  have hbit : (flags ||| nodeMyself) &&& (nodeMyself ||| nodeNoaddr) &&& nodeMyself = nodeMyself := by
    rw [UInt32.and_assoc, show (nodeMyself ||| nodeNoaddr) &&& nodeMyself = nodeMyself from rfl, ← UInt32.toNat_inj,
      UInt32.toNat_and, UInt32.toNat_or]
    refine Nat.eq_of_testBit_eq fun i => ?_
    rw [Nat.testBit_and, Nat.testBit_or]
    cases nodeMyself.toNat.testBit i <;> simp
  rw [isSkipped, bne_iff_ne]
  intro hzero
  rw [hzero] at hbit
  exact absurd hbit (by decide)

/-- The node of a line with the server's name is not dialled. -/
theorem loadedNode_own (hown : strcaseEq l.name serverName = true) (k : Nat) :
    isSkipped (loadedNode serverName mem k l).flags = true := by
  rw [loadedNode, if_pos hown]
  exact isSkipped_myself _

/-- A peer has the flags that its node was created with. -/
theorem loadedNode_flags (hpeer : strcaseEq l.name serverName = false) (k : Nat) :
    (loadedNode serverName mem k l).flags = mem.flags k :=
  if_neg (by rw [hpeer]; exact Bool.false_ne_true)

/-- A table that answers every line with its own record is not short. -/
theorem lines_le_entries (hw : s.nodes.Wf (nodesType seed)) {block : Nat → NodeLine → NameBlock}
    (hfound : ∀ k l, lines[k]? = some l → s.nodes.map (nodesType seed) (block k l).key = some k) :
    lines.length ≤ s.nodes.entries.length := by
  have hsub : List.range lines.length ⊆ s.nodes.entries.map Prod.snd := by
    intro k hk
    have hl := List.getElem?_eq_getElem (List.mem_range.mp hk)
    exact List.mem_map.mpr ⟨_, (nodes_map_eq_some hw).mp (hfound k _ hl), rfl⟩
  have hle := (List.subperm_of_subset List.nodup_range hsub).length_le
  rw [List.length_range, List.length_map] at hle
  exact hle

end

/-- **Peers are dialled at their configured address.** The file is loaded, the server takes the record of a line with its name
    for its own, every line has a record that is found by its name, and the connections that are tried for each other line are
    those to the host and the port of the line. `behind k` stands behind the name of a line when it is looked up after the
    loading. -/
def PeersDialled (seed : UInt32) (canResize : Bool) (serverName : Bytes) (mem : ConfMemory) (behind : Nat → Nat → UInt8)
    (ended : Bool) (lines : List NodeLine) : Prop :=
  ∃ s tried own, clusterLoadConfig seed canResize serverName mem (nodesFile ended lines) = .ok s ∧
    dialNodes seed s = some tried ∧ s.myself = some own ∧
    (∃ l, lines[own]? = some l ∧ strcaseEq l.name serverName = true) ∧
    ∀ k l, lines[k]? = some l →
      (clusterLookupNode seed (behind k) s.nodes l.name).map Prod.snd = some (some k) ∧
      (k ≠ own → ∀ host port, (k, host, port) ∈ tried ↔ host = l.host ∧ port = l.portNumber)

/-- What it takes. -/
structure ConfFits (serverName : Bytes) (mem : ConfMemory) (behind : Nat → Nat → UInt8) (lines : List NodeLine) : Prop where
  own : ∃ l ∈ lines, strcaseEq l.name serverName = true
  single : lines.Pairwise fun l l' => strcaseEq l.name serverName = true → strcaseEq l'.name serverName = false
  fits : ∀ l ∈ lines, l.Fits
  fresh : FreshNames mem lines
  found : ∀ k l, lines[k]? = some l → nameBlock (behind k) l.name = nameBlock (mem.create k) l.name
  port : ∀ l ∈ lines, strcaseEq l.name serverName = false → PortFits l.port
  flags : ∀ k l, lines[k]? = some l → strcaseEq l.name serverName = false → isSkipped (mem.flags k) = false

section

variable (seed : UInt32) (canResize : Bool) (serverName : Bytes) (mem : ConfMemory) (ended : Bool) {lines : List NodeLine}

/-- A file of lines that fit is read to its end. -/
theorem clusterLoadConfig_fits (hok : ∀ l ∈ lines, l.Ok) (hcount : lines.length ≤ 2 ^ 29) (hfits : ∀ l ∈ lines, l.Fits) :
    ∃ s, Reading seed serverName mem lines s ∧ clusterLoadConfig seed canResize serverName mem (nodesFile ended lines) =
      if s.myself.isSome then .ok s else .error .assertFailed := by
  have hlen : ([] : List NodeLine).length + lines.length ≤ 2 ^ 29 := by
    rw [List.length_nil, Nat.zero_add]
    exact hcount
  obtain ⟨s, hrun, hreading⟩ :=
    ((reading_init seed serverName mem).lines canResize ended lines hok hlen (Nat.lt_add_one _)).1 hfits
  refine ⟨s, hreading, ?_⟩
  rw [List.length_nil] at hrun
  rw [clusterLoadConfig, hrun]
  rfl

/-- A line that does not fit stops the server. -/
theorem clusterLoadConfig_stops (hok : ∀ l ∈ lines, l.Ok) (hcount : lines.length ≤ 2 ^ 29)
    (hfits : ¬ ∀ l ∈ lines, l.Fits) :
    ∃ e, clusterLoadConfig seed canResize serverName mem (nodesFile ended lines) = .error e := by
  have hlen : ([] : List NodeLine).length + lines.length ≤ 2 ^ 29 := by
    rw [List.length_nil, Nat.zero_add]
    exact hcount
  obtain ⟨e, hrun⟩ :=
    ((reading_init seed serverName mem).lines canResize ended lines hok hlen (Nat.lt_add_one _)).2 hfits
  refine ⟨e, ?_⟩
  rw [List.length_nil] at hrun
  rw [clusterLoadConfig, hrun]
  rfl

end

section

variable {seed : UInt32} {canResize : Bool} {serverName : Bytes} {mem : ConfMemory} {behind : Nat → Nat → UInt8} {ended : Bool}
  {lines : List NodeLine} {s : ConfState}

/-- A line besides the server's own has another name, without regard to case. -/
theorem ConfFits.peer (h : ConfFits serverName mem behind lines) {own k : Nat} {l₀ l : NodeLine} (hl₀ : lines[own]? = some l₀)
    (hown : strcaseEq l₀.name serverName = true) (hl : lines[k]? = some l) (hne : k ≠ own) :
    strcaseEq l.name serverName = false := by
  obtain ⟨hi₀, rfl⟩ := List.getElem?_eq_some_iff.mp hl₀
  obtain ⟨hi, rfl⟩ := List.getElem?_eq_some_iff.mp hl
  have hpairs := List.pairwise_iff_getElem.mp h.single
  rcases Nat.lt_or_gt_of_ne hne with hlt | hgt
  · by_contra hname
    have hother := hpairs k own hi hi₀ hlt (Bool.eq_true_of_not_eq_false hname)
    rw [hown] at hother
    cases hother
  · exact hpairs own k hi₀ hi hgt hown

/-- A file that is loaded has lines that fit. -/
theorem clusterLoadConfig_ok (hok : ∀ l ∈ lines, l.Ok) (hcount : lines.length ≤ 2 ^ 29)
    (hload : clusterLoadConfig seed canResize serverName mem (nodesFile ended lines) = .ok s) :
    (∀ l ∈ lines, l.Fits) ∧ Reading seed serverName mem lines s := by
  by_cases hfits : ∀ l ∈ lines, l.Fits
  · obtain ⟨s', hreading, hrun⟩ := clusterLoadConfig_fits seed canResize serverName mem ended hok hcount hfits
    rw [hload] at hrun
    split at hrun
    · cases hrun
      exact ⟨hfits, hreading⟩
    · cases hrun
  · obtain ⟨e, herr⟩ := clusterLoadConfig_stops seed canResize serverName mem ended hok hcount hfits
    rw [hload] at herr
    cases herr

theorem clusterLookupNode_snd (hw : s.nodes.Wf (nodesType seed)) (behind : Nat → UInt8) (name : Bytes) :
    (clusterLookupNode seed behind s.nodes name).map Prod.snd =
      some (s.nodes.map (nodesType seed) (nameBlock behind name).key) := by
  obtain ⟨nodes, hlookup, -⟩ := clusterLookupNode_spec hw behind name
  rw [hlookup]
  rfl

theorem ConfFits.peersDialled (hok : ∀ l ∈ lines, l.Ok) (hcount : lines.length ≤ 2 ^ 29)
    (h : ConfFits serverName mem behind lines) : PeersDialled seed canResize serverName mem behind ended lines := by
  obtain ⟨s, hreading, hload⟩ := clusterLoadConfig_fits seed canResize serverName mem ended hok hcount h.fits
  have hloaded := hreading.loaded h.fresh
  obtain ⟨tried, hdial, hmem⟩ := hloaded.dialNodes hreading.wf hreading.iterators hok
  have hmyself : s.myself.isSome = true := by
    rw [hloaded.myself, List.any_eq_true]
    exact h.own
  obtain ⟨own, hown⟩ := Option.isSome_iff_exists.mp hmyself
  obtain ⟨l₀, hl₀, hname⟩ := hloaded.own own hown
  refine ⟨s, tried, own, hload.trans (if_pos hmyself), hdial, hown, ⟨l₀, hl₀, hname⟩,
    fun k l hl => ⟨?_, fun hne host port => ?_⟩⟩
  · rw [clusterLookupNode_snd hreading.wf, (hloaded.map_eq_some hreading.wf).mpr ⟨l, hl, h.found k l hl⟩]
  · have hl' := List.mem_of_getElem? hl
    have hpeer := h.peer hl₀ hname hl hne
    rw [hmem k l hl, loadedNode_flags hpeer, (hok l hl').portFits_iff.mpr (h.port l hl' hpeer)]
    exact and_iff_right (h.flags k l hl hpeer)

theorem PeersDialled.confFits (hok : ∀ l ∈ lines, l.Ok) (hcount : lines.length ≤ 2 ^ 29)
    (h : PeersDialled seed canResize serverName mem behind ended lines) : ConfFits serverName mem behind lines := by
  obtain ⟨s, tried, own, hload, hdial, -, ⟨l₀, hl₀, hname⟩, hlines⟩ := h
  obtain ⟨hfits, hreading⟩ := clusterLoadConfig_ok hok hcount hload
  have hfound : ∀ k l, lines[k]? = some l → s.nodes.map (nodesType seed) (nameBlock (behind k) l.name).key = some k := by
    intro k l hl
    have hlookup := (hlines k l hl).1
    rw [clusterLookupNode_snd hreading.wf] at hlookup
    exact Option.some.inj hlookup
  have hfresh : FreshNames mem lines := by
    by_contra hstale
    have hle := lines_le_entries hreading.wf hfound
    exact Nat.not_lt.mpr hle (hreading.short hstale)
  have hloaded := hreading.loaded hfresh
  obtain ⟨tried', hdial', hmem⟩ := hloaded.dialNodes hreading.wf hreading.iterators hok
  obtain rfl : tried = tried' := Option.some.inj (hdial.symm.trans hdial')
  -- the connection to the configured address is among those that are tried
  have htried : ∀ k l, lines[k]? = some l → k ≠ own →
      isSkipped (loadedNode serverName mem k l).flags = false ∧ PortFits l.port := by
    intro k l hl hne
    have htried := ((hlines k l hl).2 hne l.host l.portNumber).mpr ⟨rfl, rfl⟩
    obtain ⟨hskip, -, hport⟩ := (hmem k l hl l.host l.portNumber).mp htried
    exact ⟨hskip, (hok l (List.mem_of_getElem? hl)).portFits_iff.mp hport.symm⟩
  have hown : ∀ k l, lines[k]? = some l → strcaseEq l.name serverName = true → k = own := by
    intro k l hl hself
    by_contra hne
    have hskip := (htried k l hl hne).1
    rw [loadedNode_own hself] at hskip
    cases hskip
  have hpeer : ∀ k l, lines[k]? = some l → strcaseEq l.name serverName = false →
      isSkipped (mem.flags k) = false ∧ PortFits l.port := by
    intro k l hl hpeer
    have hne : k ≠ own := by
      rintro rfl
      rw [Option.some.inj (hl.symm.trans hl₀), hname] at hpeer
      cases hpeer
    rw [← loadedNode_flags hpeer]
    exact htried k l hl hne
  refine ⟨⟨l₀, List.mem_of_getElem? hl₀, hname⟩, List.pairwise_iff_getElem.mpr fun j k hj hk hlt hself => ?_, hfits, hfresh,
    fun k l hl => ?_, fun l hl hname => ?_, fun k l hl hname => (hpeer k l hl hname).1⟩
  · by_contra hother
    have hj' := hown j _ (List.getElem?_eq_getElem hj) hself
    have hk' := hown k _ (List.getElem?_eq_getElem hk) (Bool.eq_true_of_not_eq_false hother)
    omega
  · obtain ⟨l', hl', hblock⟩ := (hloaded.map_eq_some hreading.wf).mp (hfound k l hl)
    rw [hl] at hl'
    rw [hblock, Option.some.inj hl']
  · obtain ⟨k, hk⟩ := List.mem_iff_getElem?.mp hl
    exact (hpeer k l hk hname).2

end

/-- **Every peer is dialled at its address exactly if** one line and no other has the server's name without regard to case,
    every line fits its buffers, no name is taken for one before it, every name is read again as it was stored, and each peer has
    a port `1dddd` and flags that let it be dialled. -/
theorem peers_dialled (seed : UInt32) (canResize : Bool) (serverName : Bytes) (mem : ConfMemory) (behind : Nat → Nat → UInt8)
    (ended : Bool) (lines : List NodeLine) (hok : ∀ l ∈ lines, l.Ok) (hcount : lines.length ≤ 2 ^ 29) :
    PeersDialled seed canResize serverName mem behind ended lines ↔ ConfFits serverName mem behind lines :=
  ⟨fun h => h.confFits hok hcount, fun h => h.peersDialled hok hcount⟩

/-- Two nodes, the first of them the server. -/
def twoNodes (port : Bytes) : List NodeLine :=
  [⟨ascii "a", ascii "10.0.0.1", ascii "16379"⟩, ⟨ascii "b", ascii "10.0.0.2", port⟩]

/-- A memory that is zero. -/
def zeroConfMemory : ConfMemory := ⟨fun _ _ => 0, fun _ _ => 0, fun _ => 0⟩

theorem peers_dialled_two :
    PeersDialled 5381 true (ascii "a") zeroConfMemory zeroConfMemory.lookup true (twoNodes (ascii "16380")) := by
  have hok : ∀ l ∈ twoNodes (ascii "16380"), l.Ok := by decide +kernel
  refine (peers_dialled 5381 true (ascii "a") zeroConfMemory zeroConfMemory.lookup true (twoNodes (ascii "16380")) hok
    (by decide)).mpr ⟨by decide +kernel, by decide +kernel, by decide +kernel, freshNames_of_names zeroConfMemory hok (by decide +kernel),
      fun _ _ _ => rfl, by decide +kernel, fun _ _ _ _ => show isSkipped 0 = false by decide⟩

/-- The usual port: the node on port 6379 is dialled on port 10379. -/
theorem peer_dialled_elsewhere :
    (∀ l ∈ twoNodes (ascii "6379"), l.Ok) ∧
    ((clusterLoadConfig 5381 true (ascii "a") zeroConfMemory (nodesFile true (twoNodes (ascii "6379")))).toOption.bind
      fun s => (dialNodes 5381 s).map fun tried => (s.myself, tried)) = some (some 0, [(1, ascii "10.0.0.2", 10379)]) ∧
    ¬ PeersDialled 5381 true (ascii "a") zeroConfMemory zeroConfMemory.lookup true (twoNodes (ascii "6379")) := by
  have hdialled : ((clusterLoadConfig 5381 true (ascii "a") zeroConfMemory (nodesFile true (twoNodes (ascii "6379")))).toOption.bind
      fun s => (dialNodes 5381 s).map fun tried => (s.myself, tried)) = some (some 0, [(1, ascii "10.0.0.2", 10379)]) := by
    decide +kernel
  refine ⟨by decide +kernel, hdialled, ?_⟩
  rintro ⟨s, tried, own, hload, hdial, hown, -, hlines⟩
  rw [hload] at hdialled
  change (dialNodes 5381 s).map _ = _ at hdialled
  rw [hdial, hown] at hdialled
  cases hdialled
  have htried := ((hlines 1 _ rfl).2 (by decide) (ascii "10.0.0.2") 6379).mpr (by decide +kernel)
  revert htried
  decide +kernel

end Prez
