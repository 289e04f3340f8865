import Prez.Config.Reply
import Prez.Lib.Assoc

/-!
# `Prez.Client.Execute` — a command, its reply and the keyspace

`call` with the functions of the command table, on the output of the client and on a keyspace whose values are
objects. The value that `set` stores is the argument itself, with one more reference, and `get` puts the value into the
queue of replies; so the keyspace, the arguments and the queue hold references to the same objects, and `held` counts
those outside of the queue.

`command_replies` says when a command queues one reply, with the keyspace unchanged if that is an error. It does not
for `set` with more than three arguments, where the source misses a `return` after the syntax error, when `config`
does not end, and for a client that is about to be closed.
-/

namespace Prez

open Lib

/-! ## The keyspace -/

/-- `o->type`. -/
inductive ObjType where
  | string
  | list
  | set
  | zset
  | hash
deriving DecidableEq

/-- A value of the keyspace. -/
structure DbVal where
  type : ObjType
  obj : Nat
deriving DecidableEq

/-- The entries of `server.db[0].dict`. -/
abbrev Db := List (Bytes × DbVal)

namespace Db

/-- `lookupKey(db, key)`. -/
def lookupKey (db : Db) (key : Bytes) : Option DbVal := Assoc.lookup (· == ·) key db

/-- `setKey(db, key, val)`: `dbAdd`, or `dbOverwrite`, which drops the old value; then the value has one more
    reference. -/
def setKey (db : Db) (heap : Heap) (key : Bytes) (val : Nat) : Option (Heap × Db) :=
  match db.lookupKey key with
  | none => (heap.incrRefCount val).map (·, (key, ⟨.string, val⟩) :: db)
  | some old =>
    (heap.decrRefCount old.obj).bind fun heap =>
    (heap.incrRefCount val).map (·, Assoc.setFirst (key == ·) ⟨.string, val⟩ db)

end Db

/-! ## Commands -/

/-- What a command works on. -/
structure Exec where
  out : Output
  db : Db
  config : ServerConfig

namespace Exec

/-- `getGenericCommand(c)`. -/
def getGenericCommand (s : Exec) (key : Bytes) : Option Exec :=
  match s.db.lookupKey key with
  | none => (s.out.addReply Output.nullbulkObj).map fun out => { s with out }
  | some o =>
    if o.type ≠ .string then (s.out.addReply Output.wrongtypeerrObj).map fun out => { s with out }
    else (s.out.addReplyBulk o.obj).map fun out => { s with out }

/-- `setGenericCommand(c, key, val)`. -/
def setGenericCommand (s : Exec) (key val : Nat) : Option Exec := do
  let text ← s.out.heap.text key
  let (heap, db) ← s.db.setKey s.out.heap text val
  let out ← Output.addReply { s.out with heap } Output.okObj
  return { s with out, db }

/-- `setCommand(c, argv, argc)`: the syntax error does not end it. -/
def setCommand (s : Exec) (argv : List Nat) : Option Exec :=
  (if argv.length ≠ 3 then s.out.addReply Output.syntaxerrObj else some s.out).bind fun out =>
  argv[1]?.bind fun key => argv[2]?.bind fun val => setGenericCommand { s with out } key val

/-- `c->cmd->proc(c, c->argv, c->argc)`. -/
def proc (os : Os) (s : Exec) (argv : List Nat) : Proc → Option Exec
  | .get => argv[1]?.bind fun key => (s.out.heap.text key).bind s.getGenericCommand
  | .set => s.setCommand argv
  | .config =>
    (argv.mapM s.out.heap.text).bind fun texts =>
    (configCommand os s.config s.out texts).map fun (config, out) => { s with config, out }

/-- `freeClientArgv(c)`. -/
def freeClientArgv : List Nat → Output → Option Output
  | [], o => some o
  | id :: argv, o => (o.heap.decrRefCount id).bind fun heap => freeClientArgv argv { o with heap }

/-- `call(c)`. -/
def call (os : Os) (s : Exec) (cmd : PrezCommand) (argv : List Nat) : Option Exec :=
  (s.proc os argv cmd.proc).bind fun s => (freeClientArgv argv s.out).map fun out => { s with out }

/-- What is stored for a key. -/
def keyspace (s : Exec) (key : Bytes) : Option (ObjType × Option ObjValue) :=
  (s.db.lookupKey key).map fun v => (v.type, s.out.heap.value v.obj)

end Exec

/-! ## References -/

/-- The references that the server itself, the keyspace and the arguments hold. -/
def held (base : Nat → Nat) (db : Db) (argv : List Nat) : Nat → Nat := fun id =>
  base id + (db.map (·.2.obj)).count id + argv.count id

/-- A value that `get` can send. -/
def ValueOk (heap : Heap) (v : DbVal) : Prop :=
  v.type = .string → ∃ o, heap.value v.obj = some o ∧ o.payload.length < 2 ^ 31 ∧ ∀ n, o = .int n → LongLong n

/-- What holds when a command is called. -/
structure ExecOk (base : Nat → Nat) (s : Exec) (argv : List Nat) : Prop where
  out : OutputOk (held base s.db argv) s.out
  shared : RepliesOk base s.out.heap
  distinct : Assoc.Distinct (· == ·) s.db
  values : ∀ e ∈ s.db, ValueOk s.out.heap e.2
  argv : ∀ id ∈ argv, ∃ text, s.out.heap.text id = some text ∧ text.length ≤ 2 ^ 29
  config : ConfigOk s.config

section

variable {base : Nat → Nat} {db : Db} {argv : List Nat}
variable {config : ServerConfig} {o : Output} {s' : Exec} {id : Nat} {key : Bytes} {b : Bytes} {os : Os} {argc : Nat}
variable {v : DbVal}

/-- What the server holds is held. -/
theorem held_base (h : 0 < base id) : 0 < held base db argv id := by
  unfold held
  omega

/-- The object of a key is held. -/
theorem held_db {e : Bytes × DbVal} (h : e ∈ db) : 0 < held base db argv e.2.obj := by
  have : 0 < (db.map (·.2.obj)).count e.2.obj := List.count_pos_iff.mpr (List.mem_map.mpr ⟨e, h, rfl⟩)
  unfold held
  omega

/-- An argument is held. -/
theorem held_argv (h : id ∈ argv) : 0 < held base db argv id := by
  have : 0 < argv.count id := List.count_pos_iff.mpr h
  unfold held
  omega

/-- One more argument is one more reference. -/
theorem held_cons_argv (id : Nat) : held base db (id :: argv) = bump (held base db argv) id := by
  funext k
  by_cases hk : k = id
  · rw [hk, bump_self, held, held, List.count_cons_self]
    omega
  · rw [bump_of_ne _ hk, held, held, List.count_cons_of_ne (Ne.symm hk)]

/-- One more key is one more reference. -/
theorem held_cons_db (e : Bytes × DbVal) : held base (e :: db) argv = bump (held base db argv) e.2.obj := by
  funext k
  rw [held, List.map_cons]
  by_cases hk : k = e.2.obj
  · rw [hk, bump_self, held, List.count_cons_self]
    omega
  · rw [bump_of_ne _ hk, held, List.count_cons_of_ne (Ne.symm hk)]

theorem held_perm {db' : Db} (h : db.Perm db') : held base db argv = held base db' argv := by
  funext k
  rw [held, held, (h.map _).count_eq]

/-- More holders do no harm to the shared replies. -/
theorem RepliesOk.mono {outer : Nat → Nat} {h : Heap} (hs : RepliesOk base h) (hle : ∀ k, 0 < base k → 0 < outer k) :
    RepliesOk outer h where
  shared k hk := ⟨hle k (hs.shared k hk).1, (hs.shared k hk).2⟩
  ok := ⟨hle _ hs.ok.1, hs.ok.2⟩
  syntaxerr := ⟨hle _ hs.syntaxerr.1, hs.syntaxerr.2⟩
  wrongtypeerr := ⟨hle _ hs.wrongtypeerr.1, hs.wrongtypeerr.2⟩

/-! ## What a command changes -/

/-- The objects of all holders are as before. -/
def Kept (outer : Nat → Nat) (o o' : Output) : Prop := ∀ k, 0 < outer k → o'.heap.value k = o.heap.value k

/-- A command has run: the text `b` is queued. -/
structure Ran (base : Nat → Nat) (s s' : Exec) (argv : List Nat) (b : Bytes) : Prop where
  ok : ExecOk base s' argv
  rest : ∀ fill, s'.out.rest fill = s.out.rest fill ++ b

variable {s : Exec}

/-- A value is judged by its own object alone. -/
theorem ValueOk.of_eq {heap heap' : Heap} (h : ValueOk heap v) (heq : heap'.value v.obj = heap.value v.obj) :
    ValueOk heap' v := by
  unfold ValueOk
  rw [heq]
  exact h

/-- The queue changes, and some arguments may have been given back. -/
theorem ExecOk.kept (h : ExecOk base s argv) {argv' : List Nat} (hsub : argv' ⊆ argv)
    (hout : OutputOk (held base s.db argv') o) (hkept : Kept (held base s.db argv') s.out o)
    (hconfig : ConfigOk config) : ExecOk base { s with out := o, config } argv' where
  out := hout
  shared := h.shared.kept fun k hk => hkept k (held_base hk)
  distinct := h.distinct
  values e he := (h.values e he).of_eq (hkept _ (held_db he))
  argv id hid := by
    obtain ⟨text, htext, hlen⟩ := h.argv id (hsub hid)
    exact ⟨text, (text_of_value (hkept id (held_argv hid))).trans htext, hlen⟩
  config := hconfig

/-- What a lookup finds is stored. -/
theorem lookupKey_mem (h : db.lookupKey key = some v) : ∃ e ∈ db, e.2 = v := by
  obtain ⟨e, he, rfl⟩ := Option.map_eq_some_iff.mp h
  exact ⟨e, List.mem_of_find?_eq_some he, rfl⟩

/-- The keyspace stays when its objects do. -/
theorem keyspace_kept (hkept : Kept (held base s.db argv) s.out o) :
    Exec.keyspace { s with out := o, config } = s.keyspace := by
  funext key
  unfold Exec.keyspace
  cases hv : s.db.lookupKey key with
  | none => rfl
  | some v =>
    obtain ⟨e, he, rfl⟩ := lookupKey_mem hv
    rw [Option.map_some, Option.map_some, ← hkept _ (held_db he)]

/-- A command that only replies. -/
theorem ExecOk.replies (h : ExecOk base s argv) (happends : Appends (held base s.db argv) s.out o b)
    (hconfig : ConfigOk config) :
    Ran base s { s with out := o, config } argv b ∧ Exec.keyspace { s with out := o, config } = s.keyspace :=
  ⟨⟨h.kept (List.Subset.refl _) happends.wf happends.kept hconfig, happends.rest⟩, keyspace_kept happends.kept⟩

/-! ## `get` and `config` -/

def wrongTypeResp : Resp :=
  .error ⟨ascii "WRONGTYPE Operation against a key holding the wrong kind of value", by decide +kernel⟩

theorem wrongTypeResp_encode :
    wrongTypeResp.encode = ascii "-WRONGTYPE Operation against a key holding the wrong kind of value\r\n" := by
  decide +kernel

/-- The reply of `get`. -/
def Exec.getResp (s : Exec) (key : Bytes) : Resp :=
  match s.keyspace key with
  | none => .bulk none
  | some (.string, some v) => .bulk (some v.payload)
  | some _ => wrongTypeResp

theorem getResp_none (h : s.db.lookupKey key = none) : s.getResp key = .bulk none := by
  rw [Exec.getResp, Exec.keyspace, h]
  rfl

/-- A string is answered with its text. -/
theorem getResp_string {o : ObjValue} (h : s.db.lookupKey key = some v) (htype : v.type = .string)
    (ho : s.out.heap.value v.obj = some o) : s.getResp key = .bulk (some o.payload) := by
  rw [Exec.getResp, Exec.keyspace, h, Option.map_some, htype, ho]

theorem getResp_other (h : s.db.lookupKey key = some v) (htype : v.type ≠ .string) :
    s.getResp key = wrongTypeResp := by
  rw [Exec.getResp, Exec.keyspace, h, Option.map_some]
  generalize v.type = t at htype
  cases t with
  | string => exact absurd rfl htype
  | _ => rfl

/-- **`GET` runs** and leaves the keys alone. -/
theorem get_runs (os : Os) (h : ExecOk base s argv) (hargc : argv.length = 2) :
    ∃ s' key text, s.proc os argv .get = some s' ∧ argv[1]? = some key ∧ s.out.heap.text key = some text ∧
      Ran base s s' argv (if s.out.closeAfterReply then [] else (s.getResp text).encode) ∧ s'.keyspace = s.keyspace := by
  obtain ⟨cmd, key, rfl⟩ := List.length_eq_two.mp hargc
  obtain ⟨text, htext, -⟩ := h.argv key (by simp)
  have hshared : RepliesOk (held base s.db [cmd, key]) s.out.heap := h.shared.mono fun _ => held_base
  have hreplies : ∃ o', s.getGenericCommand text = some { s with out := o' } ∧
      Adds (held base s.db [cmd, key]) s.out o' (s.getResp text).encode := by
    rw [Exec.getGenericCommand]
    cases hv : s.db.lookupKey text with
    | none =>
      rw [getResp_none hv, show (Resp.bulk none).encode = Output.sharedText Output.nullbulkObj by decide +kernel]
      obtain ⟨o', hreply, hadds⟩ := addReply_shared h.out hshared.shared (k := Output.nullbulkObj) (by decide)
      exact ⟨o', congrArg (Option.map _) hreply, hadds⟩
    | some v =>
      obtain ⟨e, he, rfl⟩ := lookupKey_mem hv
      dsimp only
      split
      · rename_i htype
        rw [getResp_other hv htype, wrongTypeResp_encode]
        obtain ⟨o', hreply, hadds⟩ := addReply_adds h.out hshared.wrongtypeerr.1 hshared.wrongtypeerr.2 nofun
        exact ⟨o', congrArg (Option.map _) hreply, hadds⟩
      · rename_i htype
        obtain ⟨o, ho, hlen, hll⟩ := h.values e he (not_not.mp htype)
        rw [getResp_string hv (not_not.mp htype) ho]
        obtain ⟨o', hreply, hadds⟩ := addReplyBulk_adds h.out hshared.shared (held_db he) ho hll hlen
        rw [bulkText_eq] at hadds
        exact ⟨o', congrArg (Option.map _) hreply, hadds⟩
  obtain ⟨o', hcmd, hadds⟩ := hreplies
  refine ⟨{ s with out := o' }, key, text, ?_, rfl, htext, h.replies hadds.appends h.config⟩
  show (s.out.heap.text key).bind s.getGenericCommand = _
  rw [htext, Option.bind_some, hcmd]

/-- The texts of the arguments. -/
theorem ExecOk.texts (h : ExecOk base s argv) :
    ∃ texts, argv.mapM s.out.heap.text = some texts ∧ texts.length = argv.length ∧ ∀ a ∈ texts, a.length ≤ 2 ^ 29 := by
  have hargv := h.argv
  clear h
  induction argv with
  | nil => exact ⟨[], rfl, rfl, nofun⟩
  | cons id argv ih =>
    obtain ⟨⟨text, htext, hlen⟩, hrest⟩ := List.forall_mem_cons.mp hargv
    obtain ⟨texts, htexts, hcount, hshort⟩ := ih hrest
    refine ⟨text :: texts, ?_, ?_, List.forall_mem_cons.mpr ⟨hlen, hshort⟩⟩
    · rw [List.mapM_cons, htext, htexts]
      rfl
    · rw [List.length_cons, List.length_cons, hcount]

/-- **`CONFIG` runs**, if its work comes to an end. -/
theorem config_runs (h : ExecOk base s argv) (hargc : 2 ≤ argv.length) {texts : List Bytes}
    (htexts : argv.mapM s.out.heap.text = some texts) (hends : ConfigEnds os s.config texts) :
    ∃ s' r, s.proc os argv .config = some s' ∧
      Ran base s s' argv (if s.out.closeAfterReply then closingText s.config texts else Resp.encode r) ∧
      s'.keyspace = s.keyspace := by
  obtain ⟨texts', htexts', hcount, hshort⟩ := h.texts
  cases htexts.symm.trans htexts'
  have hshared : RepliesOk (held base s.db argv) s.out.heap := h.shared.mono fun _ => held_base
  obtain ⟨config, o', r, hcmd, happends, hconfig⟩ := configCommand_appends h.out hshared h.config (hcount ▸ hargc) hshort hends
  refine ⟨{ s with config, out := o' }, r, ?_, h.replies happends hconfig⟩
  rw [Exec.proc, htexts, Option.bind_some, hcmd, Option.map_some]

/-- A `config` that returns has ended. -/
theorem configEnds_of_proc (h : s.proc os argv .config = some s') {texts : List Bytes}
    (htexts : argv.mapM s.out.heap.text = some texts) : ConfigEnds os s.config texts := by
  rw [Exec.proc, htexts, Option.bind_some] at h
  obtain ⟨r, hcmd, -⟩ := Option.map_eq_some_iff.mp h
  exact configEnds_of_some hcmd

/-! ## `set` -/

/-- Two changes of the heap, one after the other. -/
theorem SameNodes.trans {outer₁ outer₂ outer₃ : Nat → Nat} {h₁ h₂ : Heap} (h : SameNodes outer₁ outer₂ o h₁)
    (h' : SameNodes outer₂ outer₃ { o with heap := h₁ } h₂) (hle : ∀ k, 0 < outer₁ k → 0 < outer₃ k → 0 < outer₂ k) :
    SameNodes outer₁ outer₃ o h₂ where
  wf := h'.wf
  node k hk := (h'.node k hk).trans (h.node k hk)
  kept k h₁ h₃ := (h'.kept k (hle k h₁ h₃) h₃).trans (h.kept k h₁ (hle k h₁ h₃))

/-- What `setKey` does to the references and to the keyspace. -/
structure KeySet (base : Nat → Nat) (argv : List Nat) (db db' : Db) (o : Output) (heap' : Heap) (key : Bytes) (val : Nat) :
    Prop where
  nodes : SameNodes (held base db argv) (held base db' argv) o heap'
  distinct : Assoc.Distinct (· == ·) db'
  lookup : ∀ k, db'.lookupKey k = if key = k then some ⟨.string, val⟩ else db.lookupKey k
  mem : ∀ e ∈ db', e ∈ db ∨ e.2 = ⟨.string, val⟩

/-- **`setKey` is defined** and stores the value under the key. -/
theorem setKey_spec (hw : OutputOk (held base db argv) o) (hd : Assoc.Distinct (· == ·) db) (key : Bytes) {val : Nat}
    (hval : val ∈ argv) :
    ∃ heap' db', db.setKey o.heap key val = some (heap', db') ∧ KeySet base argv db db' o heap' key val := by
  unfold Db.setKey
  cases hlook : db.lookupKey key with
  | none =>
    obtain ⟨heap', hincr, hnodes⟩ := hw.retain (held_argv hval)
    refine ⟨heap', (key, ⟨.string, val⟩) :: db, ?_, ?_, hd.cons hlook, fun k => ?_, fun e he => ?_⟩
    · dsimp only
      rw [hincr, Option.map_some]
    · rw [held_cons_db]
      exact hnodes
    · rw [Db.lookupKey, Assoc.lookup_cons]
      exact if_congr (by rw [beq_iff_eq, eq_comm]) rfl rfl
    · rcases List.mem_cons.mp he with rfl | he
      · exact .inr rfl
      · exact .inl he
  | some old =>
    obtain ⟨e, hfind, rfl⟩ := Option.map_eq_some_iff.mp hlook
    have hkey : (key == e.1) = true := Assoc.eq_of_find? hfind
    have hold := Assoc.perm_eraseP hfind
    have hnew := Assoc.perm_setFirst (p := (key == ·)) (v := DbVal.mk .string val) hfind
    -- the old value loses a reference, then the new one gets one
    have hw' := hw
    rw [held_perm hold, held_cons_db] at hw'
    obtain ⟨heap₁, hdecr, hnodes₁⟩ := hw'.release
    obtain ⟨heap₂, hincr, hnodes₂⟩ := hnodes₁.wf.retain (held_argv hval)
    have hdistinct : Assoc.Distinct (· == ·) ((e.1, DbVal.mk .string val) :: db.eraseP fun a => key == a.1) :=
      List.pairwise_cons.mpr (List.pairwise_cons.mp (hd.perm keyEq_beq hold))
    have hdistinct' := hdistinct.perm keyEq_beq hnew.symm
    refine ⟨heap₂, Assoc.setFirst (key == ·) ⟨.string, val⟩ db, ?_, ?_, hdistinct', fun k => ?_, fun a ha => ?_⟩
    · dsimp only
      rw [hdecr, Option.bind_some, hincr, Option.map_some]
    · rw [held_perm hold, held_perm hnew, held_cons_db, held_cons_db]
      refine hnodes₁.trans hnodes₂ fun k _ hk => ?_
      by_cases hk' : k = val
      · rw [hk']
        exact held_argv hval
      · rw [bump_of_ne _ hk'] at hk
        exact hk
    · rw [Db.lookupKey, Assoc.lookup_perm keyEq_beq k hdistinct' hnew, Assoc.lookup_store keyEq_beq hkey, Assoc.store]
      by_cases hk : key = k
      · rw [if_pos hk, if_pos (beq_iff_eq.mpr hk)]
      · rw [if_neg hk, if_neg (by rwa [beq_iff_eq]), Assoc.lookup_remove keyEq_beq hd hold hkey, Assoc.store,
          if_neg (by rwa [beq_iff_eq])]
        rfl
    · rcases List.mem_cons.mp (hnew.mem_iff.mp ha) with rfl | ha
      · exact .inr rfl
      · exact .inl (List.mem_of_mem_eraseP ha)

def syntaxResp : Resp := .error ⟨ascii "ERR syntax error", by decide +kernel⟩

/-- The replies of `set`. -/
def setResps (argc : Nat) : List Resp := if argc = 3 then [okResp] else [syntaxResp, okResp]

/-- The last reply of `SET` is the success. -/
theorem setResps_last (argc : Nat) :
    Resp.encodeAll (setResps argc).dropLast ++ okResp.encode = Resp.encodeAll (setResps argc) := by
  unfold setResps
  split <;> rfl

/-- The first part of `setCommand`. -/
theorem syntaxCheck_adds (h : ExecOk base s argv) :
    ∃ o', (if argv.length ≠ 3 then s.out.addReply Output.syntaxerrObj else some s.out) = some o' ∧
      Adds (held base s.db argv) s.out o' (Resp.encodeAll ((setResps argv.length).dropLast)) := by
  unfold setResps
  by_cases hargc : argv.length = 3
  · rw [if_neg (not_not.mpr hargc), if_pos hargc]
    exact ⟨s.out, rfl, .refl h.out⟩
  · rw [if_pos hargc, if_neg hargc]
    have hshared : RepliesOk (held base s.db argv) s.out.heap := h.shared.mono fun _ => held_base
    exact addReply_adds h.out hshared.syntaxerr.1 hshared.syntaxerr.2 nofun

/-- An object with a text holds no number. -/
theorem value_of_text {h : Heap} {s : Bytes} (ht : h.text id = some s) :
    ∃ v, h.value id = some v ∧ v.payload = s ∧ ∀ n, v ≠ .int n := by
  obtain ⟨v, hv, hs⟩ := Option.bind_eq_some_iff.mp ht
  refine ⟨v, hv, ?_, ?_⟩
  · cases v <;> first | exact Option.some.inj hs | cases hs
  · rintro n rfl
    cases hs

theorem exists_three {l : List Nat} (h : 3 ≤ l.length) : ∃ a b c more, l = a :: b :: c :: more := by
  match l, h with
  | a :: b :: c :: more, _ => exact ⟨a, b, c, more, rfl⟩

/-- **`SET` runs** and stores its value. -/
theorem set_runs (os : Os) (h : ExecOk base s argv) (hargc : 3 ≤ argv.length) :
    ∃ s' key text val, s.proc os argv .set = some s' ∧ argv[1]? = some key ∧ s.out.heap.text key = some text ∧
      argv[2]? = some val ∧
      Ran base s s' argv (if s.out.closeAfterReply then [] else Resp.encodeAll (setResps argv.length)) ∧
      s'.keyspace = Function.update s.keyspace text (some (.string, s.out.heap.value val)) := by
  obtain ⟨o₁, hsyntax, hadds₁⟩ := syntaxCheck_adds h
  obtain ⟨cmd, key, val, more, hargv⟩ := exists_three hargc
  have hkeymem : key ∈ argv := by simp [hargv]
  have hvalmem : val ∈ argv := by simp [hargv]
  obtain ⟨text, htext, -⟩ := h.argv key hkeymem
  obtain ⟨heap', db', hset, hkeyset⟩ := setKey_spec hadds₁.wf h.distinct text hvalmem
  have hkept₁ : ∀ k, 0 < held base s.db argv k → 0 < held base db' argv k → heap'.value k = s.out.heap.value k :=
    fun k hk hk' => (hkeyset.nodes.kept k hk hk').trans (hadds₁.kept k hk)
  have hshared : RepliesOk (held base db' argv) heap' :=
    (h.shared.kept fun k hk => hkept₁ k (held_base hk) (held_base hk)).mono fun _ => held_base
  obtain ⟨o₃, hok, hadds₃⟩ := addReply_ok hkeyset.nodes.wf hshared
  have hkept : ∀ k, 0 < held base s.db argv k → 0 < held base db' argv k → o₃.heap.value k = s.out.heap.value k :=
    fun k hk hk' => (hadds₃.kept k hk').trans (hkept₁ k hk hk')
  have hkeptArg : ∀ id ∈ argv, o₃.heap.value id = s.out.heap.value id :=
    fun id hid => hkept id (held_argv hid) (held_argv hid)
  have hkey? : argv[1]? = some key := by rw [hargv]; rfl
  have hval? : argv[2]? = some val := by rw [hargv]; rfl
  refine ⟨{ s with out := o₃, db := db' }, key, text, val, ?_, hkey?, htext, hval?,
    ⟨⟨hadds₃.wf, ?_, hkeyset.distinct, ?_, ?_, h.config⟩, fun fill => ?_⟩, ?_⟩
  · have htext₁ : o₁.heap.text key = some text := (text_of_value (hadds₁.kept key (held_argv hkeymem))).trans htext
    rw [Exec.proc, Exec.setCommand, hsyntax, Option.bind_some, hkey?, Option.bind_some, hval?, Option.bind_some]
    simp only [Exec.setGenericCommand, htext₁, hset, hok, Option.bind_eq_bind, Option.bind_some, Option.pure_def]
  · exact h.shared.kept fun k hk => hkept k (held_base hk) (held_base hk)
  · intro e he
    rcases hkeyset.mem e he with he' | heq
    · exact (h.values e he').of_eq (hkept _ (held_db he') (held_db he))
    · -- the new value is the argument
      intro _
      obtain ⟨t, ht, hlen⟩ := h.argv val hvalmem
      obtain ⟨v, hv, hpay, hint⟩ := value_of_text ht
      refine ⟨v, ?_, ?_, fun n hn => absurd hn (hint n)⟩
      · rw [heq]
        exact (hkeptArg val hvalmem).trans hv
      · rw [hpay]
        omega
  · intro id hid
    obtain ⟨t, ht, hlen⟩ := h.argv id hid
    exact ⟨t, (text_of_value (hkeptArg id hid)).trans ht, hlen⟩
  · show o₃.rest fill = _
    rw [hadds₃.rest, rest_setHeap hkeyset.nodes.node, hadds₁.rest, List.append_assoc]
    dsimp only
    rw [hadds₁.closing]
    by_cases hclose : s.out.closeAfterReply = true
    · rw [if_pos hclose, if_pos hclose, if_pos hclose, List.append_nil]
    · rw [if_neg hclose, if_neg hclose, if_neg hclose, setResps_last]
  · funext k
    unfold Exec.keyspace
    dsimp only
    rw [hkeyset.lookup]
    by_cases hk : text = k
    · rw [if_pos hk, hk, Function.update_self, Option.map_some, hkeptArg val hvalmem]
    · rw [if_neg hk, Function.update_of_ne (Ne.symm hk)]
      cases hv : s.db.lookupKey k with
      | none => rfl
      | some v =>
        obtain ⟨e, he, rfl⟩ := lookupKey_mem hv
        have hv' : db'.lookupKey k = some e.2 := by rw [hkeyset.lookup, if_neg hk, hv]
        obtain ⟨e', he', heq⟩ := lookupKey_mem hv'
        have hheld : 0 < held base db' argv e.2.obj := by
          rw [← heq]
          exact held_db he'
        rw [Option.map_some, Option.map_some, hkept _ (held_db he) hheld]

/-! ## `call` -/

/-- The arguments are given back. -/
theorem freeClientArgv_spec : ∀ {argv : List Nat} {o : Output}, OutputOk (held base db argv) o →
    ∃ heap', Exec.freeClientArgv argv o = some { o with heap := heap' } ∧
      SameNodes (held base db argv) (held base db []) o heap' := by
  intro argv
  induction argv with
  | nil => exact fun {o} hw => ⟨o.heap, rfl, hw, fun _ _ => rfl, fun _ _ _ => rfl⟩
  | cons id argv ih =>
    intro o hw
    rw [held_cons_argv] at hw
    obtain ⟨heap₁, hdecr, hnodes₁⟩ := hw.release
    obtain ⟨heap₂, hfree, hnodes₂⟩ := ih hnodes₁.wf
    refine ⟨heap₂, ?_, ?_⟩
    · rw [Exec.freeClientArgv, hdecr, Option.bind_some]
      exact hfree
    · rw [held_cons_argv]
      refine hnodes₁.trans hnodes₂ fun k _ hk => ?_
      unfold held at hk ⊢
      rw [List.count_nil] at hk
      omega

theorem held_nil_le {k : Nat} (h : 0 < held base db [] k) : 0 < held base db argv k := by
  unfold held at h ⊢
  rw [List.count_nil] at h
  omega

/-- After the command, `resetClient`. -/
theorem Ran.free (h : Ran base s s' argv b) :
    ∃ o, Exec.freeClientArgv argv s'.out = some o ∧ Ran base s { s' with out := o } [] b ∧
      Exec.keyspace { s' with out := o } = s'.keyspace := by
  obtain ⟨heap, hfree, hnodes⟩ := freeClientArgv_spec h.ok.out
  have hkept : Kept (held base s'.db []) s'.out { s'.out with heap } :=
    fun k hk => hnodes.kept k (held_nil_le hk) hk
  refine ⟨_, hfree, ⟨h.ok.kept (List.nil_subset _) hnodes.wf hkept h.ok.config, fun fill => ?_⟩, keyspace_kept hkept⟩
  show Output.rest { s'.out with heap } fill = _
  rw [rest_setHeap hnodes.node, h.rest]

/-- The command of the table that is called replies as `Ran` says, and then the arguments are given back. -/
theorem call_of_proc (cmd : PrezCommand) (hproc : s.proc os argv cmd.proc = some s') (h : Ran base s s' argv b) :
    ∃ s'', s.call os cmd argv = some s'' ∧ Ran base s s'' [] b ∧ s''.keyspace = s'.keyspace := by
  obtain ⟨o, hfree, hran, hkeys⟩ := h.free
  refine ⟨{ s' with out := o }, ?_, hran, hkeys⟩
  rw [Exec.call, hproc, Option.bind_some, hfree, Option.map_some]

/-- The command table gives `GET` one key. -/
theorem arityOk_get (h : arityOk getCmd argc = true) : argc = 2 := by
  simp [arityOk, getCmd] at h
  omega

/-- The command table gives `SET` a key and a value, and lets more through. -/
theorem arityOk_set (h : arityOk setCmd argc = true) : 3 ≤ argc := by
  simp [arityOk, setCmd] at h
  omega

/-- The command table gives `CONFIG` a subcommand. -/
theorem arityOk_config (h : arityOk configCmd argc = true) : 2 ≤ argc := by
  simp [arityOk, configCmd] at h
  omega

/-! ## A request on a new server -/

/-- The objects that commands reply with, by address. -/
def serverText (k : Nat) : Bytes :=
  if k = Output.okObj then ascii "+OK\r\n"
  else if k = Output.syntaxerrObj then ascii "-ERR syntax error\r\n"
  else if k = Output.wrongtypeerrObj then
    ascii "-WRONGTYPE Operation against a key holding the wrong kind of value\r\n"
  else Output.sharedText k

def serverCount : Nat := Output.sharedCount + 3

/-- The shared objects and the arguments of a request. -/
def requestHeap (argv : List Bytes) : Heap where
  objs k := if k < serverCount then some ⟨.raw (serverText k), 1⟩ else argv[k - serverCount]?.map fun a => ⟨.raw a, 1⟩
  nextObj := serverCount + argv.length

/-- The objects of the arguments. -/
def requestIds (argv : List Bytes) : List Nat := (List.range argv.length).map (serverCount + ·)

/-- A new client with its first request. -/
def Exec.start (config : ServerConfig) (argv : List Bytes) : Exec := ⟨⟨requestHeap argv, [], 0, [], false, false, []⟩, [], config⟩

/-- The references of the server. -/
def sharedRefs (id : Nat) : Nat := if id < serverCount then 1 else 0

/-- The objects of a request are new, and each holds one argument. -/
theorem mem_requestIds {argv : List Bytes} (h : id ∈ requestIds argv) :
    serverCount ≤ id ∧ ∃ a ∈ argv, (requestHeap argv).objs id = some ⟨.raw a, 1⟩ := by
  obtain ⟨i, hi, rfl⟩ := List.mem_map.mp h
  have hlt := List.mem_range.mp hi
  refine ⟨Nat.le_add_right .., argv[i], List.getElem_mem hlt, ?_⟩
  show (if serverCount + i < serverCount then _ else _) = _
  rw [if_neg (by omega), Nat.add_sub_cancel_left, List.getElem?_eq_getElem hlt, Option.map_some]

theorem requestIds_count (argv : List Bytes) (id : Nat) : (requestIds argv).count id ≤ 1 := by
  have hnodup : (requestIds argv).Nodup := List.nodup_range.map fun a b hab => Nat.add_left_cancel hab
  exact List.nodup_iff_count_le_one.mp hnodup id

/-- The shared replies are in place at the start. -/
theorem start_shared (argv : List Bytes) : RepliesOk sharedRefs (requestHeap argv) := by
  have hvalue : ∀ k < serverCount, 0 < sharedRefs k ∧ (requestHeap argv).value k = some (.raw (serverText k)) := by
    intro k hk
    constructor
    · rw [sharedRefs, if_pos hk]
      exact Nat.one_pos
    · rw [Heap.value, requestHeap]
      dsimp only
      rw [if_pos hk, Option.map_some]
  refine ⟨fun k hk => ?_, hvalue _ (by decide), hvalue _ (by decide), hvalue _ (by decide)⟩
  have htext : serverText k = Output.sharedText k := by
    unfold serverText Output.okObj Output.syntaxerrObj Output.wrongtypeerrObj
    rw [if_neg (by omega), if_neg (by omega), if_neg (by omega)]
  rw [← htext]
  exact hvalue k (by unfold serverCount; omega)

/-- **A request that has just been read** is one the commands can run on. -/
theorem start_ok {argv : List Bytes} (hargv : ∀ a ∈ argv, a.length ≤ 2 ^ 29) (hc : ConfigOk config) :
    ExecOk sharedRefs (.start config argv) (requestIds argv) := by
  have hobj : ∀ id, 0 < held sharedRefs [] (requestIds argv) id →
      ∃ t, (requestHeap argv).objs id = some ⟨.raw t, 1⟩ ∧ held sharedRefs [] (requestIds argv) id ≤ 1 := by
    intro id hpos
    have hcount := requestIds_count argv id
    unfold held at hpos ⊢
    rw [List.map_nil, List.count_nil] at hpos ⊢
    by_cases hmem : id ∈ requestIds argv
    · obtain ⟨hge, a, -, hobj⟩ := mem_requestIds hmem
      refine ⟨a, hobj, ?_⟩
      rw [sharedRefs, if_neg (by omega)]
      omega
    · rw [List.count_eq_zero_of_not_mem hmem] at hpos ⊢
      have hlt : id < serverCount := by
        by_contra hge
        rw [sharedRefs, if_neg hge] at hpos
        omega
      refine ⟨serverText id, if_pos hlt, ?_⟩
      rw [sharedRefs, if_pos hlt]
  have hraw : ∀ id, (requestHeap argv).value id ≠ some .null := by
    intro id hv
    obtain ⟨r, hr, hnull⟩ := Option.map_eq_some_iff.mp hv
    unfold requestHeap at hr
    dsimp only at hr
    split at hr
    · cases hr
      cases hnull
    · obtain ⟨a, -, rfl⟩ := Option.map_eq_some_iff.mp hr
      cases hnull
  refine ⟨⟨⟨fun id hpos => ?_, fun id hge => ?_, fun id hv => absurd hv (hraw id)⟩, nofun, fun id _ => hraw id,
    Nat.zero_le _, fun h => absurd rfl h, fun _ => .inl rfl⟩, start_shared argv, .nil, nofun, fun id hid => ?_, hc⟩
  · obtain ⟨t, hobj, hle⟩ := hobj id hpos
    exact ⟨_, hobj, hle⟩
  · have hge' : serverCount + argv.length ≤ id := hge
    show (if id < serverCount then _ else _) = _
    rw [if_neg (by omega), List.getElem?_eq_none (by omega), Option.map_none]
  · obtain ⟨-, a, ha, hobj⟩ := mem_requestIds hid
    refine ⟨a, ?_, hargv a ha⟩
    exact text_of_raw (Heap.value_eq hobj)

/-! ## One reply -/

/-- The call queues one reply, which can be read off the text in one way only, and if it is an error the keyspace is
    unchanged. -/
def OneReply (os : Os) (s : Exec) (cmd : PrezCommand) (argv : List Nat) : Prop :=
  ∃ s' r, s.call os cmd argv = some s' ∧ (∀ fill, s'.out.rest fill = s.out.rest fill ++ Resp.encode r) ∧
    (∀ fill rs, s'.out.rest fill = s.out.rest fill ++ Resp.encodeAll rs → rs = [r]) ∧
    (r.isError = true → s'.keyspace = s.keyspace)

/-- `CONFIG GET` with a pattern that no parameter matches. -/
def NoneShown (cfg : ServerConfig) (argv : List Bytes) : Prop :=
  ∃ cmd sub pattern, argv = [cmd, sub, pattern] ∧ strcaseEq sub (ascii "get") = true ∧ shown pattern (configFields cfg) = []

/-- What it takes: three arguments for `set`, a `config` that ends, and a client that is not about to be closed. Such a
    client still gets the length 0 of an empty list. -/
structure RepliesOnce (os : Os) (s : Exec) (cmd : PrezCommand) (argv : List Nat) (texts : List Bytes) : Prop where
  set : cmd = setCmd → argv.length = 3
  config : cmd = configCmd → ConfigEnds os s.config texts
  closing : s.out.closeAfterReply = true → cmd = configCmd ∧ NoneShown s.config texts

theorem encode_ne_nil (r : Resp) : r.encode ≠ [] := by
  obtain ⟨tail, h⟩ := r.encode_head
  rw [h]
  exact List.cons_ne_nil _ _

/-- The length of a list is a reply only if the list is empty. -/
theorem closingText_encode {cfg : ServerConfig} {argv : List Bytes} {r : Resp} :
    closingText cfg argv = r.encode ↔ NoneShown cfg argv ∧ r = .multi [] := by
  constructor
  · intro h
    unfold closingText at h
    split at h
    · rename_i cmd sub pattern
      split at h
      · rename_i hget
        -- the whole list starts with this reply, so it is this reply
        have hprefix : r.encode ++ (shown pattern (configFields cfg)).flatMap bulkString =
            (Resp.multi (shown pattern (configFields cfg))).encode ++ [] := by
          rw [← h, multi_encode, List.append_nil]
        obtain ⟨rfl, hnil⟩ := Resp.encode_inj hprefix
        have hshown : shown pattern (configFields cfg) = [] := by
          cases hs : shown pattern (configFields cfg) with
          | nil => rfl
          | cons item items =>
            rw [hs, List.flatMap_cons] at hnil
            cases hnil
        exact ⟨⟨cmd, sub, pattern, rfl, hget, hshown⟩, by rw [hshown]⟩
      · exact absurd h.symm (encode_ne_nil r)
    · exact absurd h.symm (encode_ne_nil r)
  · rintro ⟨⟨cmd, sub, pattern, rfl, hget, hshown⟩, rfl⟩
    rw [closingText, if_pos hget, hshown, multi_encode]
    exact (List.append_nil _).symm

/-- What a call queues decides on its replies. -/
theorem oneReply_iff {cmd : PrezCommand} (hcall : s.call os cmd argv = some s')
    (hrest : ∀ fill, s'.out.rest fill = s.out.rest fill ++ b) :
    OneReply os s cmd argv ↔ ∃ r : Resp, b = r.encode ∧ (r.isError = true → s'.keyspace = s.keyspace) := by
  constructor
  · rintro ⟨s₁, r, hcall', hone, -, hkeys⟩
    cases hcall.symm.trans hcall'
    exact ⟨r, List.append_cancel_left ((hrest fun _ => []).symm.trans (hone fun _ => [])), hkeys⟩
  · rintro ⟨r, rfl, hkeys⟩
    refine ⟨s', r, hcall, hrest, fun fill rs heq => ?_, hkeys⟩
    rw [hrest, ← Resp.encodeAll_singleton] at heq
    exact (Resp.encodeAll_inj (List.append_cancel_left heq)).symm

/-- A reply of a command that leaves the keyspace alone, or nothing if the client is about to be closed. -/
theorem reply_or_nothing {closing : Bool} {r : Resp} (hkeys : s'.keyspace = s.keyspace) :
    (∃ r', (if closing then [] else r.encode) = Resp.encode r' ∧ (r'.isError = true → s'.keyspace = s.keyspace)) ↔
      closing = false := by
  cases closing with
  | false => exact iff_of_true ⟨r, rfl, fun _ => hkeys⟩ rfl
  | true => exact iff_of_false (fun ⟨r', h, _⟩ => encode_ne_nil r' h.symm) nofun

/-- **One reply per command, and errors change nothing.** For every command of the table, with any arguments that pass
    the arity test and any keyspace: the call queues one reply, and leaves the keyspace unchanged if that is an error,
    exactly if `RepliesOnce` holds; and a call that returns leaves a state for the next one. -/
theorem command_replies (os : Os) (cmd : PrezCommand) (hcmd : cmd ∈ prezCommandTable)
    (harity : arityOk cmd argv.length = true) (h : ExecOk base s argv) {texts : List Bytes}
    (htexts : argv.mapM s.out.heap.text = some texts) :
    (OneReply os s cmd argv ↔ RepliesOnce os s cmd argv texts) ∧
      ∀ s', s.call os cmd argv = some s' → ExecOk base s' [] := by
  have hopen : s.out.closeAfterReply = false ↔ (s.out.closeAfterReply = true → False) := by
    cases s.out.closeAfterReply <;> simp
  simp only [prezCommandTable, List.mem_cons, List.not_mem_nil, or_false] at hcmd
  rcases hcmd with rfl | rfl | rfl
  · obtain ⟨s₁, key, text, hproc, -, -, hran, hkeys⟩ := get_runs os h (arityOk_get harity)
    obtain ⟨s', hcall, hran', hkeys'⟩ := call_of_proc getCmd hproc hran
    refine ⟨?_, fun s'' hcall' => Option.some.inj (hcall.symm.trans hcall') ▸ hran'.ok⟩
    rw [oneReply_iff hcall hran'.rest, reply_or_nothing (hkeys'.trans hkeys), hopen]
    constructor
    · exact fun hclose => ⟨fun heq => absurd heq (by decide), fun heq => absurd heq (by decide), fun h => (hclose h).elim⟩
    · exact fun ha hclose => absurd (ha.closing hclose).1 (by decide)
  · obtain ⟨s₁, key, text, val, hproc, -, -, -, hran, -⟩ := set_runs os h (arityOk_set harity)
    obtain ⟨s', hcall, hran', -⟩ := call_of_proc setCmd hproc hran
    refine ⟨?_, fun s'' hcall' => Option.some.inj (hcall.symm.trans hcall') ▸ hran'.ok⟩
    rw [oneReply_iff hcall hran'.rest]
    constructor
    · rintro ⟨r, hr, -⟩
      split at hr
      · exact absurd hr.symm (encode_ne_nil r)
      · rename_i hclose
        rw [← Resp.encodeAll_singleton] at hr
        have hone := Resp.encodeAll_inj hr
        refine ⟨fun _ => ?_, fun heq => absurd heq (by decide), fun h => absurd h hclose⟩
        by_contra h3
        rw [setResps, if_neg h3] at hone
        cases hone
    · intro ha
      have hclose : ¬ s.out.closeAfterReply = true := fun hclose => absurd (ha.closing hclose).1 (by decide)
      refine ⟨okResp, ?_, fun herr => by cases herr⟩
      rw [if_neg hclose, setResps, if_pos (ha.set rfl), Resp.encodeAll_singleton]
  · have hargc := arityOk_config harity
    by_cases hends : ConfigEnds os s.config texts
    · obtain ⟨s₁, r, hproc, hran, hkeys⟩ := config_runs h hargc htexts hends
      obtain ⟨s', hcall, hran', hkeys'⟩ := call_of_proc configCmd hproc hran
      refine ⟨?_, fun s'' hcall' => Option.some.inj (hcall.symm.trans hcall') ▸ hran'.ok⟩
      rw [oneReply_iff hcall hran'.rest]
      constructor
      · rintro ⟨r', hr, -⟩
        refine ⟨fun heq => absurd heq (by decide), fun _ => hends, fun hclose => ⟨rfl, ?_⟩⟩
        rw [if_pos hclose] at hr
        exact (closingText_encode.mp hr).1
      · intro ha
        by_cases hclose : s.out.closeAfterReply = true
        · rw [if_pos hclose]
          exact ⟨.multi [], closingText_encode.mpr ⟨(ha.closing hclose).2, rfl⟩, fun herr => by cases herr⟩
        · rw [if_neg hclose]
          exact ⟨r, rfl, fun _ => hkeys'.trans hkeys⟩
    · have hnone : s.call os configCmd argv = none := by
        cases hproc : s.proc os argv configCmd.proc with
        | none => rw [Exec.call, hproc, Option.bind_none]
        | some s' => exact absurd (configEnds_of_proc hproc htexts) hends
      refine ⟨iff_of_false ?_ fun ha => hends (ha.config rfl), fun s' hcall => ?_⟩
      · rintro ⟨s', r, hcall, -⟩
        rw [hnone] at hcall
        cases hcall
      · rw [hnone] at hcall
        cases hcall

/-- `config get h*`. -/
def configGetH : List Bytes := [ascii "config", ascii "get", ascii "h*"]

/-- A system that grants what is asked for. -/
def freeOs : Os := ⟨some 1024, fun _ => true, 7, fun _ => true⟩

/-- On a new server it is answered by one reply. -/
theorem command_replies_config :
    OneReply freeOs (Exec.start initServerConfig configGetH) configCmd (requestIds configGetH) := by
  have htexts : (requestIds configGetH).mapM (requestHeap configGetH).text = some configGetH := by decide +kernel
  have hends : ConfigEnds freeOs initServerConfig configGetH := by
    have hmatch : ∀ f ∈ configFields initServerConfig, (stringmatch (ascii "h*") f.1 false).isSome = true := by
      decide +kernel
    refine ⟨fun cmd sub pattern heq _ => ?_, nofun⟩
    cases heq
    exact hmatch
  have hstart : ExecOk sharedRefs (.start initServerConfig configGetH) (requestIds configGetH) :=
    start_ok (by decide) initServerConfig_ok
  exact (command_replies freeOs configCmd (by decide) (by decide) hstart htexts).1.mpr
    ⟨fun heq => absurd heq (by decide), fun _ => hends, nofun⟩

/-- `set k v x`. -/
def setFour : List Bytes := [ascii "set", ascii "k", ascii "v", ascii "x"]

/-- A `set` with four arguments passes the arity test, replies with an error and a status, and stores the value. -/
theorem set_replies_twice :
    ExecOk sharedRefs (.start initServerConfig setFour) (requestIds setFour) ∧
      arityOk setCmd (requestIds setFour).length = true ∧
      ∃ s', (Exec.start initServerConfig setFour).call freeOs setCmd (requestIds setFour) = some s' ∧
        s'.out.rest (fun _ => []) = ascii "-ERR syntax error\r\n+OK\r\n" ∧
        (∀ r : Resp, s'.out.rest (fun _ => []) ≠ r.encode) ∧
        (Exec.start initServerConfig setFour).keyspace (ascii "k") = none ∧
        s'.keyspace (ascii "k") = some (.string, some (.raw (ascii "v"))) := by
  have hrun : ((Exec.start initServerConfig setFour).call freeOs setCmd (requestIds setFour)).map
      (fun s' => (s'.out.rest (fun _ => []), s'.keyspace (ascii "k"))) =
        some (ascii "-ERR syntax error\r\n+OK\r\n", some (.string, some (.raw (ascii "v")))) := by decide +kernel
  obtain ⟨s', hcall, hpair⟩ := Option.map_eq_some_iff.mp hrun
  obtain ⟨hrest, hkey⟩ := Prod.mk.inj hpair
  refine ⟨start_ok (by decide) initServerConfig_ok, by decide, s', hcall, hrest, fun r hr => ?_, rfl, hkey⟩
  have htwo : Resp.encodeAll [r] = Resp.encodeAll [syntaxResp, okResp] := by
    rw [Resp.encodeAll_singleton, ← hr, hrest]
    rfl
  cases Resp.encodeAll_inj htwo

/-! ## Against the server -/

/-- The keyspace as `Prez.Server` has it: the texts of the values. -/
def Exec.texts (s : Exec) : Keyspace := fun key => (s.keyspace key).bind fun v => v.2.map ObjValue.payload

theorem mapM_cons_some {f : Nat → Option Bytes} {ids : List Nat} {texts : List Bytes}
    (h : (id :: ids).mapM f = some texts) : ∃ t ts, texts = t :: ts ∧ f id = some t ∧ ids.mapM f = some ts := by
  rw [List.mapM_cons] at h
  obtain ⟨t, ht, h⟩ := Option.bind_eq_some_iff.mp h
  obtain ⟨ts, hts, h⟩ := Option.bind_eq_some_iff.mp h
  exact ⟨t, ts, (Option.some.inj h).symm, ht, hts⟩

/-- The reply to `GET` is the one the server model gives. -/
theorem getResp_server (h : ExecOk base s argv) (hstrings : ∀ e ∈ s.db, e.2.type = .string) (key : Bytes) :
    (s.getResp key).encode = (s.texts key).elim (ascii "$-1\r\n") bulkReply := by
  unfold Exec.texts Exec.keyspace
  cases hv : s.db.lookupKey key with
  | none =>
    rw [getResp_none hv]
    rfl
  | some v =>
    obtain ⟨e, he, rfl⟩ := lookupKey_mem hv
    obtain ⟨o, ho, -⟩ := h.values e he (hstrings e he)
    rw [getResp_string hv (hstrings e he) ho, Option.map_some, ho]
    show bulkString o.payload = bulkReply o.payload
    unfold bulkString bulkReply
    simp only [List.append_assoc]
    rfl

/-- So is the reply to `SET`. -/
theorem setResps_server (argc : Nat) :
    Resp.encodeAll (setResps argc) =
      ((if argc ≠ 3 then [ascii "-ERR syntax error\r\n"] else []) ++ [ascii "+OK\r\n"]).flatten := by
  unfold setResps
  by_cases h3 : argc = 3
  · rw [if_pos h3, if_neg (not_not.mpr h3)]
    rfl
  · rw [if_neg h3, if_pos h3]
    rfl

/-- `get` and `set` do to the queue and to the keyspace what the model of the server says. -/
theorem call_server (os : Os) (h : ExecOk base s argv) (hopen : s.out.closeAfterReply = false) {cmd : PrezCommand}
    (hcmd : cmd = getCmd ∨ cmd = setCmd) (harity : arityOk cmd argv.length = true)
    (hstrings : ∀ e ∈ s.db, e.2.type = .string) {texts : List Bytes} (htexts : argv.mapM s.out.heap.text = some texts) :
    ∃ s', s.call os cmd argv = some s' ∧
      (∀ fill, s'.out.rest fill = s.out.rest fill ++ (replies s.texts cmd.proc texts).flatten) ∧
      s'.texts = execute s.texts cmd.proc texts := by
  have hlen : texts.length = argv.length := by
    obtain ⟨texts', htexts', hlen, -⟩ := h.texts
    rw [htexts] at htexts'
    cases htexts'
    exact hlen
  rcases hcmd with rfl | rfl
  · have hargc := arityOk_get harity
    obtain ⟨s₁, key, text, hproc, hkey?, htext, hran, hkeys⟩ := get_runs os h hargc
    obtain ⟨s', hcall, hran', hkeys'⟩ := call_of_proc getCmd hproc hran
    obtain ⟨name, key', rfl⟩ := List.length_eq_two.mp hargc
    cases hkey?
    obtain ⟨t, ts, rfl, -, hts⟩ := mapM_cons_some htexts
    obtain ⟨t', ts', rfl, ht', -⟩ := mapM_cons_some hts
    rw [htext] at ht'
    cases ht'
    refine ⟨s', hcall, fun fill => ?_, ?_⟩
    · rw [hran'.rest, hopen, if_neg Bool.false_ne_true, getResp_server h hstrings]
      show _ = _ ++ [_].flatten
      rw [List.flatten_singleton]
    · unfold Exec.texts
      rw [hkeys', hkeys]
      rfl
  · have hargc := arityOk_set harity
    obtain ⟨s₁, key, text, val, hproc, hkey?, htext, hval?, hran, hkeys⟩ := set_runs os h hargc
    obtain ⟨s', hcall, hran', hkeys'⟩ := call_of_proc setCmd hproc hran
    obtain ⟨name, key', val', more, rfl⟩ := exists_three hargc
    cases hkey?
    cases hval?
    obtain ⟨t, ts, rfl, -, hts⟩ := mapM_cons_some htexts
    obtain ⟨t', ts', rfl, ht', hts'⟩ := mapM_cons_some hts
    obtain ⟨tv, more', rfl, htv, -⟩ := mapM_cons_some hts'
    rw [htext] at ht'
    cases ht'
    refine ⟨s', hcall, fun fill => ?_, ?_⟩
    · rw [hran'.rest, hopen, if_neg Bool.false_ne_true, setResps_server, ← hlen]
      rfl
    · obtain ⟨v, hv, hpay, -⟩ := value_of_text htv
      have hset : execute s.texts setCmd.proc (t :: text :: tv :: more') = Function.update s.texts text (some tv) := rfl
      rw [hset]
      funext k
      unfold Exec.texts
      rw [hkeys', hkeys]
      by_cases hk : k = text
      · rw [hk, Function.update_self, Function.update_self, hv, ← hpay]
        rfl
      · rw [Function.update_of_ne hk, Function.update_of_ne hk]

end

theorem call_server_set : ∃ s', (Exec.start initServerConfig setFour).call freeOs setCmd (requestIds setFour) = some s' ∧
    s'.texts = execute (Exec.start initServerConfig setFour).texts setCmd.proc setFour := by
  have h : (requestIds setFour).mapM (requestHeap setFour).text = some setFour := by decide +kernel
  obtain ⟨s', hcall, -, hs⟩ := call_server freeOs (@start_ok _ setFour (by decide) initServerConfig_ok) rfl (.inr rfl)
    (by decide) nofun h
  exact ⟨s', hcall, hs⟩

end Prez
