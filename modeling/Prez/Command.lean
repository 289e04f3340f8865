import Prez.Lib.Bytes

/-!
# `Prez.Command` — the command table

The three commands of `prezCommandTable` and their lookup. The table is a hash table of four buckets keyed
by the whole name and compared with `strcasecmp`, so a name with a NUL inside is found exactly when its
hash falls into the bucket of the command it spells.
-/

namespace Prez

open Lib

/-- The functions behind the table. -/
inductive Proc where
  | get
  | set
  | config
deriving DecidableEq

/-- `struct prezCommand`: name, arity and whether the flag `w` is set. -/
structure PrezCommand where
  proc : Proc
  name : Bytes
  arity : Int
  write : Bool
deriving DecidableEq

/-- `get`, arity 2, `r`. -/
def getCmd : PrezCommand := ⟨.get, [103, 101, 116], 2, false⟩

/-- `set`, arity -3, `w`. -/
def setCmd : PrezCommand := ⟨.set, [115, 101, 116], -3, true⟩

/-- `config`, arity -2, `art`. -/
def configCmd : PrezCommand := ⟨.config, [99, 111, 110, 102, 105, 103], -2, false⟩

def prezCommandTable : List PrezCommand := [getCmd, setCmd, configCmd]

/-- `dictGenCaseHashFunction`: the hash times 33 plus the lower-cased byte, in 32 bits. -/
def caseHash (b : Bytes) : UInt32 := b.foldl (fun h c => h * 33 + (toLower c).toUInt32) 5381

/-- The bucket of a name; the table has the initial size of four. -/
def bucket (b : Bytes) : UInt32 := caseHash b &&& 3

/-- `lookupCommand(name)`. -/
def lookupCommand (name : Bytes) : Option PrezCommand :=
  prezCommandTable.find? fun cmd => bucket name == bucket cmd.name && strcaseEq name cmd.name

/-- The arity test of `processCommand` and `logApply`. -/
def arityOk (cmd : PrezCommand) (argc : Nat) : Bool :=
  !((0 < cmd.arity && cmd.arity != argc) || (argc : Int) < -cmd.arity)

/-- The command of a request that passes the name and arity tests. -/
def checkCommand (argv : List Bytes) : Option PrezCommand :=
  match argv with
  | [] => none
  | name :: _ => (lookupCommand name).filter fun cmd => arityOk cmd argv.length

/-- A write command that `processCommand` admits. -/
def isWrite (argv : List Bytes) : Bool := (checkCommand argv).any fun cmd => cmd.write

theorem checkCommand_eq {argv : List Bytes} (hne : argv ≠ []) : checkCommand argv =
    (lookupCommand (argv.head?.getD [])).filter fun cmd => arityOk cmd argv.length := by
  cases argv with
  | nil => exact absurd rfl hne
  | cons name args => rfl

theorem lookupCommand_mem {name : Bytes} {cmd : PrezCommand} (h : lookupCommand name = some cmd) :
    cmd = getCmd ∨ cmd = setCmd ∨ cmd = configCmd := by
  have := List.mem_of_find?_eq_some h
  simpa [prezCommandTable] using this

end Prez
