import Prez.Dict.Map
import Prez.Command

/-!
# `Prez.Dict.Keys` — the dict types of the server

The key space, the table of nodes and the table of waiting clients compare their keys byte by byte and hash all of them with
`dictGenHashFunction`. The command table compares with `strcasecmp`, which stops at a NUL, and hashes all bytes without regard
to case with `dictGenCaseHashFunction`. So there a key with a NUL inside is equal to others that hash differently
(`exists_equal_key`). For keys without one the hash respects the comparison, and a table of such keys is a finite map whatever
its size.

An `sds` keeps its length in an `int`, so a key is shorter than 2³¹ bytes. The blocks of four bytes are read as on a
little-endian machine. The seed is the one of `dictSetHashFunctionSeed`.
-/

namespace Prez

open Lib

/-! ## Hash functions -/

/-- The mixing constant `m` of `dictGenHashFunction`. -/
def hashMul : UInt32 := 0x5bd1e995

/-- `*(uint32_t*)data`. -/
def word32 (a b c d : UInt8) : UInt32 := a.toUInt32 ||| b.toUInt32 <<< 8 ||| c.toUInt32 <<< 16 ||| d.toUInt32 <<< 24

/-- One turn of the loop of `dictGenHashFunction`. -/
def hashBlock (h k : UInt32) : UInt32 :=
  let k := k * hashMul
  let k := k ^^^ (k >>> 24)
  let k := k * hashMul
  (h * hashMul) ^^^ k

/-- The loop, and the `switch` over the bytes that are left. Its cases fall through. -/
def hashBlocks : UInt32 → Bytes → UInt32
  | h, a :: b :: c :: d :: data => hashBlocks (hashBlock h (word32 a b c d)) data
  | h, [a, b, c] => (h ^^^ c.toUInt32 <<< 16 ^^^ b.toUInt32 <<< 8 ^^^ a.toUInt32) * hashMul
  | h, [a, b] => (h ^^^ b.toUInt32 <<< 8 ^^^ a.toUInt32) * hashMul
  | h, [a] => (h ^^^ a.toUInt32) * hashMul
  | h, [] => h

/-- `dictGenHashFunction(key, len)` on all of a key. -/
def dictGenHashFunction (seed : UInt32) (key : Bytes) : UInt32 :=
  let h := hashBlocks (seed ^^^ UInt32.ofNat key.length) key
  let h := h ^^^ (h >>> 13)
  let h := h * hashMul
  h ^^^ (h >>> 15)

/-- `dictGenCaseHashFunction(buf, len)` on all of a key. -/
def dictGenCaseHashFunction (seed : UInt32) (buf : Bytes) : UInt32 :=
  buf.foldl (fun hash c => ((hash <<< (5 : UInt32)) + hash) + (toLower c).toUInt32) seed

/-! ## Dict types -/

/-- An `sds` that is used as a key. -/
structure SdsKey where
  bytes : Bytes
  len_lt : bytes.length < 2 ^ 31
deriving DecidableEq

/-- `dictSdsKeyCompare`: the lengths, and `memcmp` over that length. -/
def dictSdsKeyCompare (key1 key2 : SdsKey) : Bool :=
  let l1 := key1.bytes.length
  let l2 := key2.bytes.length
  if l1 ≠ l2 then false else key1.bytes.take l1 == key2.bytes.take l1

/-- `dictSdsKeyCaseCompare`. -/
def dictSdsKeyCaseCompare (key1 key2 : SdsKey) : Bool := strcaseEq key1.bytes key2.bytes

/-- `dictSdsHash`. -/
def dictSdsHash (seed : UInt32) (key : SdsKey) : UInt32 := dictGenHashFunction seed key.bytes

/-- `dictSdsCaseHash`. -/
def dictSdsCaseHash (seed : UInt32) (key : SdsKey) : UInt32 := dictGenCaseHashFunction seed key.bytes

/-- The tables of the server: `server.db[j].dict`, `server.cluster->nodes`, `server.cluster->proc_clients` and
    `server.commands`. -/
inductive ServerDict where
  | db
  | clusterNodes
  | clusterProcClients
  | commandTable
deriving DecidableEq

/-- `dbDictType`, `clusterNodesDictType`, `clusterProcClientsDictType`, `commandTableDictType`. -/
def ServerDict.dictType (seed : UInt32) : ServerDict → DictType SdsKey
  | .db | .clusterNodes | .clusterProcClients => ⟨dictSdsHash seed, dictSdsKeyCompare⟩
  | .commandTable => ⟨dictSdsCaseHash seed, dictSdsKeyCaseCompare⟩

/-- The keys that the hash is right for: names of commands have no NUL inside. -/
def ServerDict.Plain (t : ServerDict) (key : SdsKey) : Prop := t = .commandTable → (0 : UInt8) ∉ key.bytes

/-- The type of a table with such keys only. -/
def ServerDict.plainType (seed : UInt32) (t : ServerDict) : DictType {key : SdsKey // t.Plain key} :=
  ⟨fun key => (t.dictType seed).hashFunction key.1, fun a b => (t.dictType seed).keyCompare a.1 b.1⟩

/-! ## Comparisons -/

theorem dictSdsKeyCompare_iff (a b : SdsKey) : dictSdsKeyCompare a b = true ↔ a = b := by
  unfold dictSdsKeyCompare
  dsimp only
  constructor
  · intro h
    split at h
    · cases h
    · rename_i hlen
      rw [ne_eq, not_not] at hlen
      rw [beq_iff_eq, List.take_length, hlen, List.take_length] at h
      obtain ⟨a, ha⟩ := a
      obtain ⟨b, hb⟩ := b
      cases h
      rfl
  · rintro rfl
    rw [if_neg (not_not.mpr rfl)]
    exact beq_self_eq_true _

theorem keyEq_of_iff_eq {K : Type} {eq : K → K → Bool} (h : ∀ a b, eq a b = true ↔ a = b) : KeyEq eq where
  refl a := (h a a).mpr rfl
  symm hab := (h _ _).mpr ((h _ _).mp hab).symm
  trans hab hbc := (h _ _).mpr (((h _ _).mp hab).trans ((h _ _).mp hbc))

theorem dictSdsKeyCaseCompare_keyEq : KeyEq dictSdsKeyCaseCompare where
  refl _ := beq_self_eq_true _
  symm h := beq_iff_eq.mpr (beq_iff_eq.mp h).symm
  trans h h' := beq_iff_eq.mpr ((beq_iff_eq.mp h).trans (beq_iff_eq.mp h'))

/-- **Every comparison is an equivalence.** -/
theorem ServerDict.keyEq (seed : UInt32) (t : ServerDict) : KeyEq (t.dictType seed).keyCompare := by
  cases t with
  | db | clusterNodes | clusterProcClients => exact keyEq_of_iff_eq dictSdsKeyCompare_iff
  | commandTable => exact dictSdsKeyCaseCompare_keyEq

/-! ## Hashes -/

theorem dictGenCaseHashFunction_append (seed : UInt32) (a b : Bytes) :
    dictGenCaseHashFunction seed (a ++ b) = dictGenCaseHashFunction (dictGenCaseHashFunction seed a) b :=
  List.foldl_append

/-- The case hash sees lower case only. -/
theorem dictGenCaseHashFunction_congr (seed : UInt32) {a b : Bytes} (h : a.map toLower = b.map toLower) :
    dictGenCaseHashFunction seed a = dictGenCaseHashFunction seed b := by
  have hmap : ∀ l : Bytes, dictGenCaseHashFunction seed l =
      (l.map toLower).foldl (fun hash c => ((hash <<< (5 : UInt32)) + hash) + c.toUInt32) seed := by
    intro l
    rw [List.foldl_map]
    rfl
  rw [hmap, hmap, h]

/-- The hash of the command table in `Prez.Command`. -/
theorem caseHash_eq (b : Bytes) : caseHash b = dictGenCaseHashFunction 5381 b := by
  have hshift : ∀ h : UInt32, h * (33 : UInt32) = (h <<< (5 : UInt32)) + h := by
    intro h
    apply UInt32.toNat_inj.mp
    have hpow : 2 ^ ((5 : UInt32).toNat % 32) = 32 := rfl
    have h33 : (33 : UInt32).toNat = 33 := rfl
    rw [UInt32.toNat_mul, UInt32.toNat_add, UInt32.toNat_shiftLeft, Nat.shiftLeft_eq, hpow, h33]
    omega
  unfold caseHash dictGenCaseHashFunction
  simp only [hshift]

/-- **Equal plain keys have equal hashes.** -/
theorem ServerDict.hash_eq (seed : UInt32) (t : ServerDict) {a b : SdsKey} (ha : t.Plain a) (hb : t.Plain b)
    (h : (t.dictType seed).keyCompare a b = true) : (t.dictType seed).hashFunction a = (t.dictType seed).hashFunction b := by
  cases t with
  | db | clusterNodes | clusterProcClients => exact congrArg _ ((dictSdsKeyCompare_iff a b).mp h)
  | commandTable =>
    have hlower := beq_iff_eq.mp h
    rw [cstr_eq_self (ha rfl), cstr_eq_self (hb rfl)] at hlower
    exact dictGenCaseHashFunction_congr seed hlower

theorem ServerDict.plainType_lawful (seed : UInt32) (t : ServerDict) : (t.plainType seed).Lawful where
  keyEq :=
    { refl := fun a => (t.keyEq seed).refl a.1
      symm := (t.keyEq seed).symm
      trans := (t.keyEq seed).trans }
  hash_eq := fun {a b} h => t.hash_eq seed a.2 b.2 h

/-- What stands behind a NUL is not compared, and it is hashed. -/
theorem dictGenCaseHashFunction_tail (seed : UInt32) (p : Bytes) {x y : UInt8}
    (h : dictGenCaseHashFunction seed (p ++ [0, x]) = dictGenCaseHashFunction seed (p ++ [0, y])) :
    (toLower x).toUInt32 = (toLower y).toUInt32 := by
  rw [dictGenCaseHashFunction_append, dictGenCaseHashFunction_append] at h
  exact (UInt32.add_right_inj _).mp h

/-- Beside every key of the command table there is an equal one with another hash. -/
theorem exists_equal_key (seed : UInt32) (a : SdsKey) (hlen : (cstr a.bytes).length + 2 < 2 ^ 31) :
    ∃ b, dictSdsKeyCaseCompare a b = true ∧ dictSdsCaseHash seed a ≠ dictSdsCaseHash seed b := by
  have hkey : ∀ x : UInt8, ∃ b : SdsKey, b.bytes = cstr a.bytes ++ [0, x] :=
    fun x => ⟨⟨cstr a.bytes ++ [0, x], by simpa using hlen⟩, rfl⟩
  have hequal : ∀ {b : SdsKey} {x : UInt8}, b.bytes = cstr a.bytes ++ [0, x] → dictSdsKeyCaseCompare a b = true := by
    intro b x hb
    rw [dictSdsKeyCaseCompare, strcaseEq, hb, cstr_append_nul (zero_notMem_cstr _)]
    exact beq_self_eq_true _
  obtain ⟨b, hb⟩ := hkey 1
  obtain ⟨b', hb'⟩ := hkey 2
  by_cases hhash : dictSdsCaseHash seed a = dictSdsCaseHash seed b
  · refine ⟨b', hequal hb', fun hhash' => ?_⟩
    have hboth := hhash.symm.trans hhash'
    rw [dictSdsCaseHash, dictSdsCaseHash, hb, hb'] at hboth
    exact absurd (dictGenCaseHashFunction_tail seed _ hboth) (by decide)
  · exact ⟨b, hequal hb, hhash⟩

/-- **The hash agrees with the comparison.** For every table of the server the comparison is an equivalence, equal keys have
    the same hash (in the command table: keys without a NUL inside), and so a lookup in a table of such keys gives what the
    calls before have stored, whatever the sizes of its tables. Without the condition every name has an equal one with
    another hash. -/
theorem hash_agrees (seed : UInt32) (t : ServerDict) :
    KeyEq (t.dictType seed).keyCompare ∧
    (∀ a b, t.Plain a → t.Plain b → (t.dictType seed).keyCompare a b = true →
      (t.dictType seed).hashFunction a = (t.dictType seed).hashFunction b) ∧
    (∀ (V : Type) (d : Dict {key : SdsKey // t.Plain key} V) (m : {key : SdsKey // t.Plain key} → Option V),
      DictRun (t.plainType seed) d m → ∀ key, ∃ d' o, dictFind (t.plainType seed) d key = some (d', o) ∧
        o.map (fun r => r.2.2) = m key) ∧
    (t = .commandTable → ∀ a : SdsKey, (cstr a.bytes).length + 2 < 2 ^ 31 →
      ∃ b, (t.dictType seed).keyCompare a b = true ∧
        (t.dictType seed).hashFunction a ≠ (t.dictType seed).hashFunction b) := by
  refine ⟨t.keyEq seed, fun a b ha hb h => t.hash_eq seed ha hb h, fun V d m hr key => ?_, ?_⟩
  · obtain ⟨hw, rfl⟩ := hr.inv (t.plainType_lawful seed)
    obtain ⟨d', o, hfind, -, hval, -⟩ := dictFind_spec (t.plainType_lawful seed) hw key
    exact ⟨d', o, hfind, hval⟩
  · rintro rfl a hlen
    exact exists_equal_key seed a hlen

/-- `get`, in small letters, in capitals, and with a NUL and a letter behind it. -/
def getKey : SdsKey := ⟨[103, 101, 116], by decide⟩

def capitalGetKey : SdsKey := ⟨[71, 69, 84], by decide⟩

def longGetKey : SdsKey := ⟨[103, 101, 116, 0, 97], by decide⟩

/-- The hypotheses at work: a command in two spellings. -/
theorem hash_agrees_get : dictSdsCaseHash 5381 getKey = dictSdsCaseHash 5381 capitalGetKey :=
  (hash_agrees 5381 .commandTable).2.1 getKey capitalGetKey (fun _ => by decide) (fun _ => by decide) (by decide)

/-- Equal names with different hashes, in different buckets of the table of four. -/
theorem hash_of_equal_names :
    dictSdsKeyCaseCompare getKey longGetKey = true ∧
      dictSdsCaseHash 5381 getKey &&& 3 ≠ dictSdsCaseHash 5381 longGetKey &&& 3 := by
  decide

end Prez
