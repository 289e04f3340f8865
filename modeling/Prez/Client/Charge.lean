import Prez.Client.Account

/-!
# `Prez.Client.Charge` — `reply_bytes` is the memory of the reply list

The counter is compared with the sum over the list (`charge`). What a function may touch is one object: the blocks and the
values of the other nodes stay, so that the sum changes by what the function adds and subtracts. Objects that others hold
are not touched at all: the last object of the list is duplicated before it grows if anybody else refers to it.

The other part of the account, the flags, changes only in a check (`Checked`, `SameFlags`).
-/

namespace Prez

open Lib

namespace Account

variable {env : MemoryEnv} {outer : Nat → Nat} {o o' : Output} {a a' : Account}

/-- The memory of the objects of a list, as the counter has it. -/
def charge (env : MemoryEnv) (h : Heap) (a : Account) (l : List Nat) : UInt64 :=
  l.foldr (fun id n => a.getStringObjectSdsUsedMemory env h id + n) 0

/-- The counter is right. -/
def Charged (env : MemoryEnv) (o : Output) (a : Account) : Prop := a.replyBytes = a.charge env o.heap o.reply

/-! ## Sums -/

theorem charge_nil (h : Heap) (a : Account) : a.charge env h [] = 0 := rfl

theorem charge_cons (h : Heap) (a : Account) (id : Nat) (l : List Nat) :
    a.charge env h (id :: l) = a.getStringObjectSdsUsedMemory env h id + a.charge env h l := rfl

theorem charge_append (h : Heap) (a : Account) (l r : List Nat) :
    a.charge env h (l ++ r) = a.charge env h l + a.charge env h r := by
  induction l with
  | nil => rw [List.nil_append, charge_nil, UInt64.zero_add]
  | cons id l ih => rw [List.cons_append, charge_cons, charge_cons, ih, UInt64.add_assoc]

theorem charge_concat (h : Heap) (a : Account) (l : List Nat) (id : Nat) :
    a.charge env h (l ++ [id]) = a.charge env h l + a.getStringObjectSdsUsedMemory env h id := by
  rw [charge_append, charge_cons, charge_nil, UInt64.add_zero]

/-- The memory of an object depends on its value and its block. -/
theorem charge_congr {h h' : Heap} {l : List Nat} (hvalue : ∀ k ∈ l, h'.value k = h.value k)
    (hblock : ∀ k ∈ l, a'.block k = a.block k) : a'.charge env h' l = a.charge env h l := by
  induction l with
  | nil => rfl
  | cons k l ih =>
    obtain ⟨hv, hvs⟩ := List.forall_mem_cons.mp hvalue
    obtain ⟨hb, hbs⟩ := List.forall_mem_cons.mp hblock
    have hused : a'.getStringObjectSdsUsedMemory env h' k = a.getStringObjectSdsUsedMemory env h k := by
      unfold getStringObjectSdsUsedMemory zmallocSizeSds
      rw [hv, hb]
    rw [charge_cons, charge_cons, hused, ih hvs hbs]

variable {s : Bytes} {id : Nat} {h' : Heap} {h : Heap}

theorem used_raw (hv : h.value id = some (.raw s)) :
    a.getStringObjectSdsUsedMemory env h id = a.zmallocSizeSds env id := by
  rw [getStringObjectSdsUsedMemory, hv]

theorem used_embstr (hv : h.value id = some (.embstr s)) :
    a.getStringObjectSdsUsedMemory env h id = UInt64.ofNat s.length := by
  rw [getStringObjectSdsUsedMemory, hv]

theorem used_null (hv : h.value id = some .null) : a.getStringObjectSdsUsedMemory env h id = 0 := by
  rw [getStringObjectSdsUsedMemory, hv]

/-! ## Blocks -/

theorem sdsnew_block_of_ne (a : Account) {id k : Nat} (free : Nat) (hk : k ≠ id) : (a.sdsnew id free).block k = a.block k :=
  Function.update_of_ne hk _ _

theorem sdscatlen_block_of_ne (a : Account) {id k : Nat} (s t : Bytes) (hk : k ≠ id) :
    (a.sdscatlen id s t).block k = a.block k := by
  unfold sdscatlen
  split
  · exact Function.update_of_ne hk _ _
  · exact sdsnew_block_of_ne a _ hk

theorem sdscatlen_meter (a : Account) (id : Nat) (s t : Bytes) : (a.sdscatlen id s t).toMeter = a.toMeter := by
  unfold sdscatlen
  split <;> rfl

/-- `dupLastObjectIfNeeded` returns the object of the model and touches only its block. -/
theorem dupLastObjectIfNeeded_id {o₁ : Output} {tail id : Nat} (hlast : o.reply.getLast? = some tail)
    (h : o.dupLastObjectIfNeeded = some (o₁, id)) : (a.dupLastObjectIfNeeded o tail).2 = id := by
  rw [Output.dupLastObjectIfNeeded, hlast, Option.bind_some] at h
  unfold dupLastObjectIfNeeded
  cases hr : o.heap.objs tail with
  | none =>
    rw [hr] at h
    cases h
  | some r =>
    rw [hr, Option.bind_some] at h
    dsimp only
    split at h
    · rename_i hshared
      rw [if_pos hshared]
      obtain ⟨heap, -, heq⟩ := Option.map_eq_some_iff.mp h
      cases heq
      rfl
    · rename_i hone
      rw [if_neg hone]
      cases h
      rfl

theorem dupLastObjectIfNeeded_block (o : Output) (a : Account) (tail : Nat) {k : Nat}
    (hk : k ≠ (a.dupLastObjectIfNeeded o tail).2) : (a.dupLastObjectIfNeeded o tail).1.block k = a.block k := by
  revert hk
  unfold dupLastObjectIfNeeded
  split
  · split
    · exact sdsnew_block_of_ne a 0
    · exact fun _ => rfl
  · exact fun _ => rfl

theorem dupLastObjectIfNeeded_meter (o : Output) (a : Account) (tail : Nat) :
    (a.dupLastObjectIfNeeded o tail).1.toMeter = a.toMeter := by
  unfold dupLastObjectIfNeeded
  split
  · split <;> rfl
  · rfl

/-! ## Replies -/

/-- A new node at the end of the list. -/
theorem addNode_charged (hc : Charged env o a) (hbytes : a'.replyBytes = a.replyBytes)
    (hblock : ∀ k ∈ o.reply, a'.block k = a.block k) (hvalue : ∀ k ∈ o.reply, h'.value k = o.heap.value k) :
    Charged env { o with heap := h', reply := o.reply ++ [id] } (a'.add (a'.getStringObjectSdsUsedMemory env h' id)) := by
  show a'.replyBytes + _ = charge env h' a' (o.reply ++ [id])
  rw [charge_concat, charge_congr hvalue hblock, hbytes, hc]

/-- One node gives way to another one: what was added for the first is subtracted, what the second uses is added. -/
theorem replaceLast_charged (hc : Charged env o a) {init : List Nat} {tail id : Nat} {u : Bytes}
    (hreply : o.reply = init ++ [tail]) (hself : h'.value id = some (.raw u))
    (hvalue : ∀ k ∈ init, h'.value k = o.heap.value k) (hblock : ∀ k ∈ init, a'.block k = a.block k)
    (hbytes : a'.replyBytes = a.replyBytes - a.getStringObjectSdsUsedMemory env o.heap tail) :
    Charged env { o with heap := h', reply := init ++ [id] } (a'.add (a'.zmallocSizeSds env id)) := by
  show a'.replyBytes + _ = charge env h' a' (init ++ [id])
  rw [Charged, hreply, charge_concat] at hc
  rw [charge_concat, charge_congr hvalue hblock, used_raw hself, hbytes, hc, UInt64.add_sub_cancel]

/-- **The functions that add to the list.** -/
theorem addToList_charged (hw : OutputOk outer o) (hc : Charged env o a) {node : Heap → Option (Heap × Nat)}
    {mem : Account → Account × UInt64}
    (hnode : ∀ h' id, node o.heap = some (h', id) → (∀ k ∈ o.reply, h'.value k = o.heap.value k) ∧
      (mem a).1.replyBytes = a.replyBytes ∧ (∀ k ∈ o.reply, (mem a).1.block k = a.block k) ∧
      (mem a).2 = (mem a).1.getStringObjectSdsUsedMemory env h' id) (h : o.addToList s node = some o') :
    Charged env o' (addToList env o s mem a) := by
  have hadd : ∀ o', ((node o.heap).map fun r => { o with heap := r.1, reply := o.reply ++ [r.2] }) = some o' →
      Charged env o' ((mem a).1.add (mem a).2) := by
    intro o' h
    obtain ⟨⟨h', id⟩, hmake, rfl⟩ := Option.map_eq_some_iff.mp h
    obtain ⟨hvalue, hbytes, hblock, hmem⟩ := hnode h' id hmake
    rw [hmem]
    exact addNode_charged hc hbytes hblock hvalue
  unfold Output.addToList at h
  unfold addToList
  dsimp only at h ⊢
  split at h
  · rename_i hclose
    rw [if_pos hclose]
    cases h
    exact hc
  rename_i hopen
  rw [if_neg hopen]
  cases hlast : o.reply.getLast? with
  | none =>
    rw [hlast] at h
    exact hadd o' h
  | some tail =>
    rw [hlast] at h
    obtain ⟨init, hreply⟩ := List.getLast?_eq_some_iff.mp hlast
    dsimp only at h ⊢
    cases hv : o.heap.value tail with
    | none =>
      rw [hv] at h
      cases h
    | some v =>
      rw [hv] at h
      cases v with
      | null => exact hadd o' h
      | embstr t => exact hadd o' h
      | int n => exact hadd o' h
      | raw t =>
        dsimp only at h ⊢
        by_cases hroom : t.length + s.length ≤ replyChunkBytes
        · rw [if_pos hroom] at h ⊢
          obtain ⟨h₁, id, hdup, hok, hnot, -, hkeep⟩ := dupLastObjectIfNeeded_spec hw hreply
          rw [hdup, Option.bind_some] at h
          obtain ⟨h₂, hset, rfl⟩ := Option.map_eq_some_iff.mp h
          have hid : id ∈ init ++ [id] := List.mem_append_right _ (List.mem_singleton_self _)
          obtain ⟨h₂', hset', -, hself, hother⟩ := hok.setRaw (refs_pos_of_mem outer hid) (t ++ s)
          cases hset'.symm.trans hset
          have hne : ∀ k ∈ init, k ≠ id := fun k hk heq => hnot (heq ▸ hk)
          rw [dupLastObjectIfNeeded_id hlast hdup]
          refine replaceLast_charged hc hreply hself (fun k hk => ?_) (fun k hk => ?_) ?_
          · rw [hother k (hne k hk), hkeep k (hne k hk) (refs_pos_of_mem outer (List.mem_append_left _ hk))]
          · rw [sdscatlen_block_of_ne _ _ _ (hne k hk)]
            refine dupLastObjectIfNeeded_block o _ tail ?_
            rw [dupLastObjectIfNeeded_id hlast hdup]
            exact hne k hk
          · rw [sdscatlen_meter, dupLastObjectIfNeeded_meter, used_raw hv]
            rfl
        · rw [if_neg hroom] at h ⊢
          exact hadd o' h

theorem addReplyObjectToList_charged (hw : OutputOk outer o) (hc : Charged env o a) (hid : 0 < outer id)
    (h : o.addReplyObjectToList id s = some o') : Charged env o' (addReplyObjectToList env o id s a) := by
  refine addToList_charged hw hc (fun h' k hmake => ?_) h
  obtain ⟨h₁, hincr, -, hvalue⟩ := hw.heap.incr (refs_pos_of_outer _ hid) (hw.held id hid)
  rw [hincr, Option.map_some] at hmake
  cases hmake
  refine ⟨fun k _ => hvalue k, rfl, fun _ _ => rfl, ?_⟩
  unfold getStringObjectSdsUsedMemory
  rw [hvalue id]

/-- A new object has an address of its own. -/
theorem nextObj_ne (hw : OutputOk outer o) : ∀ k ∈ o.reply, k ≠ o.heap.nextObj :=
  fun _ hk => (hw.heap.lt (refs_pos_of_mem outer hk)).ne

/-- A new string is charged for its block. -/
theorem addReplySdsToList_charged (hw : OutputOk outer o) (hc : Charged env o a) (free : Nat)
    (h : o.addReplySdsToList s = some o') : Charged env o' (addReplySdsToList env o s free a) := by
  refine addToList_charged hw hc (fun h' id hmake => ?_) h
  obtain ⟨-, hnew, hkeep⟩ := hw.heap.create (.raw s)
  cases hmake
  exact ⟨fun k hk => hkeep k (refs_pos_of_mem outer hk), rfl,
    fun k hk => sdsnew_block_of_ne a free (nextObj_ne hw k hk), (used_raw hnew).symm⟩

theorem addReplyStringToList_charged (hw : OutputOk outer o) (hc : Charged env o a)
    (h : o.addReplyStringToList s = some o') : Charged env o' (addReplyStringToList env o s a) := by
  refine addToList_charged hw hc (fun h' id hmake => ?_) h
  unfold Heap.createStringObject at hmake
  split at hmake
  · obtain ⟨-, hnew, hkeep⟩ := hw.heap.create (if s.length ≤ 39 then .embstr s else .raw s)
    cases hmake
    refine ⟨fun k hk => hkeep k (refs_pos_of_mem outer hk), ?_⟩
    split
    · rename_i hshort
      rw [if_pos hshort] at hnew
      exact ⟨rfl, fun _ _ => rfl, (used_embstr hnew).symm⟩
    · rename_i hlong
      rw [if_neg hlong] at hnew
      exact ⟨rfl, fun k hk => sdsnew_block_of_ne a 0 (nextObj_ne hw k hk), (used_raw hnew).symm⟩
  · cases hmake

/-- The check updates the time and nothing else. -/
theorem check_time (limits : BufferLimits) (unixtime len : Nat) (a : Meter) :
    ∃ t, (a.checkClientOutputBufferLimits limits unixtime len).1 = { a with softLimitReachedTime := t } := by
  unfold Meter.checkClientOutputBufferLimits
  dsimp only
  split
  · split
    · exact ⟨unixtime, rfl⟩
    · split <;> exact ⟨a.softLimitReachedTime, rfl⟩
  · exact ⟨0, rfl⟩

/-- The check of the limits charges nothing. -/
theorem asyncClose_bytes (limits : BufferLimits) (unixtime len : Nat) (a : Meter) :
    (a.asyncCloseClientOnOutputBufferLimitReached limits unixtime len).replyBytes = a.replyBytes := by
  obtain ⟨t, ht⟩ := check_time limits unixtime len a
  unfold Meter.asyncCloseClientOnOutputBufferLimitReached
  split
  · rfl
  split
  · rfl
  dsimp only
  rw [ht]
  split <;> rfl

theorem asyncClose_charged (hc : Charged env o a) (unixtime len : Nat) : Charged env o (a.asyncClose env unixtime len) := by
  show (a.asyncClose env unixtime len).replyBytes = a.charge env o.heap o.reply
  rw [← hc]
  exact asyncClose_bytes env.limits unixtime len a.toMeter

/-- The buffer is not part of the list. -/
theorem addReplyToBuffer_list (o : Output) (s : Bytes) :
    (o.addReplyToBuffer s).1.heap = o.heap ∧ (o.addReplyToBuffer s).1.reply = o.reply ∧
      ((o.addReplyToBuffer s).2 = false → (o.addReplyToBuffer s).1 = o) := by
  unfold Output.addReplyToBuffer
  split
  · exact ⟨rfl, rfl, fun _ => rfl⟩
  split
  · exact ⟨rfl, rfl, fun _ => rfl⟩
  split
  · exact ⟨rfl, rfl, fun _ => rfl⟩
  · exact ⟨rfl, rfl, fun h => absurd h.symm Bool.false_ne_true⟩

theorem addReplyToBuffer_charged (hc : Charged env o a) (s : Bytes) : Charged env (o.addReplyToBuffer s).1 a := by
  obtain ⟨hheap, hreply, -⟩ := addReplyToBuffer_list o s
  rw [Charged, hheap, hreply]
  exact hc

/-- **A reply is charged as it is stored**, in the buffer or in the list. -/
theorem bufferOr_charged (hc : Charged env o a) (unixtime len : Nat) {list : Output → Option Output}
    {mem : Account → Account} (hlist : ∀ o', list o = some o' → Charged env o' (mem a))
    (h : o.bufferOr s list = some o') : Charged env o' (a.bufferOr env o s unixtime len mem) := by
  have hbuf := addReplyToBuffer_charged hc s
  have hsame := (addReplyToBuffer_list o s).2.2
  unfold Output.bufferOr at h
  unfold bufferOr
  generalize o.addReplyToBuffer s = r at h hbuf hsame ⊢
  obtain ⟨o₁, ok⟩ := r
  cases ok with
  | true =>
    cases h
    exact hbuf
  | false =>
    have heq : o₁ = o := hsame rfl
    rw [heq] at h
    exact asyncClose_charged (hlist o' h) unixtime len

/-- The heap changes, but not the nodes. -/
theorem Charged.setHeap (hc : Charged env o a) (hnode : ∀ k ∈ o.reply, h'.value k = o.heap.value k) :
    Charged env { o with heap := h' } a := by
  show a.replyBytes = a.charge env h' o.reply
  rw [charge_congr hnode fun _ _ => rfl]
  exact hc

/-- The decoded text of an integer is held for the time of the call. -/
theorem addReply_int_charged (hw : OutputOk outer o) (hc : Charged env o a) {v : Int} (unixtime len : Nat)
    (hv : o.heap.value id = some (.int v)) (hll : LongLong v) (h : o.addReply id = some o') :
    Charged env o' (a.addReply env o id unixtime len) := by
  have hlen := llText_length hll
  have hbuf : ll2string 32 v = llText v := ll2string_eq (by omega)
  have hcreate : o.heap.createStringObject (llText v) =
      some ((o.heap.createObject (.embstr (llText v))).1, o.heap.nextObj) := by
    rw [Heap.createStringObject, if_pos (by omega), if_pos (by omega)]
    rfl
  unfold addReply
  unfold Output.addReply at h
  rw [hv] at h ⊢
  dsimp only at h ⊢
  rw [hbuf, cstr_llText] at h ⊢
  split at h
  · rename_i hroom
    rw [if_pos hroom]
    cases h
    exact addReplyToBuffer_charged hc _
  · rename_i hroom
    rw [if_neg hroom, hcreate]
    rw [hcreate, Option.bind_some] at h
    obtain ⟨o₁, hadd, h⟩ := Option.bind_eq_some_iff.mp h
    obtain ⟨h₂, hdecr, rfl⟩ := Option.map_eq_some_iff.mp h
    obtain ⟨hmoves, hnew⟩ := hw.create (v := .embstr (llText v)) ObjValue.noConfusion
    have hdec : 0 < bump outer o.heap.nextObj o.heap.nextObj := by
      rw [bump_self]
      exact Nat.succ_pos _
    have htext : (o.heap.createObject (.embstr (llText v))).1.text o.heap.nextObj = some (llText v) := by
      rw [Heap.text, hnew]
      rfl
    -- the output of the call is well formed, so that the object can be released
    obtain ⟨o₁', hadd', hadds⟩ := bufferOr_adds hmoves.wf (·.addReplyObjectToList o.heap.nextObj (llText v))
      (addReplyObjectToList_adds hmoves.wf hdec htext)
    cases hadd'.symm.trans hadd
    obtain ⟨h₂', hdecr', hrel⟩ := hadds.wf.release
    cases hdecr'.symm.trans hdecr
    refine Charged.setHeap ?_ hrel.node
    exact bufferOr_charged (hc.setHeap hmoves.node) unixtime len
      (fun o' => addReplyObjectToList_charged hmoves.wf (hc.setHeap hmoves.node) hdec) hadd

/-- **`addReply`** is charged for what it adds. -/
theorem addReply_charged (hw : OutputOk outer o) (hc : Charged env o a) (unixtime len : Nat) (hid : 0 < outer id)
    (hll : ∀ n, o.heap.value id = some (.int n) → LongLong n) (h : o.addReply id = some o') :
    Charged env o' (a.addReply env o id unixtime len) := by
  obtain ⟨v, hv⟩ := hw.heap.value_isSome (refs_pos_of_outer _ hid)
  cases v with
  | null => exact absurd hv (hw.held id hid)
  | int n => exact addReply_int_charged hw hc unixtime len hv (hll n hv) h
  | raw s =>
    rw [Output.addReply, hv] at h
    rw [addReply, hv]
    exact bufferOr_charged hc unixtime len (fun o' => addReplyObjectToList_charged hw hc hid) h
  | embstr s =>
    rw [Output.addReply, hv] at h
    rw [addReply, hv]
    exact bufferOr_charged hc unixtime len (fun o' => addReplyObjectToList_charged hw hc hid) h

/-! ## Deferred lengths -/

/-- A place uses nothing until it is filled. -/
theorem addDeferredMultiBulkLength_charged (hw : OutputOk outer o) (hc : Charged env o a) :
    Charged env o.addDeferredMultiBulkLength.1 a := by
  obtain ⟨-, hnew, hkeep⟩ := hw.heap.create .null
  have hnode : ∀ k ∈ o.reply, (o.heap.createObject .null).1.value k = o.heap.value k :=
    fun k hk => hkeep k (refs_pos_of_mem outer hk)
  show a.replyBytes = a.charge env (o.heap.createObject .null).1 (o.reply ++ [o.heap.nextObj])
  rw [charge_concat, used_null hnew, UInt64.add_zero]
  exact hc.setHeap hnode

/-- A node in the middle of the list takes in the nodes `glued` behind it. -/
theorem glue_charged (hc : Charged env o a) (glued : List Nat) {before after : List Nat} {u : Bytes}
    (hreply : o.reply = before ++ id :: (glued ++ after)) (hnull : o.heap.value id = some .null)
    (hself : h'.value id = some (.raw u)) (hvalue : ∀ k, k ∈ before ∨ k ∈ after → h'.value k = o.heap.value k)
    (hblock : ∀ k, k ∈ before ∨ k ∈ after → a'.block k = a.block k)
    (hbytes : a'.replyBytes = a.replyBytes - a.charge env o.heap glued + a'.zmallocSizeSds env id) :
    Charged env { o with heap := h', reply := before ++ id :: after } a' := by
  show a'.replyBytes = a'.charge env h' (before ++ id :: after)
  rw [Charged, hreply, charge_append, charge_cons, charge_append, used_null hnull] at hc
  rw [charge_append, charge_cons, used_raw hself, hbytes, hc,
    charge_congr (fun k hk => hvalue k (.inl hk)) fun k hk => hblock k (.inl hk),
    charge_congr (fun k hk => hvalue k (.inr hk)) fun k hk => hblock k (.inr hk)]
  grind

theorem fillPlace_block (a : Account) {id k : Nat} (header : Bytes) (hk : k ≠ id) :
    (a.fillPlace env id header).block k = a.block k :=
  sdsnew_block_of_ne a _ hk

theorem fillPlace_bytes (a : Account) (id : Nat) (header : Bytes) :
    (a.fillPlace env id header).replyBytes = a.replyBytes + (a.fillPlace env id header).zmallocSizeSds env id := rfl

theorem glueNext_block (h : Heap) (a : Account) {id k : Nat} (next : Nat) (header s : Bytes) (hk : k ≠ id) :
    (a.glueNext env h id next header s).block k = a.block k :=
  sdscatlen_block_of_ne _ _ _ hk

theorem glueNext_bytes (h : Heap) (a : Account) (id next : Nat) (header s : Bytes) :
    (a.glueNext env h id next header s).replyBytes =
      a.replyBytes - a.zmallocSizeSds env id - a.getStringObjectSdsUsedMemory env h next +
        (a.glueNext env h id next header s).zmallocSizeSds env id := by
  show (Account.sdscatlen _ _ _ _).replyBytes + _ = _
  rw [sdscatlen_meter]
  rfl

/-- **`setDeferredMultiBulkLength`.** -/
theorem setDeferred_charged (hw : OutputOk outer o) (hc : Charged env o a) {length : Int} (hid : id ∈ o.reply)
    (hnull : o.heap.value id = some .null) (h : o.setDeferredMultiBulkLength id length = some o') :
    Charged env o' (a.setDeferred env o id length) := by
  obtain ⟨before, glued, after, t, h₁, hg, hset⟩ := hw.setDeferred_glues hid hnull length
  obtain ⟨hbefore, hbehind, -⟩ := hw.place_once hg.reply hnull
  obtain ⟨-, hdrop⟩ := takeWhile_dropWhile_place hbefore (glued ++ after)
  have hne : ∀ k, k ∈ before ∨ k ∈ after → k ≠ id := by
    rintro k (hk | hk) rfl
    · exact hbefore hk
    · exact hbehind (List.mem_append_right _ hk)
  have hvalue : ∀ k, k ∈ before ∨ k ∈ after → h₁.value k = o.heap.value k := by
    refine fun k hk => hg.kept k (hne k hk) (refs_pos_of_mem outer ?_)
    rw [List.mem_append, List.mem_cons]
    exact hk.imp_right .inr
  rw [hset] at h
  split at h
  on_goal 2 => cases h
  cases h
  unfold setDeferred
  dsimp only
  rw [hg.reply, hdrop]
  rcases hg.next with ⟨rfl, rfl, hnone⟩ | ⟨next, rfl, hs⟩
  · -- nothing is glued
    have hfill : Charged env { o with heap := h₁, reply := before ++ id :: after }
        (a.fillPlace env id (Output.numLine 42 length)) := by
      refine glue_charged hc [] hg.reply hnull hg.self hvalue (fun k hk => fillPlace_block a _ (hne k hk)) ?_
      rw [charge_nil, UInt64.sub_zero, fillPlace_bytes]
    cases after with
    | nil => exact hfill
    | cons next after =>
      dsimp only [List.nil_append]
      rw [hnone next rfl]
      exact hfill
  · dsimp only [List.singleton_append]
    rw [hs]
    refine glue_charged hc [next] hg.reply hnull hg.self hvalue (fun k hk => ?_) ?_
    · exact (glueNext_block _ _ _ _ _ (hne k hk)).trans (fillPlace_block a _ (hne k hk))
    · -- the block of the next node is still the one it had
      have hnext : next ≠ id := fun heq => hbehind (heq ▸ List.mem_cons_self)
      have hused : (a.fillPlace env id (Output.numLine 42 length)).charge env o.heap [next] =
          a.charge env o.heap [next] :=
        charge_congr (fun _ _ => rfl) fun k hk => fillPlace_block a _ (List.mem_singleton.mp hk ▸ hnext)
      rw [← hused, charge_cons, charge_nil, UInt64.add_zero, glueNext_bytes, fillPlace_bytes, UInt64.add_sub_cancel]

/-! ## The meter

Only the counter changes before a check. -/

/-- The counter becomes `n`. -/
def setBytes (a : Meter) (n : UInt64) : Meter := { a with replyBytes := n }

/-- Nothing happens, or the counter changes and the limits are checked. -/
inductive Checked (limits : BufferLimits) (unixtime len : Nat) (a : Meter) : Meter → Prop where
  | same : Checked limits unixtime len a a
  | check (n : UInt64) :
      Checked limits unixtime len a ((setBytes a n).asyncCloseClientOnOutputBufferLimitReached limits unixtime len)

/-- Only the counter differs. -/
def SameFlags (a : Meter) (a' : Account) : Prop := ∃ n, a'.toMeter = setBytes a n

theorem SameFlags.refl (a : Account) : SameFlags a.toMeter a := ⟨a.replyBytes, rfl⟩

theorem SameFlags.set {m : Meter} (h : SameFlags m a) (n : UInt64) : SameFlags m { a with replyBytes := n } := by
  obtain ⟨k, hk⟩ := h
  refine ⟨n, ?_⟩
  show setBytes a.toMeter n = _
  rw [hk]
  rfl

theorem SameFlags.add {m : Meter} (h : SameFlags m a) (k : UInt64) : SameFlags m (a.add k) := h.set _

theorem addToList_meter {mem : Account → Account × UInt64} (hmem : (mem a).1.toMeter = a.toMeter) :
    SameFlags a.toMeter (addToList env o s mem a) := by
  have hadd : SameFlags a.toMeter ((mem a).1.add (mem a).2) := .add ⟨a.replyBytes, hmem⟩ _
  unfold addToList
  dsimp only
  split
  · exact .refl a
  split
  · exact hadd
  split
  · split
    · rename_i tail _ _ t _ _
      exact .add ⟨a.replyBytes - a.zmallocSizeSds env tail, by rw [sdscatlen_meter, dupLastObjectIfNeeded_meter]; rfl⟩ _
    · exact hadd
  · exact hadd

/-- The limits are checked at most once for a reply. -/
theorem bufferOr_checked (unixtime len : Nat) {list : Account → Account} (hlist : SameFlags a.toMeter (list a)) :
    Checked env.limits unixtime len a.toMeter (a.bufferOr env o s unixtime len list).toMeter := by
  obtain ⟨n, hn⟩ := hlist
  unfold bufferOr
  split
  · exact .same
  · show Checked env.limits unixtime len a.toMeter
      ((list a).toMeter.asyncCloseClientOnOutputBufferLimitReached env.limits unixtime len)
    rw [hn]
    exact .check n

section

variable (env : MemoryEnv)

/-- **A basic call checks the limits or does nothing to the account.** -/
theorem reply_checked (o : Output) (a : Account) (free unixtime len : Nat) (c : ReplyCall) :
    Checked env.limits unixtime len a.toMeter (a.reply env o free unixtime len c).toMeter := by
  have hobj : ∀ {o : Output} {id : Nat} {s : Bytes}, Checked env.limits unixtime len a.toMeter
      (a.bufferOr env o s unixtime len (addReplyObjectToList env o id s)).toMeter := fun {o id s} =>
    bufferOr_checked unixtime len (addToList_meter rfl)
  unfold reply
  split
  · unfold addReply
    split
    · exact hobj
    · exact hobj
    · dsimp only
      split
      · exact .same
      split
      · exact hobj
      · exact .same
    · exact .same
  · exact bufferOr_checked unixtime len (addToList_meter rfl)
  · refine bufferOr_checked unixtime len (addToList_meter ?_)
    split <;> rfl
  · exact .same

theorem setDeferred_meter (o : Output) (a : Account) (id : Nat) (length : Int) :
    SameFlags a.toMeter (a.setDeferred env o id length) := by
  have hfill : SameFlags a.toMeter (a.fillPlace env id (Output.numLine 42 length)) := .add ⟨a.replyBytes, rfl⟩ _
  unfold setDeferred
  dsimp only
  split
  · split
    · exact .add ⟨_, by rw [sdscatlen_meter]; rfl⟩ _
    · exact hfill
  · exact hfill

theorem setDeferred_checked (o : Output) (a : Account) (id : Nat) (length : Int) (unixtime len : Nat) :
    Checked env.limits unixtime len a.toMeter ((a.setDeferred env o id length).asyncClose env unixtime len).toMeter := by
  obtain ⟨n, hn⟩ := setDeferred_meter env o a id length
  show Checked env.limits unixtime len a.toMeter
    ((a.setDeferred env o id length).toMeter.asyncCloseClientOnOutputBufferLimitReached env.limits unixtime len)
  rw [hn]
  exact .check n

/-! ## Sending

The output of the paired functions is the one of `Prez.Client.Reply`. -/

theorem delFirst_fst (o : Output) (a : Account) : (delFirst env o a).map Prod.fst = o.delFirst := by
  unfold delFirst Output.delFirst
  cases o.reply with
  | nil => rfl
  | cons id rest =>
    rw [List.head?_cons, Option.bind_some, Option.map_map]
    exact Option.map_id'

theorem delEmpty_fst (count : Nat) :
    ∀ r : Output × Account, (delEmpty env count r).map Prod.fst = Output.delEmpty count r.1 := by
  induction count with
  | zero => exact fun _ => rfl
  | succ count ih =>
    rintro ⟨o, a⟩
    rw [delEmpty, Output.delEmpty]
    dsimp only
    cases o.reply with
    | nil => rfl
    | cons id rest =>
      dsimp only
      rw [Option.map_bind]
      refine Option.bind_congr fun s _ => ?_
      dsimp only [Function.comp_apply]
      split
      · rw [Option.map_bind, ← delFirst_fst env o a, Option.bind_map]
        exact Option.bind_congr fun r _ => ih r
      · rfl

theorem writeOnce_fst (r : Output × Account) (room : Nat) :
    (writeOnce env r room).map (fun x => (x.1.1, x.2)) = r.1.writeOnce room := by
  obtain ⟨o, a⟩ := r
  unfold writeOnce
  dsimp only
  split
  · rw [Option.map_map]
    exact Option.map_id'
  · rename_i hbuf
    rw [Output.writeOnce, if_neg hbuf, Option.map_bind]
    refine Option.bind_congr fun id _ => ?_
    dsimp only [Function.comp_apply]
    rw [Option.map_bind]
    refine Option.bind_congr fun s _ => ?_
    dsimp only [Function.comp_apply]
    split
    · rw [← delFirst_fst env _ a, Option.map_map, Option.map_map]
      rfl
    · rfl

theorem skipEmpty_fst (r : Output × Account) :
    (if r.1.buf = [] then delEmpty env r.1.reply.length r else some r).map Prod.fst =
      if r.1.buf = [] then Output.delEmpty r.1.reply.length r.1 else some r.1 := by
  split
  · exact delEmpty_fst env _ r
  · rfl

theorem sendLoop_fst (writes : List (Nat × Bool)) : ∀ (totwritten : Int) (r : Output × Account),
    (sendLoop env writes totwritten r).map Prod.fst = Output.sendLoop writes totwritten r.1 := by
  induction writes with
  | nil =>
    intro totwritten r
    rw [sendLoop, Output.sendLoop, ← skipEmpty_fst env, Option.map_bind, Option.bind_map]
    refine Option.bind_congr fun r _ => ?_
    dsimp only [Function.comp_apply]
    split <;> rfl
  | cons write writes ih =>
    obtain ⟨room, below⟩ := write
    intro totwritten r
    rw [sendLoop, Output.sendLoop, ← skipEmpty_fst env, Option.map_bind, Option.bind_map]
    refine Option.bind_congr fun r _ => ?_
    dsimp only [Function.comp_apply]
    split
    · rfl
    · rw [← writeOnce_fst env, Option.map_bind, Option.bind_map]
      refine Option.bind_congr fun x _ => ?_
      dsimp only [Function.comp_apply]
      split
      · rfl
      split
      · rfl
      · exact ih _ _

/-- The account does not change what is sent. -/
theorem sendReplyToClient_fst (writes : List (Nat × Bool)) (o : Output) (a : Account) :
    (sendReplyToClient env writes o a).map Prod.fst = o.sendReplyToClient writes := by
  rw [sendReplyToClient, Output.sendReplyToClient, ← sendLoop_fst env writes 0 (o, a), Option.map_map, Option.map_map]
  rfl

end

/-- The counter is right, the objects of the list are there, and no limit was checked. -/
structure Paid (env : MemoryEnv) (outer : Nat → Nat) (flags : Meter) (r : Output × Account) : Prop where
  heap : HeapOk (refsOf outer r.1.reply) r.1.heap
  charged : Charged env r.1 r.2
  flags : SameFlags flags r.2

variable {flags : Meter}

theorem delFirst_paid (h : Paid env outer flags (o, a)) {r : Output × Account} (hr : delFirst env o a = some r) :
    Paid env outer flags r := by
  obtain ⟨hheap, hc, hflags⟩ := h
  unfold delFirst Output.delFirst at hr
  dsimp only at hheap hc
  cases hreply : o.reply with
  | nil =>
    rw [hreply] at hr
    cases hr
  | cons id rest =>
    rw [hreply, refsOf_cons] at hheap
    rw [hreply, List.head?_cons, Option.bind_some] at hr
    obtain ⟨h', hdecr, hok, hkeep⟩ := hheap.decr
    dsimp only at hr
    rw [hdecr] at hr
    cases hr
    refine ⟨hok, ?_, hflags.set _⟩
    rw [Charged, hreply, charge_cons] at hc
    show a.replyBytes - a.getStringObjectSdsUsedMemory env o.heap id = a.charge env h' rest
    rw [charge_congr (fun k hk => hkeep k (refs_pos_of_mem outer hk)) fun _ _ => rfl, hc, UInt64.add_comm,
      UInt64.add_sub_cancel]

theorem delEmpty_paid (count : Nat) : ∀ {r r' : Output × Account}, Paid env outer flags r → delEmpty env count r = some r' →
    Paid env outer flags r' := by
  induction count with
  | zero =>
    intro r r' h hr
    cases hr
    exact h
  | succ count ih =>
    intro r r' h hr
    rw [delEmpty] at hr
    split at hr
    · cases hr
      exact h
    · obtain ⟨s, -, hr⟩ := Option.bind_eq_some_iff.mp hr
      split at hr
      · obtain ⟨r₁, hdel, hr⟩ := Option.bind_eq_some_iff.mp hr
        exact ih (delFirst_paid h hdel) hr
      · cases hr
        exact h

theorem writeOnce_paid {r r' : Output × Account} {room n : Nat} (h : Paid env outer flags r)
    (hr : writeOnce env r room = some (r', n)) : Paid env outer flags r' := by
  obtain ⟨o, a⟩ := r
  unfold writeOnce at hr
  dsimp only at hr
  split at hr
  · rename_i hbuf
    obtain ⟨⟨o', n'⟩, hwrite, heq⟩ := Option.map_eq_some_iff.mp hr
    cases heq
    rw [Output.writeOnce, if_pos hbuf] at hwrite
    dsimp only at hwrite
    split at hwrite <;> cases hwrite <;> exact ⟨h.heap, h.charged, h.flags⟩
  · obtain ⟨id, -, hr⟩ := Option.bind_eq_some_iff.mp hr
    obtain ⟨s, -, hr⟩ := Option.bind_eq_some_iff.mp hr
    split at hr
    · obtain ⟨r₁, hdel, heq⟩ := Option.map_eq_some_iff.mp hr
      cases heq
      refine delFirst_paid ?_ hdel
      exact ⟨h.heap, h.charged, h.flags⟩
    · cases hr
      exact ⟨h.heap, h.charged, h.flags⟩

/-- What has been sent is no longer charged. -/
theorem sendLoop_paid (writes : List (Nat × Bool)) : ∀ (totwritten : Int) {r r' : Output × Account},
    Paid env outer flags r → sendLoop env writes totwritten r = some r' → Paid env outer flags r' := by
  have hskip : ∀ {r r' : Output × Account}, Paid env outer flags r →
      (if r.1.buf = [] then delEmpty env r.1.reply.length r else some r) = some r' → Paid env outer flags r' := by
    intro r r' h hr
    split at hr
    · exact delEmpty_paid _ h hr
    · cases hr
      exact h
  induction writes with
  | nil =>
    intro totwritten r r' h hr
    rw [sendLoop] at hr
    obtain ⟨r₁, hdel, hr⟩ := Option.bind_eq_some_iff.mp hr
    split at hr <;> cases hr <;> exact hskip h hdel
  | cons write writes ih =>
    obtain ⟨room, below⟩ := write
    intro totwritten r r' h hr
    rw [sendLoop] at hr
    obtain ⟨r₁, hdel, hr⟩ := Option.bind_eq_some_iff.mp hr
    split at hr
    · cases hr
      exact hskip h hdel
    · obtain ⟨⟨r₂, n⟩, hwrite, hr⟩ := Option.bind_eq_some_iff.mp hr
      have hpaid := writeOnce_paid (hskip h hdel) hwrite
      dsimp only at hr
      split at hr
      · cases hr
        exact hpaid
      split at hr
      · cases hr
        exact hpaid
      · exact ih _ hpaid hr

/-- **`sendReplyToClient`.** -/
theorem sendReplyToClient_paid (hw : OutputOk outer o) (hc : Charged env o a) {writes : List (Nat × Bool)}
    {r : Output × Account} (h : sendReplyToClient env writes o a = some r) :
    Charged env r.1 r.2 ∧ SameFlags a.toMeter r.2 := by
  obtain ⟨⟨o₁, a₁⟩, hloop, rfl⟩ := Option.map_eq_some_iff.mp h
  have hpaid := sendLoop_paid writes 0 ⟨hw.heap, hc, .refl a⟩ hloop
  dsimp only
  split <;> exact ⟨hpaid.charged, hpaid.flags⟩

end Account

end Prez
