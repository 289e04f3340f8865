import Prez.Client.Queue

/-!
# `Prez.Client.Calls` — the reply functions add what they are given

One lemma for each reply function: it has a result, and adds the text that the call stands for. A deferred
length opens a place at the end of the queue, which `setDeferredMultiBulkLength` fills later (`Fills`).
-/

namespace Prez

open Lib

section

variable {outer : Nat → Nat} {o : Output}

/-! ## Holders outside -/

namespace OutputOk

/-- Another heap with the same nodes. -/
theorem setHeap (hw : OutputOk outer o) {outer' : Nat → Nat} {h' : Heap} (hheap : HeapOk (refsOf outer' o.reply) h')
    (hnode : ∀ k ∈ o.reply, h'.value k = o.heap.value k) (hheld : ∀ k, 0 < outer' k → h'.value k ≠ some .null) :
    OutputOk outer' { o with heap := h' } where
  heap := hheap
  nodes k hk v := by
    dsimp only
    rw [hnode k hk]
    exact hw.nodes k hk v
  held := hheld
  room := hw.room
  inBuf := hw.inBuf
  inHead hbuf := by
    refine hw.inHead_of { o with heap := h' } hbuf rfl fun s hs => ⟨s, ?_, le_rfl⟩
    obtain ⟨k, hk, hks⟩ := Option.bind_eq_some_iff.mp hs
    rw [Output.headText, hk]
    exact (text_of_value (hnode k (List.mem_of_mem_head? hk))).trans hks

end OutputOk

variable {id : Nat} {v : ObjValue} {s : Bytes} {length : Int} {h' : Heap}

theorem rest_setHeap (hnode : ∀ k ∈ o.reply, h'.value k = o.heap.value k) (fill : Nat → Bytes) :
    Output.rest { o with heap := h' } fill = o.rest fill := by
  rw [Output.rest, Output.rest, Output.body, Output.body, flatMap_congr_value hnode]

theorem places_setHeap (hnode : ∀ k ∈ o.reply, h'.value k = o.heap.value k) (k : Nat) :
    (k ∈ o.reply ∧ h'.value k = some .null) ↔ (k ∈ o.reply ∧ o.heap.value k = some .null) :=
  and_congr_right fun hk => by rw [hnode k hk]

/-- The heap changes but not the nodes nor what the holders in `outer` refer to. -/
structure SameNodes (outer outer' : Nat → Nat) (o : Output) (h' : Heap) : Prop where
  wf : OutputOk outer' { o with heap := h' }
  node : ∀ k ∈ o.reply, h'.value k = o.heap.value k
  kept : ∀ k, 0 < outer k → 0 < outer' k → h'.value k = o.heap.value k

/-- Somebody creates an object. -/
theorem OutputOk.create (hw : OutputOk outer o) (hv : v ≠ .null) :
    SameNodes outer (bump outer o.heap.nextObj) o (o.heap.createObject v).1 ∧
      (o.heap.createObject v).1.value o.heap.nextObj = some v := by
  obtain ⟨hheap, hnew, hkeep⟩ := hw.heap.create v
  have hnode : ∀ k ∈ o.reply, (o.heap.createObject v).1.value k = o.heap.value k :=
    fun k hk => hkeep k (refs_pos_of_mem outer hk)
  refine ⟨⟨hw.setHeap (by rw [refsOf_bump]; exact hheap) hnode fun k hk => ?_, hnode, fun k hk _ =>
    hkeep k (refs_pos_of_outer _ hk)⟩, hnew⟩
  by_cases hk' : k = o.heap.nextObj
  · rw [hk', hnew]
    exact fun h => hv (Option.some.inj h)
  · rw [bump_of_ne outer hk'] at hk
    rw [hkeep k (refs_pos_of_outer _ hk)]
    exact hw.held k hk

/-- A holder takes one more reference. -/
theorem OutputOk.retain (hw : OutputOk outer o) (hid : 0 < outer id) :
    ∃ h', o.heap.incrRefCount id = some h' ∧ SameNodes outer (bump outer id) o h' := by
  obtain ⟨h', hincr, hheap, hvalue⟩ := hw.heap.incr (refs_pos_of_outer _ hid) (hw.held id hid)
  refine ⟨h', hincr, hw.setHeap (by rw [refsOf_bump]; exact hheap) (fun k _ => hvalue k) fun k hk => ?_,
    fun k _ => hvalue k, fun k _ _ => hvalue k⟩
  rw [hvalue]
  by_cases hk' : k = id
  · rw [hk']
    exact hw.held id hid
  · rw [bump_of_ne outer hk'] at hk
    exact hw.held k hk

/-- A holder gives a reference back. -/
theorem OutputOk.release (hw : OutputOk (bump outer id) o) :
    ∃ h', o.heap.decrRefCount id = some h' ∧ SameNodes (bump outer id) outer o h' := by
  have hheap := hw.heap
  rw [refsOf_bump] at hheap
  obtain ⟨h', hdecr, hok, hvalue⟩ := hheap.decr
  have hnode : ∀ k ∈ o.reply, h'.value k = o.heap.value k := fun k hk => hvalue k (refs_pos_of_mem outer hk)
  refine ⟨h', hdecr, hw.setHeap hok hnode fun k hk => ?_, hnode, fun k _ hk => hvalue k (refs_pos_of_outer _ hk)⟩
  rw [hvalue k (refs_pos_of_outer _ hk)]
  exact hw.held k (bump_pos id hk)

/-- Somebody that holds an object gives one reference back. -/
theorem OutputOk.releaseHeld (hw : OutputOk outer o) (hid : 0 < outer id) :
    ∃ h', o.heap.decrRefCount id = some h' ∧
      SameNodes outer (Function.update outer id (outer id - 1)) o h' := by
  have hbump : outer = bump (Function.update outer id (outer id - 1)) id := by
    funext k
    by_cases hk : k = id
    · rw [hk, bump_self, Function.update_self]
      omega
    · rw [bump_of_ne _ hk, Function.update_of_ne hk]
  rw [hbump] at hw
  obtain ⟨h', hdecr, hm⟩ := hw.release
  rw [← hbump] at hm
  exact ⟨h', hdecr, hm⟩

/-! ## Reply functions -/

/-- The text that stands for an object in a reply. -/
def ObjValue.payload : ObjValue → Bytes
  | .raw s | .embstr s => s
  | .int v => llText v
  | .null => []

theorem ObjValue.text_createString (s : Bytes) :
    (if s.length ≤ 39 then ObjValue.embstr s else .raw s).text = some s := by
  split <;> rfl

theorem cstr_llText (v : Int) : cstr (llText v) = llText v := by
  have hdigit : (0 : UInt8) ∉ decimal v.natAbs := fun h => absurd (decimal_isDigit _ _ h) (by decide)
  refine cstr_eq_self ?_
  unfold llText
  split
  · rw [List.mem_cons, not_or]
    exact ⟨by decide, hdigit⟩
  · exact hdigit

theorem makesNode_create {refs : Nat → Nat} {h : Heap} (hok : HeapOk refs h) (hs : v.text = some s) :
    MakesNode refs h s fun heap => some (heap.createObject v) := by
  obtain ⟨hheap, hnew, hkeep⟩ := hok.create v
  refine ⟨_, _, rfl, hheap, ?_, hkeep⟩
  rw [Heap.text]
  exact (congrArg (·.bind ObjValue.text) hnew).trans hs

theorem addReplyObjectToList_adds (hw : OutputOk outer o) (hid : 0 < outer id) (htext : o.heap.text id = some s) :
    ∃ o', o.addReplyObjectToList id s = some o' ∧ Adds outer o o' s := by
  refine addToList_adds hw fun _ => ?_
  obtain ⟨h', hincr, hheap, hvalue⟩ := hw.heap.incr (refs_pos_of_outer _ hid) (hw.held id hid)
  exact ⟨h', id, congrArg (Option.map (·, id)) hincr, hheap, (text_of_value (hvalue id)).trans htext,
    fun k _ => hvalue k⟩

/-- The buffer first, and the list when that refuses: the shape of all reply functions. -/
theorem bufferOr_adds (hw : OutputOk outer o) (list : Output → Option Output)
    (hlist : ∃ o', list o = some o' ∧ Adds outer o o' s) : ∃ o', o.bufferOr s list = some o' ∧ Adds outer o o' s := by
  unfold Output.bufferOr
  obtain ⟨htrue, hfalse⟩ := addReplyToBuffer_spec hw s
  generalize o.addReplyToBuffer s = r at htrue hfalse ⊢
  obtain ⟨o₁, ok⟩ := r
  cases ok with
  | true => exact ⟨o₁, rfl, htrue rfl⟩
  | false =>
    have heq : o₁ = o := (hfalse rfl).1
    rw [heq]
    exact hlist

theorem addReplySds_adds (hw : OutputOk outer o) (s : Bytes) : ∃ o', o.addReplySds s = some o' ∧ Adds outer o o' s :=
  bufferOr_adds hw _ (addToList_adds hw fun _ => makesNode_create hw.heap rfl)

theorem addReplyString_adds (hw : OutputOk outer o) (hs : s.length < 2 ^ 31) :
    ∃ o', o.addReplyString s = some o' ∧ Adds outer o o' s := by
  refine bufferOr_adds hw _ (addToList_adds hw fun _ => ?_)
  have hcreate : ∀ heap : Heap, heap.createStringObject s =
      some (heap.createObject (if s.length ≤ 39 then .embstr s else .raw s)) := fun heap => if_pos hs
  obtain ⟨h', id, hmake, h⟩ := makesNode_create hw.heap (ObjValue.text_createString s)
  exact ⟨h', id, (hcreate _).trans hmake, h⟩

/-- The text of an integer object, whether it fits into the buffer or not. The decoded object is held only for
    the time of the call. -/
theorem addReply_int (hw : OutputOk outer o) {v : Int} (hv : o.heap.value id = some (.int v)) (hll : LongLong v) :
    ∃ o', o.addReply id = some o' ∧ Adds outer o o' (llText v) := by
  have hlen := llText_length hll
  have hbuf : ll2string 32 v = llText v := ll2string_eq (by omega)
  have hcstr : cstr (llText v) = llText v := cstr_llText v
  rw [Output.addReply, hv]
  dsimp only
  rw [hbuf, hcstr]
  split
  · rename_i hroom
    exact ⟨_, rfl, (addReplyToBuffer_spec hw _).1 hroom.2.2⟩
  · have hcreate : o.heap.createStringObject (llText v) = some (o.heap.createObject (.embstr (llText v))) := by
      rw [Heap.createStringObject, if_pos (by omega), if_pos (by omega)]
    obtain ⟨hmoves, hnew⟩ := hw.create (v := .embstr (llText v)) nofun
    have hdec : 0 < bump outer o.heap.nextObj o.heap.nextObj := by
      rw [bump_self]
      exact Nat.succ_pos _
    have htext : (o.heap.createObject (.embstr (llText v))).1.text o.heap.nextObj = some (llText v) := by
      rw [Heap.text, hnew]
      rfl
    obtain ⟨o₁, hadd, hadds⟩ := bufferOr_adds hmoves.wf (·.addReplyObjectToList o.heap.nextObj (llText v))
      (addReplyObjectToList_adds hmoves.wf hdec htext)
    obtain ⟨h₂, hdecr, hrel⟩ := hadds.wf.release
    rw [hcreate, Option.bind_some]
    refine ⟨{ o₁ with heap := h₂ }, ?_, ?_⟩
    · have hpair : o.heap.createObject (.embstr (llText v)) =
        ((o.heap.createObject (.embstr (llText v))).1, o.heap.nextObj) := rfl
      rw [hpair]
      dsimp only
      rw [hadd, Option.bind_some, hdecr, Option.map_some]
    · have hmono : ∀ k, 0 < outer k → 0 < bump outer o.heap.nextObj k := fun k => bump_pos o.heap.nextObj
      refine ⟨hrel.wf, fun fill => ?_, hadds.socket, hadds.closing, hadds.freed, fun k hk => ?_, fun k => ?_⟩
      · rw [rest_setHeap hrel.node, hadds.rest, rest_setHeap hmoves.node]
      · exact ((hrel.kept k (hmono k hk) hk).trans (hadds.kept k (hmono k hk))).trans (hmoves.kept k hk (hmono k hk))
      · exact ((places_setHeap hrel.node k).trans (hadds.places k)).trans (places_setHeap hmoves.node k)

/-- **`addReply`.** -/
theorem addReply_adds (hw : OutputOk outer o) (hid : 0 < outer id) (hv : o.heap.value id = some v)
    (hll : ∀ n, v = .int n → LongLong n) : ∃ o', o.addReply id = some o' ∧ Adds outer o o' v.payload := by
  have hlist : ∀ s, v.text = some s →
      ∃ o', o.addReplyObjectToList id s = some o' ∧ Adds outer o o' s := fun s hs =>
    addReplyObjectToList_adds hw hid (by rw [Heap.text, hv]; exact hs)
  cases v with
  | null => exact absurd hv (hw.held id hid)
  | int n => exact addReply_int hw hv (hll n rfl)
  | raw s =>
    rw [Output.addReply, hv]
    exact bufferOr_adds hw _ (hlist s rfl)
  | embstr s =>
    rw [Output.addReply, hv]
    exact bufferOr_adds hw _ (hlist s rfl)

/-! ### Bulk replies -/

/-- The shared objects are held by the server and have their text. -/
def SharedOk (outer : Nat → Nat) (h : Heap) : Prop :=
  ∀ k < Output.sharedCount, 0 < outer k ∧ h.value k = some (.raw (Output.sharedText k))

theorem SharedOk.kept {h h' : Heap} (hs : SharedOk outer h) (hkept : ∀ k, 0 < outer k → h'.value k = h.value k) :
    SharedOk outer h' := fun k hk => ⟨(hs k hk).1, (hkept k (hs k hk).1).trans (hs k hk).2⟩

/-- A bulk reply: the length line, the string and the line end. -/
def bulkText (s : Bytes) : Bytes := Output.numLine 36 s.length ++ s ++ Output.sharedText Output.crlfObj

theorem radixLen_eq (n : Nat) : Output.radixLen n = (decimal n).length := by
  induction n using Nat.strong_induction_on with
  | _ n ih =>
    unfold Output.radixLen
    split
    · rw [decimal_lt (by omega)]
      rfl
    · rw [ih (n / 10) (by omega), decimal_ge (show 10 ≤ n by omega), List.length_append]
      rfl

/-- `addReplyBulkLen` counts the bytes that `addReply` will add. -/
theorem bulkLen_eq {h : Heap} (hv : h.value id = some v) (hnull : v ≠ .null) :
    Output.bulkLen h id = some v.payload.length := by
  unfold Output.bulkLen
  rw [hv]
  cases v with
  | null => exact absurd rfl hnull
  | raw s => rfl
  | embstr s => rfl
  | int n =>
    dsimp only [ObjValue.payload]
    rw [radixLen_eq, llText]
    split <;> rfl

section

variable (hw : OutputOk outer o) (hs : SharedOk outer o.heap)

include hw hs

theorem addReply_shared {k : Nat} (hk : k < Output.sharedCount) :
    ∃ o', o.addReply k = some o' ∧ Adds outer o o' (Output.sharedText k) :=
  addReply_adds hw (hs k hk).1 (hs k hk).2 nofun

theorem addReply_mbulkhdr {n : Int} (h0 : 0 ≤ n) (hn : n < Output.sharedBulkhdrLen) :
    ∃ o', (Output.mbulkhdrObj n).bind o.addReply = some o' ∧ Adds outer o o' (Output.numLine 42 n) := by
  unfold Output.sharedBulkhdrLen at hn
  have htext : Output.sharedText (2 + n.toNat) = Output.numLine 42 n := by
    rw [Nat.add_comm, Output.sharedText, if_pos (by unfold Output.sharedBulkhdrLen; omega), Int.toNat_of_nonneg h0]
  rw [Output.mbulkhdrObj, if_pos ⟨h0, hn⟩, Option.bind_some, ← htext]
  exact addReply_shared hw hs (by unfold Output.sharedCount Output.sharedBulkhdrLen; omega)

theorem addReply_bulkhdr {n : Int} (h0 : 0 ≤ n) (hn : n < Output.sharedBulkhdrLen) :
    ∃ o', (Output.bulkhdrObj n).bind o.addReply = some o' ∧ Adds outer o o' (Output.numLine 36 n) := by
  unfold Output.sharedBulkhdrLen at hn
  have htext : Output.sharedText (2 + Output.sharedBulkhdrLen + n.toNat) = Output.numLine 36 n := by
    rw [Nat.add_assoc, Nat.add_comm 2, Output.sharedText, if_neg (by omega), Nat.add_sub_cancel_left,
      Int.toNat_of_nonneg h0]
  rw [Output.bulkhdrObj, if_pos ⟨h0, hn⟩, Option.bind_some, ← htext]
  exact addReply_shared hw hs (by unfold Output.sharedCount Output.sharedBulkhdrLen; omega)

theorem addReplyLongLongWithPrefix_adds {ll : Int} (kind : UInt8) (hll : LongLong ll)
    (h0 : kind = 42 ∨ kind = 36 → 0 ≤ ll) :
    ∃ o', o.addReplyLongLongWithPrefix ll kind = some o' ∧ Adds outer o o' (Output.numLine kind ll) := by
  unfold Output.addReplyLongLongWithPrefix
  split
  · rename_i h
    rw [h.1]
    exact addReply_mbulkhdr hw hs (h0 (.inl h.1)) h.2
  split
  · rename_i h
    rw [h.1]
    exact addReply_bulkhdr hw hs (h0 (.inr h.1)) h.2
  · have hlen := llText_length hll
    rw [ll2string_eq (by omega)]
    refine addReplyString_adds hw ?_
    simp only [List.cons_append, List.length_cons, List.length_append, List.length_nil]
    omega

theorem addReplyMultiBulkLen_adds (hll : LongLong length) (h0 : 0 ≤ length) :
    ∃ o', o.addReplyMultiBulkLen length = some o' ∧ Adds outer o o' (Output.numLine 42 length) := by
  unfold Output.addReplyMultiBulkLen
  split
  · rename_i h
    exact addReply_mbulkhdr hw hs h0 h
  · exact addReplyLongLongWithPrefix_adds hw hs _ hll fun _ => h0

theorem addReplyBulkLen_adds (hid : 0 < outer id) (hv : o.heap.value id = some v)
    (hlen : v.payload.length < 2 ^ 31) :
    ∃ o', o.addReplyBulkLen id = some o' ∧ Adds outer o o' (Output.numLine 36 v.payload.length) := by
  have hnull : v ≠ .null := fun h => hw.held id hid (h ▸ hv)
  rw [Output.addReplyBulkLen, bulkLen_eq hv hnull, Option.bind_some]
  split
  · rename_i h
    exact addReply_bulkhdr hw hs (Int.natCast_nonneg _) (by exact_mod_cast h)
  · exact addReplyLongLongWithPrefix_adds hw hs _ (by unfold LongLong; omega) fun _ => Int.natCast_nonneg _

/-- **`addReplyBulk`.** -/
theorem addReplyBulk_adds (hid : 0 < outer id)
    (hv : o.heap.value id = some v) (hll : ∀ n, v = .int n → LongLong n) (hlen : v.payload.length < 2 ^ 31) :
    ∃ o', o.addReplyBulk id = some o' ∧ Adds outer o o' (bulkText v.payload) := by
  obtain ⟨o₁, hlen₁, hadds₁⟩ := addReplyBulkLen_adds hw hs hid hv hlen
  obtain ⟨o₂, htext₂, hadds₂⟩ := addReply_adds hadds₁.wf hid ((hadds₁.kept id hid).trans hv) hll
  have hs₂ := (hs.kept hadds₁.kept).kept hadds₂.kept
  obtain ⟨o₃, hcrlf, hadds₃⟩ := addReply_shared hadds₂.wf hs₂ (k := Output.crlfObj) (by decide)
  refine ⟨o₃, ?_, (hadds₁.trans hadds₂).trans hadds₃⟩
  simp only [Output.addReplyBulk, hlen₁, htext₂, hcrlf, Option.bind_eq_bind, Option.bind_some]

theorem addReplyBulkCBuffer_adds (hlen : s.length < 2 ^ 31) :
    ∃ o', o.addReplyBulkCBuffer s = some o' ∧ Adds outer o o' (bulkText s) := by
  have hll : LongLong (s.length : Int) := by unfold LongLong; omega
  obtain ⟨o₁, hlen₁, hadds₁⟩ := addReplyLongLongWithPrefix_adds hw hs 36 hll fun _ => Int.natCast_nonneg _
  obtain ⟨o₂, htext₂, hadds₂⟩ := addReplyString_adds hadds₁.wf hlen
  have hs₂ := (hs.kept hadds₁.kept).kept hadds₂.kept
  obtain ⟨o₃, hcrlf, hadds₃⟩ := addReply_shared hadds₂.wf hs₂ (k := Output.crlfObj) (by decide)
  refine ⟨o₃, ?_, (hadds₁.trans hadds₂).trans hadds₃⟩
  simp only [Output.addReplyBulkCBuffer, hlen₁, htext₂, hcrlf, Option.bind_eq_bind, Option.bind_some]

end

/-! ### Deferred lengths -/

/-- **`addDeferredMultiBulkLength`.** A place is opened at the end. -/
theorem addDeferredMultiBulkLength_spec (hw : OutputOk outer o) :
    OutputOk outer o.addDeferredMultiBulkLength.1 ∧
      (∀ fill, o.addDeferredMultiBulkLength.1.rest fill = o.rest fill ++ fill o.heap.nextObj) ∧
      (∀ k, 0 < outer k → o.addDeferredMultiBulkLength.1.heap.value k = o.heap.value k) ∧
      ∀ k, (k ∈ o.addDeferredMultiBulkLength.1.reply ∧
          o.addDeferredMultiBulkLength.1.heap.value k = some .null) ↔
        (k ∈ o.reply ∧ o.heap.value k = some .null) ∨ k = o.heap.nextObj := by
  obtain ⟨hheap, hnew, hkeep⟩ := hw.heap.create .null
  obtain ⟨hok, hrest, hplaces⟩ := pushNode hw hheap hnew nofun hkeep
  refine ⟨hok, fun fill => ?_, fun k hk => hkeep k (refs_pos_of_outer _ hk), fun k => ?_⟩
  · have htext : (o.heap.createObject .null).1.nodeText fill o.heap.nextObj = fill o.heap.nextObj := by
      rw [Heap.nodeText, Heap.text, hnew]
      rfl
    exact (hrest fill).trans (by rw [htext])
  · exact (hplaces k).trans (or_congr_right (and_iff_left rfl))

/-- The place `id` is filled with the text `b`, the rest of the queue stays. -/
structure Fills (outer : Nat → Nat) (o o' : Output) (id : Nat) (b : Bytes) : Prop where
  wf : OutputOk outer o'
  rest : ∀ fill, o'.rest fill = o.rest (Function.update fill id b)
  socket : o'.socket = o.socket
  closing : o'.closeAfterReply = o.closeAfterReply
  freed : o'.freed = o.freed
  kept : ∀ k, 0 < outer k → o'.heap.value k = o.heap.value k
  places : ∀ k, (k ∈ o'.reply ∧ o'.heap.value k = some .null) ↔
    (k ∈ o.reply ∧ o.heap.value k = some .null) ∧ k ≠ id

/-- An open place stands once in the list, and nobody outside holds it. -/
theorem OutputOk.place_once (hw : OutputOk outer o) {before after : List Nat}
    (hreply : o.reply = before ++ id :: after) (hnull : o.heap.value id = some .null) :
    id ∉ before ∧ id ∉ after ∧ outer id = 0 := by
  have hle := hw.heap.null id hnull
  rw [hreply, refsOf, List.count_append, List.count_cons_self] at hle
  refine ⟨fun h => ?_, fun h => ?_, by omega⟩
  · have := List.count_pos_iff.mpr h
    omega
  · have := List.count_pos_iff.mpr h
    omega

/-- The object of a place gets its text, and takes in the text of the nodes `glued` behind it. -/
theorem fills_of_place (hw : OutputOk outer o) {before : List Nat} (glued : List Nat) {after : List Nat} {b t : Bytes}
    (hreply : o.reply = before ++ id :: (glued ++ after)) (hnull : o.heap.value id = some .null)
    (hglued : ∀ fill, glued.flatMap (o.heap.nodeText fill) = t) (hplain : ∀ k ∈ glued, o.heap.value k ≠ some .null)
    (hheap : HeapOk (refsOf outer (before ++ id :: after)) h') (hself : h'.value id = some (.raw (b ++ t)))
    (hkeep : ∀ k, k ≠ id → 0 < refsOf outer (before ++ id :: after) k → h'.value k = o.heap.value k) :
    Fills outer o { o with heap := h', reply := before ++ id :: after } id b := by
  obtain ⟨hbefore, hbehind, houter⟩ := hw.place_once hreply hnull
  have hafter : id ∉ after := fun h => hbehind (List.mem_append_right _ h)
  -- an open place at the head has no text, so nothing of it was sent
  have hhead : before = [] → ∀ s, o.headText = some s → s.length ≤ (b ++ t).length := by
    rintro rfl s hs
    have hnone : o.heap.text id = none := by rw [Heap.text, hnull]; rfl
    rw [Output.headText, hreply] at hs
    cases hnone.symm.trans hs
  obtain ⟨hok, hothers, hkept, hplaces⟩ := replaceNode hw (id :: glued) after hreply hheap hself hkeep hbefore hafter
    houter hhead
  refine ⟨hok, fun fill => ?_, rfl, rfl, rfl, hkept, fun k => (hplaces k).trans ?_⟩
  · have hpart : ∀ l : List Nat, (∀ k ∈ l, k ∈ before ∨ k ∈ after) →
        l.flatMap (h'.nodeText fill) = l.flatMap (o.heap.nodeText (Function.update fill id b)) := by
      intro l hl
      have hmap : l.map (h'.nodeText fill) = l.map (o.heap.nodeText (Function.update fill id b)) := by
        refine List.map_congr_left fun k hk => ?_
        obtain ⟨hne, hval⟩ := hothers k (hl k hk)
        rw [Heap.nodeText, Heap.nodeText, text_of_value hval, Function.update_of_ne hne]
      rw [List.flatMap_def, hmap, ← List.flatMap_def]
    have hselfText : h'.nodeText fill id = b ++ t := by rw [Heap.nodeText, text_of_raw hself, Option.getD_some]
    have hplace : o.heap.nodeText (Function.update fill id b) id = b := by
      rw [Heap.nodeText, Heap.text, hnull]
      exact Function.update_self ..
    have hbody : (before ++ id :: after).flatMap (h'.nodeText fill) =
        o.reply.flatMap (o.heap.nodeText (Function.update fill id b)) := by
      rw [hreply, List.flatMap_append, List.flatMap_append, List.flatMap_cons, List.flatMap_cons, List.flatMap_append,
        hselfText, hplace, hglued, hpart before (fun _ => .inl), hpart after (fun _ => .inr), List.append_assoc b t]
    rw [Output.rest, Output.rest, Output.body, Output.body]
    dsimp only
    rw [hbody]
  · rw [hreply, List.mem_append, List.mem_cons, List.mem_append]
    constructor
    · rintro ⟨hk, hval⟩
      exact ⟨⟨hk.imp_right fun h => .inr (.inr h), hval⟩, (hothers k hk).1⟩
    · rintro ⟨⟨hk, hval⟩, hne⟩
      refine ⟨?_, hval⟩
      rcases hk with hk | hk | hk | hk
      · exact .inl hk
      · exact absurd hk hne
      · exact absurd hval (hplain k hk)
      · exact .inr hk

/-- The text of the node behind a place, which would be glued to it. -/
def Output.nextText (o : Output) (id : Nat) : Option Bytes :=
  match o.reply.dropWhile (· ≠ id) with
  | _ :: next :: _ => o.heap.text next
  | _ => none

theorem takeWhile_dropWhile_place {before : List Nat} (h : id ∉ before) (after : List Nat) :
    (before ++ id :: after).takeWhile (· ≠ id) = before ∧
      (before ++ id :: after).dropWhile (· ≠ id) = id :: after := by
  have hall : ∀ k ∈ before, decide (k ≠ id) = true := fun k hk => decide_eq_true fun heq => h (heq ▸ hk)
  constructor
  · rw [List.takeWhile_append_of_pos hall, List.takeWhile_cons_of_neg (by simp), List.append_nil]
  · rw [List.dropWhile_append_of_pos hall, List.dropWhile_cons_of_neg (by simp)]

/-- The place `id` gets the line `b`, and takes in the text `t` of the nodes `glued` behind it: the next node, if that has a
    text. -/
structure Glues (outer : Nat → Nat) (o : Output) (id : Nat) (b : Bytes) (before glued after : List Nat) (t : Bytes)
    (h' : Heap) : Prop where
  reply : o.reply = before ++ id :: (glued ++ after)
  next : glued = [] ∧ t = [] ∧ (∀ next ∈ after.head?, o.heap.text next = none) ∨
    ∃ next, glued = [next] ∧ o.heap.text next = some t
  heap : HeapOk (refsOf outer (before ++ id :: after)) h'
  self : h'.value id = some (.raw (b ++ t))
  kept : ∀ k, k ≠ id → 0 < refsOf outer (before ++ id :: after) k → h'.value k = o.heap.value k

/-- What `setDeferredMultiBulkLength` does to the list. -/
theorem OutputOk.setDeferred_glues (hw : OutputOk outer o) (hid : id ∈ o.reply) (hnull : o.heap.value id = some .null)
    (length : Int) : ∃ before glued after t h', Glues outer o id (Output.numLine 42 length) before glued after t h' ∧
      o.setDeferredMultiBulkLength id length =
        if glued = [] ∨ (Output.numLine 42 length).length + t.length < 2 ^ 31 then
          some { o with heap := h', reply := before ++ id :: after } else none := by
  obtain ⟨before, behind, hreply⟩ := List.append_of_mem hid
  obtain ⟨hbefore, hbehind, -⟩ := hw.place_once hreply hnull
  obtain ⟨htake, hdrop⟩ := takeWhile_dropWhile_place hbefore behind
  obtain ⟨h₁, hset, hok₁, hself₁, hother₁⟩ := hw.heap.setRaw (refs_pos_of_mem outer hid) (Output.numLine 42 length)
  have hstays (hnone : ∀ next ∈ behind.head?, o.heap.text next = none) :
      Glues outer o id (Output.numLine 42 length) before [] behind [] h₁ :=
    ⟨hreply, .inl ⟨rfl, rfl, hnone⟩, hreply ▸ hok₁, (List.append_nil (Output.numLine 42 length)).symm ▸ hself₁,
      fun k hk _ => hother₁ k hk⟩
  rw [Output.setDeferredMultiBulkLength, hset, Option.bind_some, Output.glueNext]
  dsimp only
  rw [hreply, hdrop]
  cases behind with
  | nil => exact ⟨before, [], [], [], h₁, hstays nofun, (if_pos (.inl rfl)).symm⟩
  | cons next after =>
    have hnmem : next ∈ o.reply := by
      rw [hreply]
      exact List.mem_append_right _ (List.mem_cons_of_mem _ List.mem_cons_self)
    obtain ⟨v, hv⟩ := hw.heap.value_isSome (refs_pos_of_mem outer hnmem)
    have htext : o.heap.text next = v.text := by rw [Heap.text, hv, Option.bind_some]
    dsimp only
    rw [hother₁ next fun heq => hbehind (heq ▸ List.mem_cons_self), hv]
    dsimp only
    cases hs : v.text with
    | none =>
      refine ⟨before, [], next :: after, [], h₁, hstays ?_, (if_pos (.inl rfl)).symm⟩
      rintro k ⟨⟩
      exact htext.trans hs
    | some s =>
      obtain ⟨h₂, hset₂, hok₂, hself₂, hother₂⟩ := hok₁.setRaw (refs_pos_of_mem outer hid)
        (Output.numLine 42 length ++ s)
      have hrefs : refsOf outer o.reply = bump (refsOf outer (before ++ id :: after)) next := by
        rw [← refsOf_cons, hreply]
        funext k
        simp only [refsOf, List.count_append, List.count_cons]
        omega
      rw [hrefs] at hok₂
      obtain ⟨h₃, hdecr, hok₃, hkeep₃⟩ := hok₂.decr
      refine ⟨before, [next], after, s, h₃, ⟨hreply, .inr ⟨next, rfl, htext.trans hs⟩, hok₃, ?_, fun k hk hpos => ?_⟩, ?_⟩
      · exact (hkeep₃ id (refs_pos_of_mem outer (List.mem_append_right _ List.mem_cons_self))).trans hself₂
      · rw [hkeep₃ k hpos, hother₂ k hk, hother₁ k hk]
      · dsimp only
        rw [sdsAppend]
        simp only [List.cons_ne_nil, false_or]
        split
        · rw [Option.bind_some, hset₂, Option.bind_some, hdecr, Option.map_some, htake]
        · rfl

/-- **`setDeferredMultiBulkLength`.** -/
theorem setDeferredMultiBulkLength_fills (hw : OutputOk outer o) (hid : id ∈ o.reply)
    (hnull : o.heap.value id = some .null)
    (hfits : ∀ s ∈ o.nextText id, (Output.numLine 42 length).length + s.length < 2 ^ 31) :
    ∃ o', o.setDeferredMultiBulkLength id length = some o' ∧ Fills outer o o' id (Output.numLine 42 length) := by
  obtain ⟨before, glued, after, t, h', hg, hset⟩ := hw.setDeferred_glues hid hnull length
  rw [Output.nextText, hg.reply, (takeWhile_dropWhile_place (hw.place_once hg.reply hnull).1 _).2] at hfits
  refine ⟨_, hset.trans (if_pos ?_), fills_of_place hw glued hg.reply hnull (fun fill => ?_) ?_ hg.heap hg.self hg.kept⟩ <;>
    rcases hg.next with ⟨rfl, rfl, -⟩ | ⟨next, rfl, hs⟩
  · exact .inl rfl
  · exact .inr (hfits t hs)
  · rfl
  · rw [List.flatMap_singleton, Heap.nodeText, hs, Option.getD_some]
  · intro k hk
    cases hk
  · intro k hk hplace
    rw [List.mem_singleton.mp hk] at hplace
    rw [Heap.text, hplace] at hs
    cases hs

/-! ### A deferred length and what follows it -/

/-- Behind a text that can be anything there is only one thing. -/
theorem behind_unique {a b c d : Bytes} (h : ∀ x, a ++ (x ++ b) = c ++ (x ++ d)) : b = d := by
  wlog hlen : a.length ≤ c.length generalizing a b c d with H
  · exact (H (fun x => (h x).symm) (Nat.le_of_not_le hlen)).symm
  obtain ⟨m, rfl⟩ : a <+: c :=
    List.prefix_of_prefix_length_le (List.prefix_append a _) (h [] ▸ List.prefix_append c _) hlen
  cases m with
  | nil => simpa using h []
  | cons z m =>
    -- what `c` has more in front of the text would have to start with every byte
    have h0 := h [0]
    have h1 := h [1]
    simp only [List.append_assoc, List.cons_append, List.append_cancel_left_eq, List.cons.injEq] at h0 h1
    exact absurd (h0.1.trans h1.1.symm) (by decide)

/-- A place has no influence on nodes that are others. -/
theorem flatMap_update {l : List Nat} (hid : id ∉ l) (h : Heap) (fill : Nat → Bytes) (x : Bytes) :
    l.flatMap (h.nodeText (Function.update fill id x)) = l.flatMap (h.nodeText fill) := by
  have hmap : l.map (h.nodeText (Function.update fill id x)) = l.map (h.nodeText fill) := by
    refine List.map_congr_left fun k hk => ?_
    have hne : k ≠ id := fun heq => hid (heq ▸ hk)
    rw [Heap.nodeText, Heap.nodeText, Function.update_of_ne hne]
  rw [List.flatMap_def, hmap, ← List.flatMap_def]

theorem rest_update (hid : id ∉ o.reply) (fill : Nat → Bytes) (x : Bytes) :
    o.rest (Function.update fill id x) = o.rest fill := by
  rw [Output.rest, Output.rest, Output.body, Output.body, flatMap_update hid]

/-- The queue around an open place. -/
theorem OutputOk.rest_place (hw : OutputOk outer o) {before after : List Nat}
    (hreply : o.reply = before ++ id :: after) (hnull : o.heap.value id = some .null) (fill : Nat → Bytes) :
    ∃ a, ∀ x, o.rest (Function.update fill id x) = a ++ (x ++ after.flatMap (o.heap.nodeText fill)) := by
  obtain ⟨hbefore, hafter, -⟩ := hw.place_once hreply hnull
  have hplace : ∀ x, o.heap.nodeText (Function.update fill id x) id = x := by
    intro x
    rw [Heap.nodeText, Heap.text, hnull]
    exact Function.update_self ..
  have hbody : ∀ x, o.body (Function.update fill id x) =
      before.flatMap (o.heap.nodeText fill) ++ (x ++ after.flatMap (o.heap.nodeText fill)) := by
    intro x
    rw [Output.body, hreply, List.flatMap_append, List.flatMap_cons, flatMap_update hbefore, flatMap_update hafter,
      hplace]
  -- an offset into the list is one into a node before the place
  have hsent : o.buf = [] → o.sentlen ≤ (before.flatMap (o.heap.nodeText fill)).length := by
    intro hbuf
    rcases hw.inHead hbuf with h0 | ⟨s, hs, hlt⟩
    · rw [h0]
      exact Nat.zero_le _
    · rw [Output.headText, hreply] at hs
      cases before with
      | nil =>
        rw [List.nil_append, List.head?_cons, Option.bind_some, Heap.text, hnull] at hs
        cases hs
      | cons k before =>
        rw [List.cons_append, List.head?_cons, Option.bind_some] at hs
        rw [List.flatMap_cons, Heap.nodeText, hs, List.length_append, Option.getD_some]
        omega
  by_cases hbuf : o.buf = []
  · refine ⟨(before.flatMap (o.heap.nodeText fill)).drop o.sentlen, fun x => ?_⟩
    rw [Output.rest, if_pos hbuf, hbody, List.drop_append_of_le_length (hsent hbuf)]
  · refine ⟨o.buf.drop o.sentlen ++ before.flatMap (o.heap.nodeText fill), fun x => ?_⟩
    rw [Output.rest, if_neg hbuf, hbody, List.append_assoc]

/-- The node behind a place is part of what was added behind it. -/
theorem OutputOk.nextText_le (hw : OutputOk outer o) (hid : id ∈ o.reply) (hnull : o.heap.value id = some .null)
    {fill : Nat → Bytes} {a b : Bytes} (hrest : ∀ x, o.rest (Function.update fill id x) = a ++ (x ++ b)) :
    ∀ s ∈ o.nextText id, s.length ≤ b.length := by
  obtain ⟨before, after, hreply⟩ := List.append_of_mem hid
  obtain ⟨c, hc⟩ := hw.rest_place hreply hnull fill
  have hb : b = after.flatMap (o.heap.nodeText fill) := behind_unique fun x => (hrest x).symm.trans (hc x)
  intro s hs
  rw [Output.nextText, hreply, (takeWhile_dropWhile_place (hw.place_once hreply hnull).1 after).2] at hs
  cases after with
  | nil => cases hs
  | cons next after =>
    have htext : o.heap.text next = some s := hs
    rw [hb, List.flatMap_cons, Heap.nodeText, htext, List.length_append, Option.getD_some]
    exact Nat.le_add_right ..

/-- A call queues the text `b`, whether or not the client is about to be closed. -/
structure Appends (outer : Nat → Nat) (o o' : Output) (b : Bytes) : Prop where
  wf : OutputOk outer o'
  rest : ∀ fill, o'.rest fill = o.rest fill ++ b
  closing : o'.closeAfterReply = o.closeAfterReply
  kept : ∀ id, 0 < outer id → o'.heap.value id = o.heap.value id

theorem Adds.appends {o' : Output} {b : Bytes} (h : Adds outer o o' b) :
    Appends outer o o' (if o.closeAfterReply then [] else b) :=
  ⟨h.wf, h.rest, h.closing, h.kept⟩

/-- **A list with a deferred length.** The length is added first and known last; what is queued is the length and then
    the text. The length is queued also when the client is about to be closed and the text is not. -/
theorem deferred_appends (hw : OutputOk outer o) {o₂ : Output} {b : Bytes}
    (h : Adds outer o.addDeferredMultiBulkLength.1 o₂ b)
    (hfits : (Output.numLine 42 length).length + b.length < 2 ^ 31) :
    ∃ o', o₂.setDeferredMultiBulkLength o.heap.nextObj length = some o' ∧
      Appends outer o o' (Output.numLine 42 length ++ if o.closeAfterReply then [] else b) := by
  obtain ⟨-, hrest₁, hkept₁, hplaces₁⟩ := addDeferredMultiBulkLength_spec hw
  have hfresh : o.heap.nextObj ∉ o.reply := fun hmem => lt_irrefl _ (hw.heap.lt (refs_pos_of_mem outer hmem))
  have hrest₂ : ∀ fill x, o₂.rest (Function.update fill o.heap.nextObj x) =
      o.rest fill ++ (x ++ if o.closeAfterReply then [] else b) := by
    intro fill x
    rw [h.rest, hrest₁, rest_update hfresh, Function.update_self, List.append_assoc]
    rfl
  have hshort : (if o.closeAfterReply then [] else b).length ≤ b.length := by
    split
    · exact Nat.zero_le _
    · exact le_rfl
  obtain ⟨hmem, hnull⟩ := (h.places o.heap.nextObj).mpr ((hplaces₁ o.heap.nextObj).mpr (.inr rfl))
  have hnext := h.wf.nextText_le hmem hnull (hrest₂ fun _ => [])
  obtain ⟨o', hset, hfills⟩ := setDeferredMultiBulkLength_fills h.wf hmem hnull
    fun s hs => lt_of_le_of_lt (Nat.add_le_add_left ((hnext s hs).trans hshort) _) hfits
  refine ⟨o', hset, hfills.wf, fun fill => ?_, hfills.closing.trans h.closing, fun k hk => ?_⟩
  · rw [hfills.rest, hrest₂]
  · rw [hfills.kept k hk, h.kept k hk, hkept₁ k hk]

end

end Prez
