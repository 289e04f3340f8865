import Prez.Client.Calls
import Prez.Lib.Run

/-!
# `Prez.Client.Fifo` — the reply queue is a lossless FIFO

The abstract queue is a list of segments in call order: the text of each reply, and a place for each deferred
length that is not known yet. Every reply function appends to what is still to be sent (`Adds`),
`sendReplyToClient` moves bytes from its front to the socket (`Sends`), and `setDeferredMultiBulkLength` fills
one place. `reply_fifo` is the result over all interleavings, with other holders of the objects taking and
giving back their references in between.
-/

namespace Prez

open Lib

section

variable {outer : Nat → Nat} {o : Output}

/-! ## Sending -/

/-- Bytes move from the front of the queue to the socket; no place is open before or after. -/
structure Sends (outer : Nat → Nat) (o o' : Output) : Prop where
  wf : OutputOk outer o'
  full : ∀ k ∈ o'.reply, o'.heap.value k ≠ some .null
  moved : ∀ fill, o'.socket ++ o'.rest fill = o.socket ++ o.rest fill
  closing : o'.closeAfterReply = o.closeAfterReply
  kept : ∀ k, 0 < outer k → o'.heap.value k = o.heap.value k

theorem Sends.refl (hw : OutputOk outer o) (hfull : ∀ k ∈ o.reply, o.heap.value k ≠ some .null) : Sends outer o o :=
  ⟨hw, hfull, fun _ => rfl, rfl, fun _ _ => rfl⟩

theorem Sends.trans {o₁ o₂ : Output} (h₁ : Sends outer o o₁) (h₂ : Sends outer o₁ o₂) : Sends outer o o₂ :=
  ⟨h₂.wf, h₂.full, fun fill => (h₂.moved fill).trans (h₁.moved fill), h₂.closing.trans h₁.closing, fun k hk =>
    (h₂.kept k hk).trans (h₁.kept k hk)⟩

/-- A node that is no open place has a text. -/
theorem OutputOk.node_text (hw : OutputOk outer o) {k : Nat} (hk : k ∈ o.reply) (hfull : o.heap.value k ≠ some .null) :
    ∃ s, o.heap.text k = some s := by
  obtain ⟨v, hv⟩ := hw.heap.value_isSome (refs_pos_of_mem outer hk)
  rw [Heap.text, hv]
  cases v with
  | null => exact absurd hv hfull
  | int n => exact absurd hv (hw.nodes k hk n)
  | raw s => exact ⟨s, rfl⟩
  | embstr s => exact ⟨s, rfl⟩

/-- The head of the list goes when the last of it was written. -/
theorem delFirst_sends (hw : OutputOk outer o) (hfull : ∀ k ∈ o.reply, o.heap.value k ≠ some .null) (hbuf : o.buf = [])
    {id : Nat} {after : List Nat} (hreply : o.reply = id :: after) {s : Bytes} (hs : o.heap.text id = some s) :
    ∃ o', Output.delFirst { o with socket := o.socket ++ s.drop o.sentlen, sentlen := 0 } = some o' ∧
      Sends outer o o' ∧ o'.buf = [] := by
  have hheap := hw.heap
  rw [hreply, refsOf_cons] at hheap
  obtain ⟨h', hdecr, hok, hkeep⟩ := hheap.decr
  have hnode : ∀ k ∈ after, h'.value k = o.heap.value k := fun k hk => hkeep k (refs_pos_of_mem outer hk)
  have hold : ∀ k ∈ after, k ∈ o.reply := fun k hk => hreply ▸ List.mem_cons_of_mem _ hk
  have hsent : o.sentlen ≤ s.length := by
    rcases hw.inHead hbuf with h0 | ⟨t, ht, hlt⟩
    · rw [h0]
      exact Nat.zero_le _
    · rw [Output.headText, hreply] at ht
      cases hs.symm.trans ht
      exact hlt.le
  refine ⟨{ o with heap := h', reply := after, socket := o.socket ++ s.drop o.sentlen, sentlen := 0 }, ?_,
    ⟨⟨hok, fun k hk v h => ?_, fun k hk h => ?_, hw.room, fun h => absurd hbuf h, fun _ => .inl rfl⟩, fun k hk h => ?_,
      fun fill => ?_, rfl, fun k hk => hkeep k (refs_pos_of_outer _ hk)⟩, hbuf⟩
  · rw [Output.delFirst]
    dsimp only
    rw [hreply]
    dsimp only
    rw [hdecr, Option.map_some]
  · exact hw.nodes k (hold k hk) v ((hnode k hk).symm.trans h)
  · exact hw.held k hk ((hkeep k (refs_pos_of_outer _ hk)).symm.trans h)
  · exact hfull k (hold k hk) ((hnode k hk).symm.trans h)
  · have hbody : after.flatMap (h'.nodeText fill) = after.flatMap (o.heap.nodeText fill) :=
      flatMap_congr_value hnode fill
    rw [Output.rest, Output.rest, Output.body, Output.body]
    dsimp only
    rw [if_pos hbuf, if_pos hbuf, hbody, hreply, List.flatMap_cons, Heap.nodeText, hs, Option.getD_some,
      List.drop_append_of_le_length hsent, List.drop_zero, List.append_assoc]

/-- Empty nodes go without a byte. -/
theorem delEmpty_sends (count : Nat) : ∀ {o : Output}, OutputOk outer o → (∀ k ∈ o.reply, o.heap.value k ≠ some .null) →
    o.buf = [] → ∃ o', Output.delEmpty count o = some o' ∧ Sends outer o o' := by
  induction count with
  | zero => exact fun hw hfull _ => ⟨_, rfl, .refl hw hfull⟩
  | succ count ih =>
    intro o hw hfull hbuf
    rw [Output.delEmpty]
    cases hreply : o.reply with
    | nil => exact ⟨o, rfl, .refl hw hfull⟩
    | cons id after =>
      obtain ⟨s, hs⟩ := hw.node_text (hreply ▸ List.mem_cons_self ..) (hfull id (hreply ▸ List.mem_cons_self ..))
      dsimp only
      rw [hs, Option.bind_some]
      split
      · rename_i hempty
        obtain ⟨o₁, hdel, hsends, hbuf₁⟩ := delFirst_sends hw hfull hbuf hreply hs
        -- an empty object leaves no offset
        have hzero : o.sentlen = 0 := by
          rcases hw.inHead hbuf with h0 | ⟨t, ht, hlt⟩
          · exact h0
          · rw [Output.headText, hreply] at ht
            cases hs.symm.trans ht
            rw [hempty] at hlt
            exact absurd hlt (Nat.not_lt_zero _)
        have hsame : { o with socket := o.socket ++ s.drop o.sentlen, sentlen := 0 } = o := by
          rw [hempty, List.drop_nil, List.append_nil, ← hzero]
        rw [hsame] at hdel
        obtain ⟨o₂, hdel₂, hsends₂⟩ := ih hsends.wf hsends.full hbuf₁
        exact ⟨o₂, by rw [hdel, Option.bind_some, hdel₂], hsends.trans hsends₂⟩
      · exact ⟨o, rfl, .refl hw hfull⟩

/-- The part of a string from an offset on is what one `write` takes and what is behind it. -/
theorem take_drop_append (s : Bytes) (i n : Nat) : (s.drop i).take n ++ s.drop (i + n) = s.drop i := by
  rw [← List.drop_drop, List.take_append_drop]

/-- **One `write`.** -/
theorem writeOnce_sends (hw : OutputOk outer o) (hfull : ∀ k ∈ o.reply, o.heap.value k ≠ some .null)
    (hsome : ¬(o.buf = [] ∧ o.reply = [])) (room : Nat) :
    ∃ o' n, o.writeOnce room = some (o', n) ∧ Sends outer o o' := by
  unfold Output.writeOnce
  by_cases hbuf : o.buf = []
  · obtain ⟨id, after, hreply⟩ := List.exists_cons_of_ne_nil fun h => hsome ⟨hbuf, h⟩
    obtain ⟨s, hs⟩ := hw.node_text (hreply ▸ List.mem_cons_self ..) (hfull id (hreply ▸ List.mem_cons_self ..))
    have hhead : o.reply.head? = some id := by rw [hreply, List.head?_cons]
    rw [if_neg (not_not.mpr hbuf), hhead, Option.bind_some, hs, Option.bind_some]
    dsimp only
    generalize hn : min room (s.length - o.sentlen) = n
    split
    · rename_i hall
      have htake : (s.drop o.sentlen).take n = s.drop o.sentlen := by
        rw [List.take_of_length_le]
        rw [List.length_drop]
        omega
      obtain ⟨o', hdel, hsends, -⟩ := delFirst_sends hw hfull hbuf hreply hs
      exact ⟨o', n, by rw [htake, hdel, Option.map_some], hsends⟩
    · rename_i hpart
      have hlt : o.sentlen + n < s.length := by
        rcases hw.inHead hbuf with h0 | ⟨t, ht, hlt⟩
        · omega
        · rw [Output.headText, hreply] at ht
          cases hs.symm.trans ht
          omega
      refine ⟨_, _, rfl, ⟨hw.heap, hw.nodes, hw.held, hw.room, fun h => absurd hbuf h, fun _ => .inr ⟨s, ?_, hlt⟩⟩,
        hfull, fun fill => ?_, rfl, fun _ _ => rfl⟩
      · exact (congrArg (·.bind o.heap.text) hhead).trans hs
      · rw [Output.rest, Output.rest, Output.body, Output.body]
        dsimp only
        rw [if_pos hbuf, if_pos hbuf, hreply, List.flatMap_cons, Heap.nodeText, hs, Option.getD_some,
          List.drop_append_of_le_length hlt.le, List.drop_append_of_le_length (by omega), List.append_assoc,
          ← List.append_assoc (List.take _ _), take_drop_append]
  · have hlt := hw.inBuf hbuf
    rw [if_pos hbuf]
    dsimp only
    generalize hn : min room (o.buf.length - o.sentlen) = n
    split
    · rename_i hall
      have htake : (o.buf.drop o.sentlen).take n = o.buf.drop o.sentlen := by
        rw [List.take_of_length_le]
        rw [List.length_drop]
        omega
      refine ⟨_, _, rfl, ⟨hw.heap, hw.nodes, hw.held, Nat.zero_le _, fun h => absurd rfl h, fun _ => .inl rfl⟩, hfull,
        fun fill => ?_, rfl, fun _ _ => rfl⟩
      rw [Output.rest, Output.rest, Output.body, Output.body, if_pos rfl, if_neg hbuf, htake, List.drop_zero,
        List.append_assoc]
    · refine ⟨_, _, rfl, ⟨hw.heap, hw.nodes, hw.held, hw.room, fun _ => ?_, fun h => absurd h hbuf⟩, hfull,
        fun fill => ?_, rfl, fun _ _ => rfl⟩
      · dsimp only
        omega
      · rw [Output.rest, Output.rest, Output.body, Output.body]
        dsimp only
        rw [if_neg hbuf, if_neg hbuf, List.append_assoc, ← List.append_assoc (List.take _ _), take_drop_append]

/-- The loop looks at the list only when the buffer is empty. -/
theorem skipEmpty_sends (hw : OutputOk outer o) (hfull : ∀ k ∈ o.reply, o.heap.value k ≠ some .null) :
    ∃ o', (if o.buf = [] then Output.delEmpty o.reply.length o else some o) = some o' ∧ Sends outer o o' := by
  split
  · rename_i hbuf
    exact delEmpty_sends _ hw hfull hbuf
  · exact ⟨o, rfl, .refl hw hfull⟩

/-- **The loop of `sendReplyToClient`** sends in order. -/
theorem sendLoop_sends (writes : List (Nat × Bool)) : ∀ (totwritten : Int) {o : Output}, OutputOk outer o →
    (∀ k ∈ o.reply, o.heap.value k ≠ some .null) →
    ∃ o', Output.sendLoop writes totwritten o = some o' ∧ Sends outer o o' := by
  induction writes with
  | nil =>
    intro totwritten o hw hfull
    obtain ⟨o₁, hdel, hsends⟩ := skipEmpty_sends hw hfull
    refine ⟨o₁, ?_, hsends⟩
    rw [Output.sendLoop, hdel, Option.bind_some]
    split <;> rfl
  | cons write writes ih =>
    obtain ⟨room, below⟩ := write
    intro totwritten o hw hfull
    obtain ⟨o₁, hdel, hsends⟩ := skipEmpty_sends hw hfull
    rw [Output.sendLoop, hdel, Option.bind_some]
    split
    · exact ⟨o₁, rfl, hsends⟩
    · rename_i hsome
      obtain ⟨o₂, n, hwrite, hsends₂⟩ := writeOnce_sends hsends.wf hsends.full hsome room
      dsimp only
      rw [hwrite, Option.bind_some]
      dsimp only
      split
      · exact ⟨o₂, rfl, hsends.trans hsends₂⟩
      split
      · exact ⟨o₂, rfl, hsends.trans hsends₂⟩
      · obtain ⟨o₃, hloop, hsends₃⟩ := ih ((totwritten + n).bmod (2 ^ 32)) hsends₂.wf hsends₂.full
        exact ⟨o₃, hloop, (hsends.trans hsends₂).trans hsends₃⟩

/-- **`sendReplyToClient`.** -/
theorem sendReplyToClient_sends (hw : OutputOk outer o) (hfull : ∀ k ∈ o.reply, o.heap.value k ≠ some .null)
    (writes : List (Nat × Bool)) : ∃ o', o.sendReplyToClient writes = some o' ∧ Sends outer o o' := by
  obtain ⟨o₁, hloop, hsends⟩ := sendLoop_sends writes 0 hw hfull
  rw [Output.sendReplyToClient, hloop, Option.map_some]
  refine ⟨_, rfl, ?_⟩
  split
  · rename_i hempty
    obtain ⟨hbuf, hreply⟩ := hempty
    have hw₁ := hsends.wf
    refine hsends.trans ⟨⟨hw₁.heap, hw₁.nodes, hw₁.held, hw₁.room, fun h => absurd hbuf h, fun _ => .inl rfl⟩,
      hsends.full, fun fill => ?_, rfl, fun _ _ => rfl⟩
    rw [Output.rest, Output.rest, Output.body, Output.body]
    dsimp only
    rw [if_pos hbuf, if_pos hbuf, hreply, List.flatMap_nil, List.drop_nil, List.drop_nil]
  · exact hsends

end

/-! ## The abstract queue -/

/-- What a client is owed: a text, or the place of a length that is not known yet. -/
inductive Segment where
  | text (b : Bytes)
  | place (id : Nat)
deriving DecidableEq

namespace Segment

def render (fill : Nat → Bytes) : Segment → Bytes
  | text b => b
  | place id => fill id

def isPlace : Segment → Bool
  | text _ => false
  | place _ => true

/-- The place `id` gets its text. -/
def settle (id : Nat) (b : Bytes) : Segment → Segment
  | text t => text t
  | place k => if k = id then text b else place k

theorem render_settle (fill : Nat → Bytes) (id : Nat) (b : Bytes) (seg : Segment) :
    (seg.settle id b).render fill = seg.render (Function.update fill id b) := by
  cases seg with
  | text t => rfl
  | place k =>
    by_cases hk : k = id
    · rw [settle, if_pos hk, hk]
      exact (Function.update_self id b fill).symm
    · rw [settle, if_neg hk]
      exact (Function.update_of_ne hk b fill).symm

theorem settle_eq_place {id k : Nat} {b : Bytes} {seg : Segment} :
    seg.settle id b = place k ↔ seg = place k ∧ k ≠ id := by
  cases seg with
  | text t => exact ⟨nofun, fun h => by cases h.1⟩
  | place j =>
    by_cases hj : j = id
    · rw [settle, if_pos hj]
      refine ⟨nofun, fun h => ?_⟩
      cases h.1
      exact absurd hj h.2
    · rw [settle, if_neg hj]
      refine ⟨fun h => ⟨h, ?_⟩, And.left⟩
      cases h
      exact hj

end Segment

/-- The byte stream when the open places are filled with `fill`. -/
def render (fill : Nat → Bytes) (ledger : List Segment) : Bytes := ledger.flatMap (Segment.render fill)

theorem render_concat (fill : Nat → Bytes) (ledger : List Segment) (seg : Segment) :
    render fill (ledger ++ [seg]) = render fill ledger ++ seg.render fill := by
  rw [render, List.flatMap_append, List.flatMap_singleton, render]

theorem render_settle (fill : Nat → Bytes) (id : Nat) (b : Bytes) (ledger : List Segment) :
    render fill (ledger.map (Segment.settle id b)) = render (Function.update fill id b) ledger := by
  have hfun : (fun seg => Segment.render fill (Segment.settle id b seg)) =
      Segment.render (Function.update fill id b) := funext fun seg => seg.render_settle fill id b
  rw [render, List.flatMap_map, hfun, render]

/-! ## Interleavings -/

/-- A call of a reply function. -/
inductive ReplyCall where
  | reply (id : Nat)
  | sds (s : Bytes)
  | string (s : Bytes)
  | longLongWithPrefix (ll : Int) (kind : UInt8)
  | multiBulkLen (length : Int)
  | bulkLen (id : Nat)
  | bulk (id : Nat)
  | bulkCBuffer (s : Bytes)
  | bulkCString (s : Option Bytes)
  | bulkLongLong (ll : Int)

/-- The text that stands for an object. -/
def Heap.payload (h : Heap) (id : Nat) : Bytes := ((h.value id).map ObjValue.payload).getD []

namespace ReplyCall

def exec (o : Output) : ReplyCall → Option Output
  | reply id => o.addReply id
  | sds s => o.addReplySds s
  | string s => o.addReplyString s
  | longLongWithPrefix ll kind => o.addReplyLongLongWithPrefix ll kind
  | multiBulkLen length => o.addReplyMultiBulkLen length
  | bulkLen id => o.addReplyBulkLen id
  | bulk id => o.addReplyBulk id
  | bulkCBuffer s => o.addReplyBulkCBuffer s
  | bulkCString s => o.addReplyBulkCString s
  | bulkLongLong ll => o.addReplyBulkLongLong ll

/-- What a call is for. -/
def payload (h : Heap) : ReplyCall → Bytes
  | reply id => h.payload id
  | sds s | string s => s
  | longLongWithPrefix ll kind => Output.numLine kind ll
  | multiBulkLen length => Output.numLine 42 length
  | bulkLen id => Output.numLine 36 (h.payload id).length
  | bulk id => bulkText (h.payload id)
  | bulkCBuffer s => bulkText s
  | bulkCString none => Output.numLine 36 (-1)
  | bulkCString (some s) => bulkText (cstr s)
  | bulkLongLong ll => bulkText (llText ll)

/-- The caller holds the object, numbers are in their type's range and lengths are not negative. -/
def Valid (outer : Nat → Nat) : ReplyCall → Prop
  | reply id | bulkLen id | bulk id => 0 < outer id
  | longLongWithPrefix ll kind => LongLong ll ∧ (kind = 42 ∨ kind = 36 → 0 ≤ ll)
  | multiBulkLen length => LongLong length ∧ 0 ≤ length
  | bulkLongLong ll => LongLong ll
  | sds _ | string _ | bulkCBuffer _ | bulkCString _ => True

/-- The string that is given fits into an sds. -/
def Fits (h : Heap) : ReplyCall → Prop
  | string s | bulkCBuffer s => s.length < 2 ^ 31
  | bulkCString (some s) => (cstr s).length < 2 ^ 31
  | bulkLen id | bulk id => (h.payload id).length < 2 ^ 31
  | reply _ | sds _ | longLongWithPrefix _ _ | multiBulkLen _ | bulkCString none | bulkLongLong _ => True

instance (outer : Nat → Nat) : (c : ReplyCall) → Decidable (c.Valid outer)
  | reply _ | bulkLen _ | bulk _ => inferInstanceAs (Decidable (_ < _))
  | longLongWithPrefix .. | multiBulkLen _ => inferInstanceAs (Decidable (_ ∧ _))
  | bulkLongLong ll => inferInstanceAs (Decidable (LongLong ll))
  | sds _ | string _ | bulkCBuffer _ | bulkCString _ => instDecidableTrue

instance (h : Heap) : (c : ReplyCall) → Decidable (c.Fits h)
  | string _ | bulkCBuffer _ | bulkCString (some _) | bulkLen _ | bulk _ => inferInstanceAs (Decidable (_ < _))
  | reply _ | sds _ | longLongWithPrefix .. | multiBulkLen _ | bulkCString none | bulkLongLong _ =>
    instDecidableTrue

end ReplyCall

/-- A client's output with what the proof counts beside it: the references held outside the list, and what was
    replied so far. -/
structure ReplyState where
  out : Output
  outer : Nat → Nat
  ledger : List Segment

inductive ReplyEvent where
  | create (v : ObjValue)
  | retain (id : Nat)
  | release (id : Nat)
  | call (c : ReplyCall)
  | defer
  | setDeferred (id : Nat) (length : Int)
  | close
  | send (writes : List (Nat × Bool))

namespace ReplyState

/-- A client that was just connected. -/
def fresh : ReplyState where
  out := ⟨Output.sharedHeap, [], 0, [], false, false, []⟩
  outer k := if k < Output.sharedCount then 1 else 0
  ledger := []

def step (s : ReplyState) : ReplyEvent → Option ReplyState
  | .create v =>
    let (heap, id) := s.out.heap.createObject v
    some { s with out := { s.out with heap }, outer := bump s.outer id }
  | .retain id =>
    (s.out.heap.incrRefCount id).map fun heap => { s with out := { s.out with heap }, outer := bump s.outer id }
  | .release id =>
    (s.out.heap.decrRefCount id).map fun heap =>
      { s with out := { s.out with heap }, outer := Function.update s.outer id (s.outer id - 1) }
  | .call c =>
    -- a reply to a client that is about to be closed is dropped
    (c.exec s.out).map fun out =>
      { s with out, ledger := if s.out.closeAfterReply then s.ledger else s.ledger ++ [.text (c.payload s.out.heap)] }
  | .defer =>
    let (out, id) := s.out.addDeferredMultiBulkLength
    some { s with out, ledger := s.ledger ++ [.place id] }
  | .setDeferred id length =>
    (s.out.setDeferredMultiBulkLength id length).map fun out =>
      { s with out, ledger := s.ledger.map (Segment.settle id (Output.numLine 42 length)) }
  | .close => some { s with out := { s.out with closeAfterReply := true } }
  | .send writes => (s.out.sendReplyToClient writes).map fun out => { s with out }

/-- How the functions may be used: objects are held by those that use them, a deferred length is set once, and
    before the event loop writes. -/
def Valid (s : ReplyState) : ReplyEvent → Prop
  | .create .null => False
  | .create (.int n) => LongLong n
  | .create _ | .close => True
  | .retain id => 0 < s.outer id
  | .release id => 0 < s.outer id ∧ (id < Output.sharedCount → 1 < s.outer id)
  | .call c => s.out.freed = false ∧ c.Valid s.outer
  | .defer => s.out.freed = false
  | .setDeferred id _ => s.out.freed = false ∧ Segment.place id ∈ s.ledger
  | .send _ => s.out.freed = false ∧ ∀ seg ∈ s.ledger, seg.isPlace = false

/-- No string is too long for an sds, also not a header with the string that it is glued to. -/
def Fits (s : ReplyState) : ReplyEvent → Prop
  | .call c => c.Fits s.out.heap
  | .setDeferred id length => ∀ b ∈ s.out.nextText id, (Output.numLine 42 length).length + b.length < 2 ^ 31
  | _ => True

instance (s : ReplyState) : (e : ReplyEvent) → Decidable (s.Valid e)
  | .create .null => instDecidableFalse
  | .create (.int n) => inferInstanceAs (Decidable (LongLong n))
  | .create (.raw _) | .create (.embstr _) | .close => instDecidableTrue
  | .retain _ => inferInstanceAs (Decidable (_ < _))
  | .release _ | .call _ | .setDeferred .. | .send _ => inferInstanceAs (Decidable (_ ∧ _))
  | .defer => inferInstanceAs (Decidable (_ = _))

instance (s : ReplyState) : (e : ReplyEvent) → Decidable (s.Fits e)
  | .call c => inferInstanceAs (Decidable (c.Fits s.out.heap))
  | .setDeferred id length =>
    inferInstanceAs (Decidable (∀ b ∈ s.out.nextText id, (Output.numLine 42 length).length + b.length < 2 ^ 31))
  | .create _ | .retain _ | .release _ | .defer | .close | .send _ => instDecidableTrue

end ReplyState

/-- What holds between the events: what was written and what is still there is what was replied, and the open
    places are those of the list. -/
structure QueueInv (s : ReplyState) : Prop where
  wf : OutputOk s.outer s.out
  shared : SharedOk s.outer s.out.heap
  longs : ∀ id n, 0 < s.outer id → s.out.heap.value id = some (.int n) → LongLong n
  stream : ∀ fill, s.out.socket ++ s.out.rest fill = render fill s.ledger
  places : ∀ id, Segment.place id ∈ s.ledger ↔ (id ∈ s.out.reply ∧ s.out.heap.value id = some .null)

namespace QueueInv

variable {s : ReplyState}

theorem fresh : QueueInv .fresh where
  wf :=
    { heap :=
        { live := fun id hid => by
            have hk : id < Output.sharedCount := by
              by_contra hk
              simp [refsOf, ReplyState.fresh, hk] at hid
            exact ⟨_, if_pos hk, by simp [refsOf, ReplyState.fresh, hk]⟩
          fresh := fun id hid => if_neg (not_lt.mpr hid)
          null := fun id hid => by
            simp only [Heap.value, ReplyState.fresh, Output.sharedHeap] at hid
            split at hid <;> cases hid }
      nodes := nofun
      held := fun id _ hid => by
        simp only [Heap.value, ReplyState.fresh, Output.sharedHeap] at hid
        split at hid <;> cases hid
      room := Nat.zero_le _
      inBuf := fun h => absurd rfl h
      inHead := fun _ => .inl rfl }
  shared k hk := by
    refine ⟨?_, ?_⟩
    · simp [ReplyState.fresh, hk]
    · simp [Heap.value, ReplyState.fresh, Output.sharedHeap, hk]
  longs id n _ hid := by
    simp only [Heap.value, ReplyState.fresh, Output.sharedHeap] at hid
    split at hid <;> cases hid
  stream _ := rfl
  places id := ⟨nofun, fun h => nomatch h.1⟩

section

variable (h : QueueInv s)

include h

/-- Only the references of others change. -/
theorem moves {outer' : Nat → Nat} {heap' : Heap} (hm : SameNodes s.outer outer' s.out heap')
    (hshared : ∀ k < Output.sharedCount, 0 < outer' k)
    (hlongs : ∀ id n, 0 < outer' id → heap'.value id = some (.int n) → LongLong n) :
    QueueInv { s with out := { s.out with heap := heap' }, outer := outer' } where
  wf := hm.wf
  shared k hk := ⟨hshared k hk, (hm.kept k (h.shared k hk).1 (hshared k hk)).trans (h.shared k hk).2⟩
  longs := hlongs
  stream fill := by
    rw [← h.stream fill]
    exact congrArg (s.out.socket ++ ·) (rest_setHeap hm.node fill)
  places id := (h.places id).trans (places_setHeap hm.node id).symm

theorem create {v : ObjValue} (hv : s.Valid (.create v)) :
    ∃ s', s.step (.create v) = some s' ∧ QueueInv s' := by
  have hnull : v ≠ .null := fun h => by
    rw [h] at hv
    exact hv
  obtain ⟨hm, hnew⟩ := h.wf.create hnull
  refine ⟨_, rfl, h.moves hm (fun k hk => ?_) fun id n hid hvalue => ?_⟩
  · exact bump_pos _ (h.shared k hk).1
  · by_cases hk : id = s.out.heap.nextObj
    · subst hk
      cases hnew.symm.trans hvalue
      exact hv
    · have hid' : 0 < s.outer id := by rwa [bump_of_ne _ hk] at hid
      exact h.longs id n hid' ((hm.kept id hid' hid).symm.trans hvalue)

theorem retain {id : Nat} (hid : 0 < s.outer id) :
    ∃ s', s.step (.retain id) = some s' ∧ QueueInv s' := by
  obtain ⟨heap', hincr, hm⟩ := h.wf.retain hid
  have hmono : ∀ k, 0 < bump s.outer id k → 0 < s.outer k := fun k hk => by
    by_cases hk' : k = id
    · rwa [hk']
    · rwa [bump_of_ne _ hk'] at hk
  refine ⟨_, by rw [ReplyState.step, hincr, Option.map_some], h.moves hm (fun k hk => ?_) fun k n hk hvalue => ?_⟩
  · exact bump_pos _ (h.shared k hk).1
  · exact h.longs k n (hmono k hk) ((hm.kept k (hmono k hk) hk).symm.trans hvalue)

theorem release {id : Nat} (hid : 0 < s.outer id)
    (hshared : id < Output.sharedCount → 1 < s.outer id) :
    ∃ s', s.step (.release id) = some s' ∧ QueueInv s' := by
  obtain ⟨heap', hdecr, hm⟩ := h.wf.releaseHeld hid
  have hmono : ∀ k, 0 < Function.update s.outer id (s.outer id - 1) k → 0 < s.outer k := fun k hk => by
    by_cases hk' : k = id
    · rwa [hk']
    · rwa [Function.update_of_ne hk'] at hk
  refine ⟨_, by rw [ReplyState.step, hdecr, Option.map_some], h.moves hm (fun k hk => ?_) fun k n hk hvalue => ?_⟩
  · by_cases hk' : k = id
    · rw [hk', Function.update_self]
      have := hshared (hk' ▸ hk)
      omega
    · rw [Function.update_of_ne hk']
      exact (h.shared k hk).1
  · exact h.longs k n (hmono k hk) ((hm.kept k (hmono k hk) hk).symm.trans hvalue)

/-- Every reply function has a result and adds its payload. -/
theorem exec_adds {c : ReplyCall} (hvalid : c.Valid s.outer) (hfits : c.Fits s.out.heap) :
    ∃ o', c.exec s.out = some o' ∧ Adds s.outer s.out o' (c.payload s.out.heap) := by
  -- the value of an object that the caller holds
  have hobj : ∀ id, 0 < s.outer id → ∃ v, s.out.heap.value id = some v ∧ s.out.heap.payload id = v.payload ∧
      ∀ n, v = .int n → LongLong n := by
    intro id hid
    obtain ⟨v, hv⟩ := h.wf.heap.value_isSome (refs_pos_of_outer _ hid)
    exact ⟨v, hv, by rw [Heap.payload, hv]; rfl, fun n hn => h.longs id n hid (hn ▸ hv)⟩
  cases c with
  | reply id =>
    obtain ⟨v, hv, hpay, hll⟩ := hobj id hvalid
    rw [ReplyCall.payload, hpay]
    exact addReply_adds h.wf hvalid hv hll
  | sds b => exact addReplySds_adds h.wf b
  | string b => exact addReplyString_adds h.wf hfits
  | longLongWithPrefix ll kind => exact addReplyLongLongWithPrefix_adds h.wf h.shared kind hvalid.1 hvalid.2
  | multiBulkLen length => exact addReplyMultiBulkLen_adds h.wf h.shared hvalid.1 hvalid.2
  | bulkLen id =>
    obtain ⟨v, hv, hpay, -⟩ := hobj id hvalid
    rw [ReplyCall.Fits, hpay] at hfits
    rw [ReplyCall.payload, hpay]
    exact addReplyBulkLen_adds h.wf h.shared hvalid hv hfits
  | bulk id =>
    obtain ⟨v, hv, hpay, hll⟩ := hobj id hvalid
    rw [ReplyCall.Fits, hpay] at hfits
    rw [ReplyCall.payload, hpay]
    exact addReplyBulk_adds h.wf h.shared hvalid hv hll hfits
  | bulkCBuffer b => exact addReplyBulkCBuffer_adds h.wf h.shared hfits
  | bulkCString b =>
    cases b with
    | none => exact addReply_shared h.wf h.shared (k := Output.nullbulkObj) (by decide)
    | some b => exact addReplyBulkCBuffer_adds h.wf h.shared hfits
  | bulkLongLong ll =>
    have hlen := llText_length hvalid
    rw [ReplyCall.exec, Output.addReplyBulkLongLong, ll2string_eq (by omega)]
    exact addReplyBulkCBuffer_adds h.wf h.shared (by omega)

theorem longs_kept {heap' : Heap} (hkept : ∀ k, 0 < s.outer k → heap'.value k = s.out.heap.value k)
    (id : Nat) (n : Int) (hid : 0 < s.outer id) (hv : heap'.value id = some (.int n)) : LongLong n :=
  h.longs id n hid ((hkept id hid).symm.trans hv)

/-- **A reply call** adds its bytes at the end. -/
theorem call {c : ReplyCall} (hvalid : c.Valid s.outer) (hfits : c.Fits s.out.heap) :
    ∃ s', s.step (.call c) = some s' ∧ QueueInv s' := by
  obtain ⟨o', hexec, hadds⟩ := h.exec_adds hvalid hfits
  rw [ReplyState.step, hexec, Option.map_some]
  refine ⟨_, rfl, hadds.wf, h.shared.kept hadds.kept, h.longs_kept hadds.kept,
    fun fill => ?_, fun id => ?_⟩
  · dsimp only
    rw [hadds.socket, hadds.rest, ← List.append_assoc, h.stream]
    split
    · exact List.append_nil _
    · exact (render_concat fill s.ledger (.text _)).symm
  · refine Iff.trans ?_ (hadds.places id).symm
    dsimp only
    split
    · exact h.places id
    · rw [← h.places id, List.mem_append, List.mem_singleton]
      exact or_iff_left nofun

theorem defer : ∃ s', s.step .defer = some s' ∧ QueueInv s' := by
  obtain ⟨hwf, hrest, hkept, hplaces⟩ := addDeferredMultiBulkLength_spec h.wf
  refine ⟨_, rfl, hwf, h.shared.kept hkept, h.longs_kept hkept, fun fill => ?_, fun id => ?_⟩
  · rw [render_concat, ← h.stream, List.append_assoc]
    exact congrArg (s.out.socket ++ ·) (hrest fill)
  · refine Iff.trans ?_ (hplaces id).symm
    rw [← h.places id, List.mem_append, List.mem_singleton, Segment.place.injEq]

/-- **A length fills its place.** -/
theorem setDeferred {id : Nat} {length : Int} (hopen : Segment.place id ∈ s.ledger)
    (hfits : s.Fits (.setDeferred id length)) : ∃ s', s.step (.setDeferred id length) = some s' ∧ QueueInv s' := by
  obtain ⟨hmem, hnull⟩ := (h.places id).mp hopen
  obtain ⟨o', hset, hfills⟩ := setDeferredMultiBulkLength_fills h.wf hmem hnull hfits
  rw [ReplyState.step, hset, Option.map_some]
  refine ⟨_, rfl, hfills.wf, h.shared.kept hfills.kept,
    h.longs_kept hfills.kept, fun fill => ?_, fun k => ?_⟩
  · dsimp only
    rw [hfills.socket, hfills.rest, h.stream, render_settle]
  · refine Iff.trans ?_ (hfills.places k).symm
    rw [← h.places k]
    dsimp only
    rw [List.mem_map]
    constructor
    · rintro ⟨seg, hseg, heq⟩
      obtain ⟨heq, hk⟩ := Segment.settle_eq_place.mp heq
      exact ⟨heq ▸ hseg, hk⟩
    · rintro ⟨hk, hne⟩
      exact ⟨_, hk, Segment.settle_eq_place.mpr ⟨rfl, hne⟩⟩

/-- **Sending** takes bytes from the front. -/
theorem send (hsettled : ∀ seg ∈ s.ledger, seg.isPlace = false) (writes : List (Nat × Bool)) :
    ∃ s', s.step (.send writes) = some s' ∧ QueueInv s' := by
  have hnone : ∀ id, Segment.place id ∉ s.ledger := fun id hid => by cases hsettled _ hid
  have hfull : ∀ k ∈ s.out.reply, s.out.heap.value k ≠ some .null := fun k hk hv => hnone k ((h.places k).mpr ⟨hk, hv⟩)
  obtain ⟨o', hsend, hsends⟩ := sendReplyToClient_sends h.wf hfull writes
  rw [ReplyState.step, hsend, Option.map_some]
  refine ⟨_, rfl, hsends.wf, h.shared.kept hsends.kept,
    h.longs_kept hsends.kept, fun fill => (hsends.moved fill).trans (h.stream fill), fun id => ?_⟩
  exact ⟨fun hid => absurd hid (hnone id), fun hid => absurd hid.2 (hsends.full id hid.1)⟩

theorem close : ∃ s', s.step .close = some s' ∧ QueueInv s' :=
  ⟨_, rfl, ⟨h.wf.heap, h.wf.nodes, h.wf.held, h.wf.room, h.wf.inBuf, h.wf.inHead⟩, h.shared, h.longs, h.stream,
    h.places⟩

/-- **Every event that may happen has a result and keeps the invariant.** -/
theorem step {e : ReplyEvent} (hvalid : s.Valid e) (hfits : s.Fits e) :
    ∃ s', s.step e = some s' ∧ QueueInv s' := by
  cases e with
  | create v => exact h.create hvalid
  | retain id => exact h.retain hvalid
  | release id => exact h.release hvalid.1 hvalid.2
  | call c => exact h.call hvalid.2 hfits
  | defer => exact h.defer
  | setDeferred id length => exact h.setDeferred hvalid.2 hfits
  | close => exact h.close
  | send writes => exact h.send hvalid.2 writes

end

/-- **The invariant holds along every run.** -/
theorem of_run (hr : RunBy ReplyState.step (fun s e => s.Valid e ∧ s.Fits e) .fresh s) : QueueInv s := by
  refine RunBy.invariant (fun s e s' hok hstep hs => ?_) hr fresh
  obtain ⟨s₁, hstep₁, hs₁⟩ := hs.step hok.1 hok.2
  cases hstep₁.symm.trans hstep
  exact hs₁

end QueueInv

theorem rest_of_empty {o : Output} (hbuf : o.buf = []) (hreply : o.reply = []) (fill : Nat → Bytes) :
    o.rest fill = [] := by
  rw [Output.rest, if_pos hbuf, Output.body, hreply, List.flatMap_nil, List.drop_nil]

/-- **The reply queue is a lossless FIFO.** In every state of every interleaving what was written is the
    beginning of what was replied in call order, with the deferred headers in their places, and all of it when
    the buffer and the list are empty. Nothing is replied once the client is about to be closed, headers
    apart, and every call has a result. -/
theorem reply_fifo {s : ReplyState} (hr : RunBy ReplyState.step (fun s e => s.Valid e ∧ s.Fits e) .fresh s) :
    (∀ fill, s.out.socket <+: render fill s.ledger) ∧
      (s.out.buf = [] → s.out.reply = [] → ∀ fill, s.out.socket = render fill s.ledger) ∧
      ∀ e, s.Valid e → s.Fits e → (s.step e).isSome := by
  have hinv := QueueInv.of_run hr
  refine ⟨fun fill => ⟨_, hinv.stream fill⟩, fun hbuf hreply fill => ?_, fun e hvalid hfits => ?_⟩
  · rw [← hinv.stream fill, rest_of_empty hbuf hreply, List.append_nil]
  · obtain ⟨s', hstep, -⟩ := hinv.step hvalid hfits
    rw [hstep]
    rfl

/-- A deferred length with two replies behind it, sent in three pieces. -/
def deferredEvents : List ReplyEvent :=
  [.create (.raw [104, 105]), .defer, .call (.bulk 66), .call (.string [43, 79, 75]), .setDeferred 67 2,
    .send [(3, true), (100, true)], .send [(100, true)]]

theorem reply_fifo_deferred : ∃ s, RunBy ReplyState.step (fun s e => s.Valid e ∧ s.Fits e) .fresh s ∧
    s.out.socket = Output.numLine 42 2 ++ bulkText [104, 105] ++ [43, 79, 75] ∧
    ∀ fill, s.out.socket = render fill s.ledger := by
  obtain ⟨s, hr, hv⟩ := run_of_exec ReplyState.step (fun s e => s.Valid e ∧ s.Fits e) .fresh deferredEvents
    (fun s => (s.out.socket, s.out.buf, s.out.reply))
    (Output.numLine 42 2 ++ bulkText [104, 105] ++ [43, 79, 75], [], []) (by decide +kernel)
  simp only [Prod.mk.injEq] at hv
  exact ⟨s, hr, hv.1, (reply_fifo hr).2.1 hv.2.1 hv.2.2⟩

/-- A header that makes the string behind it too long has no result. -/
theorem glueNext_none {o : Output} {id next : Nat} {after : List Nat} {header b : Bytes}
    (hdrop : o.reply.dropWhile (· ≠ id) = id :: next :: after) (htext : o.heap.text next = some b)
    (hlong : 2 ^ 31 ≤ header.length + b.length) : o.glueNext id header = none := by
  obtain ⟨v, hv, hvtext⟩ := Option.bind_eq_some_iff.mp htext
  have hglue : sdsAppend header b = none := if_neg (not_lt.mpr hlong)
  rw [Output.glueNext, hdrop]
  dsimp only
  rw [hv]
  dsimp only
  rw [hvtext]
  dsimp only
  rw [hglue, Option.bind_none]

/-- A deferred length is open, and the string `b` stands behind it. -/
def ReplyState.beforeGlue (b : Bytes) : ReplyState where
  out := { ReplyState.fresh.out with
    heap := ((Output.sharedHeap.createObject .null).1.createObject (.raw b)).1, reply := [66, 67] }
  outer := ReplyState.fresh.outer
  ledger := [.place 66, .text b]

theorem beforeGlue_run (b : Bytes) : RunBy ReplyState.step ReplyState.Valid .fresh (.beforeGlue b) := by
  have hdefer : ∃ s, ReplyState.fresh.step .defer = some s ∧ s.Valid (.call (.sds b)) ∧
      s.step (.call (.sds b)) = some (.beforeGlue b) := ⟨_, rfl, ⟨rfl, trivial⟩, rfl⟩
  obtain ⟨s, hstep, hvalid, hnext⟩ := hdefer
  exact .tail (.tail .refl ⟨.defer, rfl, hstep⟩) ⟨_, hvalid, hnext⟩

theorem beforeGlue_none {b : Bytes} (hb : 2 ^ 31 ≤ 4 + b.length) :
    (ReplyState.beforeGlue b).step (.setDeferred 66 0) = none := by
  have hheader : (Output.numLine 42 0).length = 4 := by decide +kernel
  rw [ReplyState.step, Output.setDeferredMultiBulkLength]
  obtain ⟨heap, hset, htext⟩ : ∃ heap, (ReplyState.beforeGlue b).out.heap.setRaw 66 (Output.numLine 42 0) = some heap ∧
      heap.text 67 = some b := ⟨_, rfl, rfl⟩
  rw [hset, Option.bind_some, glueNext_none rfl htext (by rw [hheader]; exact hb), Option.map_none]

theorem longString_none {b : Bytes} (hb : 2 ^ 31 ≤ b.length) :
    ReplyState.fresh.step (.call (.string b)) = none := by
  have hbuf : ReplyState.fresh.out.addReplyToBuffer b = (ReplyState.fresh.out, false) := by
    have hroom : b.length > replyChunkBytes - ReplyState.fresh.out.buf.length := by
      refine lt_of_le_of_lt (Nat.sub_le ..) ?_
      unfold replyChunkBytes
      omega
    rw [Output.addReplyToBuffer, if_neg (by decide), if_neg (by decide), if_pos hroom]
  have hcreate : ∀ heap : Heap, heap.createStringObject b = none := fun heap => if_neg (not_lt.mpr hb)
  have hlist : ReplyState.fresh.out.addReplyStringToList b = none := by
    rw [Output.addReplyStringToList, Output.addToList, if_neg (by decide), hcreate]
    rfl
  rw [ReplyState.step, ReplyCall.exec, Output.addReplyString, Output.bufferOr, hbuf]
  dsimp only
  rw [hlist, Option.map_none]

/-- A header and a string of 2³¹ − 4 bytes behind it make a string that is too long, and so is a string of 2³¹
    bytes. -/
theorem reply_overflows :
    (∃ s, RunBy ReplyState.step ReplyState.Valid .fresh s ∧ s.Valid (.setDeferred 66 0) ∧
      s.step (.setDeferred 66 0) = none) ∧
    ∃ b, ReplyState.fresh.Valid (.call (.string b)) ∧ ReplyState.fresh.step (.call (.string b)) = none := by
  refine ⟨⟨.beforeGlue (List.replicate (2 ^ 31 - 4) 0), beforeGlue_run _, ⟨rfl, List.mem_cons_self ..⟩,
    beforeGlue_none ?_⟩, List.replicate (2 ^ 31) 0, ⟨rfl, trivial⟩, ?_⟩
  · rw [List.length_replicate]
    omega
  · exact longString_none (by rw [List.length_replicate])

end Prez
