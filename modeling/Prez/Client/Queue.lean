import Prez.Client.Reply

/-!
# `Prez.Client.Queue` — what a reply adds to the buffer and the list

`Output.rest` is what the buffer and the list still hold, as a function of what the places of deferred lengths
will be filled with. `Adds` says of a call that it appends a text to it and touches nothing else.

That the text of a shared object is never changed rests on the reference counts. `HeapOk` says that every
object has at least the references that the list and its holders outside have, so an object with one
reference that stands in the list is held by nobody else.
-/

namespace Prez

open Lib

/-! ## Reference counts -/

/-- One more reference to an object. -/
def bump (refs : Nat → Nat) (id : Nat) : Nat → Nat := fun k => if k = id then refs k + 1 else refs k

theorem bump_self (refs : Nat → Nat) (id : Nat) : bump refs id id = refs id + 1 := if_pos rfl

theorem bump_of_ne (refs : Nat → Nat) {id k : Nat} (h : k ≠ id) : bump refs id k = refs k := if_neg h

theorem bump_pos {refs : Nat → Nat} {k : Nat} (id : Nat) (h : 0 < refs k) : 0 < bump refs id k := by
  unfold bump
  split
  · exact Nat.succ_pos _
  · exact h

/-- Every object that is referred to is there and counts the references. -/
structure HeapOk (refs : Nat → Nat) (h : Heap) : Prop where
  live : ∀ id, 0 < refs id → ∃ r, h.objs id = some r ∧ refs id ≤ r.refcount
  fresh : ∀ id, h.nextObj ≤ id → h.objs id = none
  null : ∀ id, h.value id = some .null → refs id ≤ 1

theorem Heap.value_set_self (h : Heap) (id : Nat) (r : Option Robj) : (h.set id r).value id = r.map (·.value) := by
  simp only [value, set, Function.update_self]

theorem Heap.value_set_of_ne (h : Heap) {id k : Nat} (r : Option Robj) (hk : k ≠ id) :
    (h.set id r).value k = h.value k := by
  simp only [value, set, Function.update_of_ne hk]

variable {outer : Nat → Nat} {id : Nat}

theorem Heap.value_eq {h : Heap} {r : Robj} (hr : h.objs id = some r) : h.value id = some r.value := by
  rw [value, hr, Option.map_some]

namespace HeapOk

variable {refs : Nat → Nat} {h : Heap}
variable {id : Nat}

/-- A held object is allocated. -/
theorem lt (hok : HeapOk refs h) (hid : 0 < refs id) : id < h.nextObj := by
  obtain ⟨r, hr, -⟩ := hok.live id hid
  by_contra hge
  rw [hok.fresh id (not_lt.mp hge)] at hr
  cases hr

theorem value_isSome (hok : HeapOk refs h) (hid : 0 < refs id) : ∃ v, h.value id = some v := by
  obtain ⟨r, hr, -⟩ := hok.live id hid
  exact ⟨_, Heap.value_eq hr⟩

/-- An object is created with the reference of its creator. -/
theorem create (hok : HeapOk refs h) (v : ObjValue) :
    HeapOk (bump refs h.nextObj) (h.createObject v).1 ∧ (h.createObject v).1.value h.nextObj = some v ∧
      ∀ k, 0 < refs k → (h.createObject v).1.value k = h.value k := by
  have hzero : refs h.nextObj = 0 := by
    by_contra hne
    exact absurd (hok.lt (Nat.pos_of_ne_zero hne)) (lt_irrefl _)
  have hself : (h.createObject v).1.value h.nextObj = some v := Heap.value_set_self ..
  refine ⟨⟨fun id hid => ?_, fun id hid => ?_, fun id hid => ?_⟩, hself, fun k hk => ?_⟩
  · by_cases hk : id = h.nextObj
    · subst hk
      exact ⟨⟨v, 1⟩, Function.update_self .., by rw [bump_self, hzero]⟩
    · rw [bump_of_ne refs hk] at hid ⊢
      obtain ⟨r, hr, hle⟩ := hok.live id hid
      exact ⟨r, (Function.update_of_ne hk ..).trans hr, hle⟩
  · have hlt : h.nextObj < id := hid
    exact (Function.update_of_ne hlt.ne' ..).trans (hok.fresh id hlt.le)
  · by_cases hk : id = h.nextObj
    · rw [hk, bump_self, hzero]
    · rw [bump_of_ne refs hk]
      exact hok.null id ((Heap.value_set_of_ne h _ hk).symm.trans hid)
  · exact Heap.value_set_of_ne h _ (hok.lt hk).ne

/-- **`incrRefCount`** is one more reference. -/
theorem incr (hok : HeapOk refs h) (hid : 0 < refs id) (hnull : h.value id ≠ some .null) :
    ∃ h', h.incrRefCount id = some h' ∧ HeapOk (bump refs id) h' ∧ ∀ k, h'.value k = h.value k := by
  obtain ⟨r, hr, hle⟩ := hok.live id hid
  have hvalue : ∀ k, (h.set id (some { r with refcount := r.refcount + 1 })).value k = h.value k := by
    intro k
    by_cases hk : k = id
    · rw [hk, Heap.value_set_self, Heap.value_eq hr]
      rfl
    · exact Heap.value_set_of_ne h _ hk
  refine ⟨_, by rw [Heap.incrRefCount, hr, Option.map_some], ⟨fun k hk => ?_, fun k hk => ?_, fun k hk => ?_⟩, hvalue⟩
  · by_cases hk' : k = id
    · subst hk'
      exact ⟨_, Function.update_self .., by rw [bump_self]; exact Nat.succ_le_succ hle⟩
    · rw [bump_of_ne refs hk'] at hk ⊢
      obtain ⟨r', hr', hle'⟩ := hok.live k hk
      exact ⟨r', (Function.update_of_ne hk' ..).trans hr', hle'⟩
  · have hne : k ≠ id := fun heq => by
      have := hok.lt hid
      rw [← heq] at this
      exact absurd (show h.nextObj ≤ k from hk) (not_le.mpr this)
    exact (Function.update_of_ne hne ..).trans (hok.fresh k hk)
  · rw [hvalue] at hk
    have hne : k ≠ id := fun heq => hnull (heq ▸ hk)
    rw [bump_of_ne refs hne]
    exact hok.null k hk

/-- **`decrRefCount`** is one less, and what is still held stays. -/
theorem decr (hok : HeapOk (bump refs id) h) :
    ∃ h', h.decrRefCount id = some h' ∧ HeapOk refs h' ∧ ∀ k, 0 < refs k → h'.value k = h.value k := by
  have hpos : 0 < bump refs id id := by
    rw [bump_self]
    exact Nat.succ_pos _
  obtain ⟨r, hr, hle⟩ := hok.live id hpos
  rw [bump_self] at hle
  have hidlt := hok.lt hpos
  -- the other objects
  have hother : ∀ (x : Option Robj) k, k ≠ id → 0 < refs k →
      ∃ r', (h.set id x).objs k = some r' ∧ refs k ≤ r'.refcount := by
    intro x k hk hpos
    obtain ⟨r', hr', hle'⟩ := hok.live k (by rw [bump_of_ne refs hk]; exact hpos)
    rw [bump_of_ne refs hk] at hle'
    exact ⟨r', (Function.update_of_ne hk ..).trans hr', hle'⟩
  have hfresh : ∀ (x : Option Robj) k, h.nextObj ≤ k → (h.set id x).objs k = none := fun x k hk =>
    (Function.update_of_ne (hidlt.trans_le hk).ne' ..).trans (hok.fresh k hk)
  have hnull : ∀ (x : Option Robj) k, k ≠ id → (h.set id x).value k = some .null → refs k ≤ 1 := by
    intro x k hk hv
    rw [Heap.value_set_of_ne h x hk] at hv
    have := hok.null k hv
    rwa [bump_of_ne refs hk] at this
  have hne0 : r.refcount ≠ 0 := by omega
  rw [Heap.decrRefCount, hr, Option.bind_some, if_neg hne0]
  split
  · rename_i hone
    have hzero : refs id = 0 := by omega
    have hne : ∀ k, 0 < refs k → k ≠ id := fun k hk heq => by
      rw [heq, hzero] at hk
      exact absurd hk (lt_irrefl _)
    refine ⟨_, rfl, ⟨fun k hk => hother none k (hne k hk) hk, hfresh none, fun k hv => ?_⟩, fun k hk =>
      Heap.value_set_of_ne h _ (hne k hk)⟩
    by_cases hk : k = id
    · rw [hk, hzero]
      exact Nat.zero_le _
    · exact hnull none k hk hv
  · have hvalue : ∀ k, (h.set id (some { r with refcount := r.refcount - 1 })).value k = h.value k := by
      intro k
      by_cases hk : k = id
      · rw [hk, Heap.value_set_self, Heap.value_eq hr]
        rfl
      · exact Heap.value_set_of_ne h _ hk
    refine ⟨_, rfl, ⟨fun k hk => ?_, hfresh _, fun k hv => ?_⟩, fun k _ => hvalue k⟩
    · by_cases hk' : k = id
      · subst hk'
        exact ⟨_, Function.update_self .., by dsimp only; omega⟩
      · exact hother _ k hk' hk
    · by_cases hk : k = id
      · rw [hvalue] at hv
        have := hok.null k hv
        rw [hk, bump_self] at this
        rw [hk]
        omega
      · exact hnull _ k hk hv

/-- A string that grows in place. -/
theorem setRaw (hok : HeapOk refs h) (hid : 0 < refs id) (s : Bytes) :
    ∃ h', h.setRaw id s = some h' ∧ HeapOk refs h' ∧ h'.value id = some (.raw s) ∧
      ∀ k, k ≠ id → h'.value k = h.value k := by
  obtain ⟨r, hr, hle⟩ := hok.live id hid
  have hself : (h.set id (some { r with value := .raw s })).value id = some (.raw s) := Heap.value_set_self ..
  refine ⟨_, by rw [Heap.setRaw, hr, Option.map_some], ⟨fun k hk => ?_, fun k hk => ?_, fun k hv => ?_⟩, hself,
    fun k hk => Heap.value_set_of_ne h _ hk⟩
  · by_cases hk' : k = id
    · subst hk'
      exact ⟨_, Function.update_self .., hle⟩
    · obtain ⟨r', hr', hle'⟩ := hok.live k hk
      exact ⟨r', (Function.update_of_ne hk' ..).trans hr', hle'⟩
  · exact (Function.update_of_ne ((hok.lt hid).trans_le hk).ne' ..).trans (hok.fresh k hk)
  · by_cases hk : k = id
    · subst hk
      rw [hself] at hv
      cases hv
    · exact hok.null k ((Heap.value_set_of_ne h _ hk).symm.trans hv)

end HeapOk

/-! ## What is still to be sent -/

/-- The text of a node; `fill` is what the open places will hold. -/
def Heap.nodeText (h : Heap) (fill : Nat → Bytes) (id : Nat) : Bytes := (h.text id).getD (fill id)

namespace Output

/-- The text of the list. -/
def body (o : Output) (fill : Nat → Bytes) : Bytes := o.reply.flatMap (o.heap.nodeText fill)

/-- What is not sent yet. The offset belongs to the buffer as long as there is something in it. -/
def rest (o : Output) (fill : Nat → Bytes) : Bytes :=
  if o.buf = [] then (o.body fill).drop o.sentlen else o.buf.drop o.sentlen ++ o.body fill

def headText (o : Output) : Option Bytes := o.reply.head?.bind o.heap.text

end Output

theorem flatMap_congr_value {h h' : Heap} {l : List Nat} (hv : ∀ id ∈ l, h'.value id = h.value id)
    (fill : Nat → Bytes) :
    l.flatMap (h'.nodeText fill) = l.flatMap (h.nodeText fill) := by
  have hmap : l.map (h'.nodeText fill) = l.map (h.nodeText fill) := by
    refine List.map_congr_left fun id hid => ?_
    rw [Heap.nodeText, Heap.text, hv id hid]
    rfl
  rw [List.flatMap_def, hmap, ← List.flatMap_def]

/-- The references of the list and of the holders outside. -/
def refsOf (outer : Nat → Nat) (reply : List Nat) : Nat → Nat := fun id => outer id + reply.count id

/-- What holds of an output between calls; `outer` counts the references that others hold. -/
structure OutputOk (outer : Nat → Nat) (o : Output) : Prop where
  heap : HeapOk (refsOf outer o.reply) o.heap
  nodes : ∀ id ∈ o.reply, ∀ v, o.heap.value id ≠ some (.int v)
  held : ∀ id, 0 < outer id → o.heap.value id ≠ some .null
  room : o.buf.length ≤ replyChunkBytes
  inBuf : o.buf ≠ [] → o.sentlen < o.buf.length
  inHead : o.buf = [] → o.sentlen = 0 ∨ ∃ s, o.headText = some s ∧ o.sentlen < s.length

theorem refs_pos_of_mem (outer : Nat → Nat) {reply : List Nat} (h : id ∈ reply) : 0 < refsOf outer reply id :=
  Nat.lt_of_lt_of_le (List.count_pos_iff.mpr h) (Nat.le_add_left ..)

theorem refs_pos_of_outer (reply : List Nat) (h : 0 < outer id) : 0 < refsOf outer reply id :=
  Nat.lt_of_lt_of_le h (Nat.le_add_right ..)

/-- A reference goes from the hand into the list. -/
theorem refsOf_concat (outer : Nat → Nat) (reply : List Nat) (id : Nat) :
    refsOf outer (reply ++ [id]) = bump (refsOf outer reply) id := by
  funext k
  rw [refsOf, List.count_append, List.count_singleton]
  by_cases hk : k = id
  · rw [hk, bump_self, refsOf]
    simp
    omega
  · rw [bump_of_ne _ hk, refsOf, if_neg (by simpa using fun h => hk h.symm)]
    rfl

theorem refsOf_cons (outer : Nat → Nat) (reply : List Nat) (id : Nat) :
    refsOf outer (id :: reply) = bump (refsOf outer reply) id := by
  funext k
  rw [refsOf, List.count_cons]
  by_cases hk : k = id
  · rw [hk, bump_self, refsOf]
    simp
    omega
  · rw [bump_of_ne _ hk, refsOf, if_neg (by simpa using fun h => hk h.symm)]
    rfl

theorem refsOf_bump (outer : Nat → Nat) (reply : List Nat) (id : Nat) :
    refsOf (bump outer id) reply = bump (refsOf outer reply) id := by
  funext k
  by_cases hk : k = id
  · rw [hk, refsOf, bump_self, bump_self, refsOf]
    omega
  · rw [refsOf, bump_of_ne _ hk, bump_of_ne _ hk, refsOf]

namespace OutputOk

variable {outer : Nat → Nat} {o : Output}

/-- No more has been sent than there was. -/
theorem sentlen_le (hw : OutputOk outer o) (hbuf : o.buf = []) (fill : Nat → Bytes) :
    o.sentlen ≤ (o.body fill).length := by
  rcases hw.inHead hbuf with h0 | ⟨s, hs, hlt⟩
  · rw [h0]
    exact Nat.zero_le _
  · obtain ⟨id, hid, htext⟩ := Option.bind_eq_some_iff.mp hs
    obtain ⟨rest, hreply⟩ : ∃ rest, o.reply = id :: rest := by
      cases hl : o.reply with
      | nil =>
        rw [hl] at hid
        cases hid
      | cons a rest =>
        rw [hl] at hid
        cases hid
        exact ⟨rest, rfl⟩
    rw [Output.body, hreply, List.flatMap_cons, Heap.nodeText, htext, Option.getD_some, List.length_append]
    omega

/-- The offset stays inside the first node as long as that does not get shorter. -/
theorem inHead_of (hw : OutputOk outer o) (o' : Output) (hbuf : o.buf = []) (hsent : o'.sentlen = o.sentlen)
    (hhead : ∀ s, o.headText = some s → ∃ s', o'.headText = some s' ∧ s.length ≤ s'.length) :
    o'.sentlen = 0 ∨ ∃ s, o'.headText = some s ∧ o'.sentlen < s.length := by
  rw [hsent]
  rcases hw.inHead hbuf with h0 | ⟨s, hs, hlt⟩
  · exact .inl h0
  · obtain ⟨s', hs', hle⟩ := hhead s hs
    exact .inr ⟨s', hs', hlt.trans_le hle⟩

/-- Text that is added at the end of the list. -/
theorem rest_append (hw : OutputOk outer o) (o' : Output) {b : Bytes} (hbuf : o'.buf = o.buf)
    (hsent : o'.sentlen = o.sentlen)
    {fill : Nat → Bytes} (hbody : o'.body fill = o.body fill ++ b) : o'.rest fill = o.rest fill ++ b := by
  rw [Output.rest, Output.rest, hbuf, hsent, hbody]
  split
  · rename_i hnil
    exact List.drop_append_of_le_length (hw.sentlen_le hnil fill)
  · rw [List.append_assoc]

end OutputOk

/-! ## Replies -/

/-- A call adds the text `b` at the end, or nothing when the client is about to be closed. It leaves the objects of
    others and the open places alone. -/
structure Adds (outer : Nat → Nat) (o o' : Output) (b : Bytes) : Prop where
  wf : OutputOk outer o'
  rest : ∀ fill, o'.rest fill = o.rest fill ++ if o.closeAfterReply then [] else b
  socket : o'.socket = o.socket
  closing : o'.closeAfterReply = o.closeAfterReply
  freed : o'.freed = o.freed
  kept : ∀ id, 0 < outer id → o'.heap.value id = o.heap.value id
  places : ∀ id, (id ∈ o'.reply ∧ o'.heap.value id = some .null) ↔ (id ∈ o.reply ∧ o.heap.value id = some .null)

theorem Adds.refl {o : Output} (hw : OutputOk outer o) : Adds outer o o [] := by
  refine ⟨hw, fun fill => ?_, rfl, rfl, rfl, fun _ _ => rfl, fun _ => .rfl⟩
  split <;> exact (List.append_nil _).symm

theorem Adds.trans {o o₁ o₂ : Output} {a b : Bytes} (h₁ : Adds outer o o₁ a) (h₂ : Adds outer o₁ o₂ b) :
    Adds outer o o₂ (a ++ b) where
  wf := h₂.wf
  rest fill := by
    rw [h₂.rest, h₁.rest, h₁.closing, List.append_assoc]
    split <;> rfl
  socket := h₂.socket.trans h₁.socket
  closing := h₂.closing.trans h₁.closing
  freed := h₂.freed.trans h₁.freed
  kept id hid := (h₂.kept id hid).trans (h₁.kept id hid)
  places id := (h₂.places id).trans (h₁.places id)

/-- Nothing is added once the client is about to be closed. -/
theorem Adds.dropped {o : Output} (hw : OutputOk outer o) (hclose : o.closeAfterReply = true) (b : Bytes) :
    Adds outer o o b :=
  ⟨hw, fun _ => by rw [if_pos hclose, List.append_nil], rfl, rfl, rfl, fun _ _ => rfl, fun _ => .rfl⟩

section

variable {outer : Nat → Nat} {o : Output}

/-- The static buffer takes a reply whole or leaves it. -/
theorem addReplyToBuffer_spec (hw : OutputOk outer o) (s : Bytes) :
    ((o.addReplyToBuffer s).2 = true → Adds outer o (o.addReplyToBuffer s).1 s) ∧
      ((o.addReplyToBuffer s).2 = false → (o.addReplyToBuffer s).1 = o ∧ o.closeAfterReply = false) := by
  unfold Output.addReplyToBuffer
  split
  · rename_i hclose
    exact ⟨fun _ => .dropped hw hclose s, nofun⟩
  rename_i hopen
  have hopen' : o.closeAfterReply = false := by simpa using hopen
  split
  · exact ⟨nofun, fun _ => ⟨rfl, hopen'⟩⟩
  rename_i hreply
  split
  · exact ⟨nofun, fun _ => ⟨rfl, hopen'⟩⟩
  rename_i hfits
  refine ⟨fun _ => ?_, nofun⟩
  have hnil : o.reply = [] := not_not.mp hreply
  have hroom := hw.room
  have hbody : ∀ fill, o.body fill = [] := fun fill => by rw [Output.body, hnil]; rfl
  -- with an empty list the offset is inside the buffer
  have hzero : o.buf = [] → o.sentlen = 0 := fun hbuf => by
    rcases hw.inHead hbuf with h0 | ⟨t, ht, -⟩
    · exact h0
    · rw [Output.headText, hnil] at ht
      cases ht
  have hsent : o.sentlen ≤ o.buf.length := by
    by_cases hbuf : o.buf = []
    · rw [hzero hbuf]
      exact Nat.zero_le _
    · exact (hw.inBuf hbuf).le
  refine ⟨⟨hw.heap, hw.nodes, hw.held, ?_, fun hne => ?_, fun hempty => ?_⟩, fun fill => ?_, rfl, rfl, rfl,
    fun _ _ => rfl, fun _ => .rfl⟩
  · dsimp only
    rw [List.length_append]
    omega
  · dsimp only at hne ⊢
    rw [List.length_append]
    by_cases hbuf : o.buf = []
    · rw [hzero hbuf]
      rw [hbuf, List.nil_append] at hne
      have := List.length_pos_iff.mpr hne
      omega
    · have := hw.inBuf hbuf
      omega
  · exact .inl (hzero (List.append_eq_nil_iff.mp hempty).1)
  · rw [if_neg hopen, Output.rest, Output.rest]
    have hbody' : Output.body { o with buf := o.buf ++ s } fill = [] := hbody fill
    rw [hbody', hbody, List.append_nil, List.append_nil, List.drop_nil]
    dsimp only
    by_cases hbuf : o.buf = []
    · rw [if_pos hbuf, hbuf, hzero hbuf, List.nil_append, List.drop_zero]
      split
      · rename_i hs
        exact hs.symm
      · rfl
    · rw [if_neg hbuf, if_neg (by simp [hbuf]), List.drop_append_of_le_length hsent]

/-- What is needed of the object that a function adds to the list: a reference in hand, with the text `s`. -/
def MakesNode (refs : Nat → Nat) (h : Heap) (s : Bytes) (node : Heap → Option (Heap × Nat)) : Prop :=
  ∃ h' id, node h = some (h', id) ∧ HeapOk (bump refs id) h' ∧ h'.text id = some s ∧
    ∀ k, 0 < refs k → h'.value k = h.value k

variable {id : Nat} {h' : Heap} {s : Bytes}

theorem text_of_value {h h' : Heap} (hv : h'.value id = h.value id) : h'.text id = h.text id := by
  rw [Heap.text, hv]
  rfl

theorem text_of_raw {h : Heap} (hv : h.value id = some (.raw s)) : h.text id = some s := by
  rw [Heap.text, hv]
  rfl

/-- A new node at the end of the list. -/
theorem pushNode (hw : OutputOk outer o) {v : ObjValue} (hheap : HeapOk (bump (refsOf outer o.reply) id) h')
    (hv : h'.value id = some v) (hint : ∀ n, v ≠ .int n)
    (hkept : ∀ k, 0 < refsOf outer o.reply k → h'.value k = o.heap.value k) :
    OutputOk outer { o with heap := h', reply := o.reply ++ [id] } ∧
      (∀ fill, Output.rest { o with heap := h', reply := o.reply ++ [id] } fill = o.rest fill ++ h'.nodeText fill id) ∧
      ∀ k, (k ∈ o.reply ++ [id] ∧ h'.value k = some .null) ↔
        (k ∈ o.reply ∧ o.heap.value k = some .null) ∨ (k = id ∧ v = .null) := by
  have hnode : ∀ k ∈ o.reply, h'.value k = o.heap.value k := fun k hk => hkept k (refs_pos_of_mem outer hk)
  have hmem : ∀ k, k ∈ o.reply ++ [id] ↔ k ∈ o.reply ∨ k = id := fun k => by rw [List.mem_append, List.mem_singleton]
  refine ⟨⟨?_, fun k hk n hval => ?_, fun k hk hval => ?_, hw.room, hw.inBuf, fun hbuf => ?_⟩, fun fill => ?_,
    fun k => ?_⟩
  · rw [refsOf_concat]
    exact hheap
  · rcases (hmem k).mp hk with hk | rfl
    · exact hw.nodes k hk n ((hnode k hk).symm.trans hval)
    · exact hint n (Option.some.inj (hv.symm.trans hval))
  · exact hw.held k hk ((hkept k (refs_pos_of_outer _ hk)).symm.trans hval)
  · refine hw.inHead_of { o with heap := h', reply := _ } hbuf rfl fun s hs => ⟨s, ?_, le_rfl⟩
    obtain ⟨k, hk, hks⟩ := Option.bind_eq_some_iff.mp hs
    rw [Output.headText, List.head?_append, hk]
    exact (text_of_value (hnode k (List.mem_of_mem_head? hk))).trans hks
  · refine hw.rest_append { o with heap := h', reply := _ } rfl rfl ?_
    rw [Output.body, Output.body, List.flatMap_append, flatMap_congr_value hnode, List.flatMap_singleton]
  · rw [hmem]
    constructor
    · rintro ⟨hk | rfl, hval⟩
      · exact .inl ⟨hk, (hnode k hk).symm.trans hval⟩
      · exact .inr ⟨rfl, Option.some.inj (hv.symm.trans hval)⟩
    · rintro (⟨hk, hval⟩ | ⟨rfl, rfl⟩)
      · exact ⟨.inl hk, (hnode k hk).trans hval⟩
      · exact ⟨.inr rfl, hv⟩

theorem addNode_adds (hw : OutputOk outer o) (hopen : o.closeAfterReply = false)
    (hheap : HeapOk (bump (refsOf outer o.reply) id) h') (htext : h'.text id = some s)
    (hkept : ∀ k, 0 < refsOf outer o.reply k → h'.value k = o.heap.value k) :
    Adds outer o { o with heap := h', reply := o.reply ++ [id] } s := by
  obtain ⟨v, hv, hvtext⟩ := Option.bind_eq_some_iff.mp htext
  have hint : ∀ n, v ≠ .int n := fun n heq => by
    rw [heq] at hvtext
    cases hvtext
  have hnull : v ≠ .null := fun heq => by
    rw [heq] at hvtext
    cases hvtext
  obtain ⟨hok, hrest, hplaces⟩ := pushNode hw hheap hv hint hkept
  refine ⟨hok, fun fill => ?_, rfl, rfl, rfl, fun k hk => hkept k (refs_pos_of_outer _ hk), fun k => ?_⟩
  · rw [hrest, hopen, Heap.nodeText, htext]
    rfl
  · rw [hplaces]
    exact or_iff_left fun h => hnull h.2

/-- An object that nobody else holds takes the place of the nodes `mid`. The other nodes stay as they are. -/
theorem replaceNode (hw : OutputOk outer o) {before : List Nat} (mid after : List Nat) {u : Bytes}
    (hreply : o.reply = before ++ (mid ++ after)) (hheap : HeapOk (refsOf outer (before ++ id :: after)) h')
    (hself : h'.value id = some (.raw u))
    (hkeep : ∀ k, k ≠ id → 0 < refsOf outer (before ++ id :: after) k → h'.value k = o.heap.value k)
    (hbefore : id ∉ before) (hafter : id ∉ after) (houter : outer id = 0)
    (hhead : before = [] → ∀ s, o.headText = some s → s.length ≤ u.length) :
    OutputOk outer { o with heap := h', reply := before ++ id :: after } ∧
      (∀ k, k ∈ before ∨ k ∈ after → k ≠ id ∧ h'.value k = o.heap.value k) ∧
      (∀ k, 0 < outer k → h'.value k = o.heap.value k) ∧
      ∀ k, (k ∈ before ++ id :: after ∧ h'.value k = some .null) ↔
        (k ∈ before ∨ k ∈ after) ∧ o.heap.value k = some .null := by
  have hmem : ∀ k, k ∈ before ++ id :: after ↔ k = id ∨ (k ∈ before ∨ k ∈ after) := fun k => by
    rw [List.mem_append, List.mem_cons]
    exact or_left_comm
  have hothers : ∀ k, k ∈ before ∨ k ∈ after → k ≠ id ∧ h'.value k = o.heap.value k := by
    intro k hk
    have hne : k ≠ id := by
      rintro rfl
      exact hk.elim hbefore hafter
    exact ⟨hne, hkeep k hne (refs_pos_of_mem outer ((hmem k).mpr (.inr hk)))⟩
  have hold : ∀ k, k ∈ before ∨ k ∈ after → k ∈ o.reply := fun k hk => by
    rw [hreply, List.mem_append, List.mem_append]
    exact hk.imp_right .inr
  have hkept : ∀ k, 0 < outer k → h'.value k = o.heap.value k := by
    intro k hk
    have hne : k ≠ id := by
      rintro rfl
      rw [houter] at hk
      exact absurd hk (lt_irrefl _)
    exact hkeep k hne (refs_pos_of_outer _ hk)
  refine ⟨⟨hheap, fun k hk v hval => ?_, fun k hk hval => ?_, hw.room, hw.inBuf, fun hbuf => ?_⟩, hothers, hkept,
    fun k => ?_⟩
  · rcases (hmem k).mp hk with rfl | hk
    · cases hself.symm.trans hval
    · exact hw.nodes k (hold k hk) v ((hothers k hk).2.symm.trans hval)
  · exact hw.held k hk ((hkept k hk).symm.trans hval)
  · refine hw.inHead_of { o with heap := h', reply := _ } hbuf rfl fun s hs => ?_
    cases before with
    | nil => exact ⟨u, by rw [Output.headText]; exact text_of_raw hself, hhead rfl s hs⟩
    | cons k before =>
      rw [Output.headText, hreply] at hs
      exact ⟨s, (text_of_value (hothers k (.inl (List.mem_cons_self ..))).2).trans hs, le_rfl⟩
  · rw [hmem]
    constructor
    · rintro ⟨rfl | hk, hval⟩
      · cases hself.symm.trans hval
      · exact ⟨hk, (hothers k hk).2.symm.trans hval⟩
    · rintro ⟨hk, hval⟩
      exact ⟨.inr hk, (hothers k hk).2.trans hval⟩

/-- The last object of the list, with nobody else holding it, gets more text. -/
theorem appendLast_adds (hw : OutputOk outer o) (hopen : o.closeAfterReply = false) {init : List Nat} {tail id : Nat}
    {t s : Bytes} (hreply : o.reply = init ++ [tail]) (htail : o.heap.value tail = some (.raw t))
    (hheap : HeapOk (refsOf outer (init ++ [id])) h') (hself : h'.value id = some (.raw (t ++ s)))
    (hkeep : ∀ k, k ≠ id → 0 < refsOf outer (init ++ [id]) k → h'.value k = o.heap.value k) (hnot : id ∉ init)
    (houter : outer id = 0) : Adds outer o { o with heap := h', reply := init ++ [id] } s := by
  have hhead : init = [] → ∀ u, o.headText = some u → u.length ≤ (t ++ s).length := by
    rintro rfl u hu
    rw [Output.headText, hreply] at hu
    cases (text_of_raw htail).symm.trans hu
    rw [List.length_append]
    exact Nat.le_add_right ..
  obtain ⟨hok, hothers, hkept, hplaces⟩ := replaceNode hw [tail] [] hreply hheap hself hkeep hnot
    List.not_mem_nil houter hhead
  refine ⟨hok, fun fill => ?_, rfl, rfl, rfl, hkept, fun k => (hplaces k).trans ?_⟩
  · have hbody : Output.body { o with heap := h', reply := init ++ [id] } fill = o.body fill ++ s := by
      rw [Output.body, Output.body, hreply, List.flatMap_append, List.flatMap_append,
        flatMap_congr_value fun k hk => (hothers k (.inl hk)).2, List.flatMap_singleton, List.flatMap_singleton,
        Heap.nodeText, Heap.nodeText, text_of_raw hself, text_of_raw htail, Option.getD_some, Option.getD_some,
        List.append_assoc]
    rw [hopen]
    exact hw.rest_append { o with heap := h', reply := _ } rfl rfl hbody
  · rw [hreply, List.mem_append, List.mem_singleton]
    constructor
    · rintro ⟨hk | hk, hval⟩
      · exact ⟨.inl hk, hval⟩
      · cases hk
    · rintro ⟨hk | rfl, hval⟩
      · exact ⟨.inl hk, hval⟩
      · cases htail.symm.trans hval

/-- **`dupLastObjectIfNeeded`.** The last object afterwards has the same text and one reference, that of the list. -/
theorem dupLastObjectIfNeeded_spec (hw : OutputOk outer o) {init : List Nat} {tail : Nat}
    (hreply : o.reply = init ++ [tail]) :
    ∃ h' id, o.dupLastObjectIfNeeded = some ({ o with heap := h', reply := init ++ [id] }, id) ∧
      HeapOk (refsOf outer (init ++ [id])) h' ∧ id ∉ init ∧ outer id = 0 ∧
      ∀ k, k ≠ id → 0 < refsOf outer (init ++ [id]) k → h'.value k = o.heap.value k := by
  have htmem : tail ∈ o.reply := by
    rw [hreply]
    exact List.mem_append_right _ (List.mem_singleton_self _)
  obtain ⟨r, hr, hle⟩ := hw.heap.live tail (refs_pos_of_mem outer htmem)
  have hlast : o.reply.getLast? = some tail := by rw [hreply, List.getLast?_concat]
  unfold Output.dupLastObjectIfNeeded
  rw [hlast, Option.bind_some, hr, Option.bind_some]
  split
  · -- shared: a copy takes its place, and the list gives its reference back
    have hlt := hw.heap.lt (refs_pos_of_mem outer htmem)
    obtain ⟨hcreate, hnew, hkeep⟩ := hw.heap.create r.value
    have hfree : refsOf outer o.reply o.heap.nextObj = 0 := by
      by_contra hne
      exact absurd (hw.heap.lt (Nat.pos_of_ne_zero hne)) (lt_irrefl _)
    have hnot : o.heap.nextObj ∉ init := fun hmem => by
      have hpos : 0 < refsOf outer o.reply o.heap.nextObj :=
        refs_pos_of_mem outer (by rw [hreply]; exact List.mem_append_left _ hmem)
      omega
    have houter : outer o.heap.nextObj = 0 := by
      rw [refsOf] at hfree
      omega
    -- the same references, counted from the new list
    have hrefs : bump (refsOf outer o.reply) o.heap.nextObj =
        bump (refsOf outer (init ++ [o.heap.nextObj])) tail := by
      rw [hreply, refsOf_concat, refsOf_concat]
      funext k
      simp only [bump]
      split_ifs <;> rfl
    rw [hrefs] at hcreate
    obtain ⟨h', hdecr, hok, hkeep'⟩ := hcreate.decr
    refine ⟨h', o.heap.nextObj, ?_, hok, hnot, houter, fun k hk hpos => ?_⟩
    · have hcopy : o.heap.createObject r.value = ((o.heap.createObject r.value).1, o.heap.nextObj) := rfl
      rw [hcopy]
      simp only [hdecr, Option.map_some, hreply, List.dropLast_concat]
    · have hpos' : 0 < refsOf outer o.reply k := by
        rw [refsOf_concat, bump_of_ne _ hk] at hpos
        rw [hreply, refsOf_concat]
        exact bump_pos tail hpos
      rw [hkeep' k hpos, hkeep k hpos']
  · rename_i hone
    refine ⟨o.heap, tail, by rw [← hreply], by rw [← hreply]; exact hw.heap, ?_, ?_, fun k _ _ => rfl⟩
    · intro hmem
      rw [hreply, refsOf, List.count_append, List.count_singleton_self] at hle
      have := List.count_pos_iff.mpr hmem
      omega
    · rw [hreply, refsOf, List.count_append, List.count_singleton_self] at hle
      omega

/-- **The functions that add to the list.** -/
theorem addToList_adds (hw : OutputOk outer o) {node : Heap → Option (Heap × Nat)}
    (hnode : o.closeAfterReply = false → MakesNode (refsOf outer o.reply) o.heap s node) :
    ∃ o', o.addToList s node = some o' ∧ Adds outer o o' s := by
  unfold Output.addToList
  dsimp only
  split
  · rename_i hclose
    exact ⟨o, rfl, .dropped hw hclose s⟩
  rename_i hopen
  have hopen' : o.closeAfterReply = false := by simpa using hopen
  obtain ⟨h', id, hmake, hheap, htext, hkept⟩ := hnode hopen'
  have hadd : ∃ o', ((node o.heap).map fun r => { o with heap := r.1, reply := o.reply ++ [r.2] }) = some o' ∧
      Adds outer o o' s := ⟨_, by rw [hmake]; rfl, addNode_adds hw hopen' hheap htext hkept⟩
  split
  · exact hadd
  · rename_i tail hlast
    obtain ⟨init, hreply⟩ := List.getLast?_eq_some_iff.mp hlast
    obtain ⟨v, hv⟩ := hw.heap.value_isSome (refs_pos_of_mem outer (List.mem_of_getLast? hlast))
    rw [hv]
    cases v with
    | null => exact hadd
    | embstr t => exact hadd
    | int v => exact hadd
    | raw t =>
      dsimp only
      split
      · obtain ⟨h₁, last, hdup, hok, hnot, houter, hkeep⟩ := dupLastObjectIfNeeded_spec hw hreply
        have hlast' : last ∈ init ++ [last] := List.mem_append_right _ (List.mem_singleton_self _)
        obtain ⟨h₂, hset, hok₂, hself, hother⟩ := hok.setRaw (refs_pos_of_mem outer hlast') (t ++ s)
        refine ⟨_, by rw [hdup, Option.bind_some]; dsimp only; rw [hset, Option.map_some], ?_⟩
        exact appendLast_adds hw hopen' hreply hv hok₂ hself (fun k hk hpos => by rw [hother k hk, hkeep k hk hpos])
          hnot houter
      · exact hadd

end

end Prez
