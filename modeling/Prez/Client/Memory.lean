import Prez.Client.Charge

/-!
# `Prez.Client.Memory` — the accounting of a client's output over whole runs

A client's output changes by reply calls, which are sequences of calls of three functions, by deferred lengths and by sends;
the objects in it are shared with holders that create, retain and release them in between. Every event keeps the counter
equal to the sum over the list (`MemoryInv.step`). `output_accounting` is the result over all runs.

No string is assumed to be short: one that is too long for an sds has no result (`QueueInv.basicCall`).
-/

namespace Prez

open Lib

/-! ## Calls -/

namespace ReplyCall

/-- `addReply`, `addReplySds` and `addReplyString`. -/
def Basic : ReplyCall → Prop
  | reply _ | sds _ | string _ => True
  | _ => False

variable {outer : Nat → Nat} {h : Heap}

/-- A call that the account has a case for, with an object that the caller holds. -/
def Good (outer : Nat → Nat) (c : ReplyCall) : Prop := c.Basic ∧ c.Valid outer

theorem good_shared (hs : SharedOk outer h) {k : Nat} (hk : k < Output.sharedCount) : Good outer (.reply k) :=
  ⟨trivial, (hs k hk).1⟩

variable {cs : List ReplyCall}

theorem good_header {hdr : Int → Option Nat} (hhdr : ∀ n k, hdr n = some k → k < Output.sharedCount)
    (hs : SharedOk outer h) {n : Int} (hcs : (hdr n).map (fun id => [.reply id]) = some cs) :
    ∀ c ∈ cs, Good outer c := by
  obtain ⟨k, hk, rfl⟩ := Option.map_eq_some_iff.mp hcs
  intro c hc
  rw [List.mem_singleton.mp hc]
  exact good_shared hs (hhdr n k hk)

theorem mbulkhdrObj_lt (n : Int) (k : Nat) (h : Output.mbulkhdrObj n = some k) : k < Output.sharedCount := by
  unfold Output.mbulkhdrObj at h
  split at h
  · cases h
    unfold Output.sharedCount Output.sharedBulkhdrLen at *
    omega
  · cases h

theorem bulkhdrObj_lt (n : Int) (k : Nat) (h : Output.bulkhdrObj n = some k) : k < Output.sharedCount := by
  unfold Output.bulkhdrObj at h
  split at h
  · cases h
    unfold Output.sharedCount Output.sharedBulkhdrLen at *
    omega
  · cases h

theorem numberParts_good (hs : SharedOk outer h) {ll : Int} {kind : UInt8} (hcs : numberParts ll kind = some cs) :
    ∀ c ∈ cs, Good outer c := by
  unfold numberParts at hcs
  split at hcs
  · exact good_header mbulkhdrObj_lt hs hcs
  split at hcs
  · exact good_header bulkhdrObj_lt hs hcs
  · cases hcs
    intro c hc
    rw [List.mem_singleton.mp hc]
    exact ⟨trivial, trivial⟩

theorem bulkLenParts_good (hs : SharedOk outer h) {id : Nat} (hcs : bulkLenParts h id = some cs) :
    ∀ c ∈ cs, Good outer c := by
  obtain ⟨len, -, hcs⟩ := Option.bind_eq_some_iff.mp hcs
  split at hcs
  · exact good_header bulkhdrObj_lt hs hcs
  · exact numberParts_good hs hcs

/-- A length line, the call `c`, and the line end. -/
theorem good_behind (hs : SharedOk outer h) {first : Option (List ReplyCall)} {c : ReplyCall}
    (hfirst : ∀ cs, first = some cs → ∀ c ∈ cs, Good outer c) (hc : Good outer c)
    (hcs : (first.map fun parts => parts ++ [c, .reply Output.crlfObj]) = some cs) : ∀ c ∈ cs, Good outer c := by
  obtain ⟨parts, hparts, rfl⟩ := Option.map_eq_some_iff.mp hcs
  intro d hd
  rcases List.mem_append.mp hd with hd | hd
  · exact hfirst parts hparts d hd
  · rcases List.mem_cons.mp hd with rfl | hd
    · exact hc
    · rw [List.mem_singleton.mp hd]
      exact good_shared hs (by decide)

/-- **The parts of a call that may be made may be made.** -/
theorem parts_good (hs : SharedOk outer h) {c : ReplyCall} (hvalid : c.Valid outer) (hcs : c.parts h = some cs) :
    ∀ c ∈ cs, Good outer c := by
  have hone : ∀ d, Good outer d → some [d] = some cs → ∀ c ∈ cs, Good outer c := by
    intro d hd heq
    cases heq
    intro c hc
    rwa [List.mem_singleton.mp hc]
  have hbuffer : ∀ {s : Bytes}, bulkCBufferParts s = some cs → ∀ c ∈ cs, Good outer c := fun {s} hcs =>
    good_behind hs (fun _ => numberParts_good hs) (c := .string s) ⟨trivial, trivial⟩ hcs
  cases c with
  | reply id => exact hone (.reply id) ⟨trivial, hvalid⟩ hcs
  | sds s => exact hone (.sds s) ⟨trivial, trivial⟩ hcs
  | string s => exact hone (.string s) ⟨trivial, trivial⟩ hcs
  | longLongWithPrefix ll kind => exact numberParts_good hs hcs
  | multiBulkLen length =>
    rw [parts] at hcs
    split at hcs
    · exact good_header mbulkhdrObj_lt hs hcs
    · exact numberParts_good hs hcs
  | bulkLen id => exact bulkLenParts_good hs hcs
  | bulk id => exact good_behind hs (fun _ => bulkLenParts_good hs) (c := .reply id) ⟨trivial, hvalid⟩ hcs
  | bulkCBuffer s => exact hbuffer hcs
  | bulkCString s =>
    cases s with
    | none => exact hone _ (good_shared hs (by decide)) hcs
    | some s => exact hbuffer hcs
  | bulkLongLong ll => exact hbuffer hcs

end ReplyCall

/-- A basic call that has a result keeps the queue; one with a string that is too long has none, unless it is dropped. -/
theorem QueueInv.basicCall {s s' : ReplyState} (h : QueueInv s) {c : ReplyCall} (hgood : c.Good s.outer)
    (hstep : s.step (.call c) = some s') : QueueInv s' := by
  have hfits : c.Fits s.out.heap → QueueInv s' := by
    intro hfits
    obtain ⟨s₁, hstep₁, hinv⟩ := h.call hgood.2 hfits
    cases hstep₁.symm.trans hstep
    exact hinv
  obtain ⟨hbasic, hvalid⟩ := hgood
  cases c with
  | reply id => exact hfits trivial
  | sds b => exact hfits trivial
  | string b =>
    by_cases hlen : b.length < 2 ^ 31
    · exact hfits hlen
    by_cases hclose : s.out.closeAfterReply = true
    · have hbuf : s.out.addReplyToBuffer b = (s.out, true) := if_pos hclose
      rw [ReplyState.step, ReplyCall.exec, Output.addReplyString, Output.bufferOr, hbuf] at hstep
      dsimp only at hstep
      rw [Option.map_some, if_pos hclose] at hstep
      cases hstep
      exact h
    · have hopen : s.out.closeAfterReply = false := by simpa using hclose
      rw [ReplyState.step, ReplyCall.exec, addReplyString_none hopen (not_lt.mp hlen)] at hstep
      cases hstep
  | longLongWithPrefix | multiBulkLen | bulkLen | bulk | bulkCBuffer | bulkCString | bulkLongLong => exact hbasic.elim

/-- A deferred length that has a result keeps the queue. -/
theorem QueueInv.setDeferred_some {s s' : ReplyState} (h : QueueInv s) {id : Nat} {length : Int}
    (hopen : Segment.place id ∈ s.ledger) (hstep : s.step (.setDeferred id length) = some s') : QueueInv s' := by
  by_cases hfits : s.Fits (.setDeferred id length)
  · obtain ⟨s₁, hstep₁, hinv⟩ := h.setDeferred hopen hfits
    cases hstep₁.symm.trans hstep
    exact hinv
  · obtain ⟨hmem, hnull⟩ := (h.places id).mp hopen
    obtain ⟨before, behind, hreply⟩ := List.append_of_mem hmem
    obtain ⟨hbefore, hbehind, -⟩ := h.wf.place_once hreply hnull
    have hdrop := (takeWhile_dropWhile_place hbefore behind).2
    rw [← hreply] at hdrop
    rw [ReplyState.Fits, Output.nextText, hdrop] at hfits
    cases behind with
    | nil => exact absurd (fun b hb => by cases hb) hfits
    | cons next after =>
      obtain ⟨b, hb⟩ := not_forall.mp hfits
      obtain ⟨htext, hlong⟩ := Classical.not_imp.mp hb
      obtain ⟨h₁, hset, -, -, hother⟩ := h.wf.heap.setRaw (refs_pos_of_mem s.outer hmem) (Output.numLine 42 length)
      have hnext : next ≠ id := fun heq => hbehind (heq ▸ List.mem_cons_self ..)
      rw [ReplyState.step, Output.setDeferredMultiBulkLength, hset, Option.bind_some,
        glueNext_none (o := { s.out with heap := h₁ }) hdrop ((text_of_value (hother next hnext)).trans htext) (not_lt.mp hlong)] at hstep
      cases hstep

/-! ## Runs -/

/-- What holds between the events: the queue is as in `QueueInv`, the counter is right, and an assertion that failed had a
    reason. -/
structure MemoryInv (env : MemoryEnv) (m : MemoryState) : Prop where
  queue : QueueInv m.st
  charged : m.acct.Charged env m.st.out
  stopped : m.acct.aborted = true → Meter.maxReplyBytes ≤ m.acct.replyBytes.toNat

namespace MemoryInv

variable {env : MemoryEnv} {m m' : MemoryState}

theorem fresh (unixtime : Nat) : MemoryInv env (.fresh unixtime) where
  queue := .fresh
  charged := rfl
  stopped h := by cases h

/-- An assertion fails in a check, and only for its reason. -/
theorem stopped_of_checked {limits : BufferLimits} {unixtime len : Nat} {a a' : Meter}
    (h : Account.Checked limits unixtime len a a') (hlive : a.aborted = false) (hstop : a'.aborted = true) :
    Meter.maxReplyBytes ≤ a'.replyBytes.toNat := by
  cases h with
  | same => exact absurd (hlive.symm.trans hstop) Bool.false_ne_true
  | check n =>
    have hlive' : (Account.setBytes a n).aborted = false := hlive
    generalize Account.setBytes a n = b at hstop hlive' ⊢
    obtain ⟨t, ht⟩ := Account.check_time limits unixtime len b
    rw [Account.asyncClose_bytes]
    unfold Meter.asyncCloseClientOnOutputBufferLimitReached at hstop
    split at hstop
    · rename_i hmax
      exact not_lt.mp hmax
    have hno : b.aborted = true → Meter.maxReplyBytes ≤ b.replyBytes.toNat := fun h =>
      absurd (hlive'.symm.trans h) Bool.false_ne_true
    split at hstop
    · exact hno hstop
    · dsimp only at hstop
      rw [ht] at hstop
      split at hstop <;> exact hno hstop

variable {free : Nat}

/-- **One part of a call.** -/
theorem callPart (h : MemoryInv env m) {c : ReplyCall} (hgood : c.Good m.st.outer)
    (hstep : m.callPart env free c = some m') : MemoryInv env m' ∧ m'.st.outer = m.st.outer := by
  unfold MemoryState.callPart at hstep
  split at hstep
  · cases hstep
    exact ⟨h, rfl⟩
  rename_i hlive
  obtain ⟨st, hcall, rfl⟩ := Option.map_eq_some_iff.mp hstep
  have hout : c.exec m.st.out = some st.out ∧ st.outer = m.st.outer := by
    obtain ⟨out, hexec, rfl⟩ := Option.map_eq_some_iff.mp hcall
    exact ⟨hexec, rfl⟩
  refine ⟨⟨h.queue.basicCall hgood hcall, ?_, fun hstop => ?_⟩, hout.2⟩
  · obtain ⟨hbasic, hvalid⟩ := hgood
    cases c with
    | reply id =>
      exact Account.addReply_charged h.queue.wf h.charged _ _ hvalid (fun n hn => h.queue.longs id n hvalid hn) hout.1
    | sds b =>
      exact Account.bufferOr_charged h.charged _ _
        (fun o' => Account.addReplySdsToList_charged h.queue.wf h.charged free) hout.1
    | string b =>
      exact Account.bufferOr_charged h.charged _ _
        (fun o' => Account.addReplyStringToList_charged h.queue.wf h.charged) hout.1
    | longLongWithPrefix | multiBulkLen | bulkLen | bulk | bulkCBuffer | bulkCString | bulkLongLong =>
      exact hbasic.elim
  · exact stopped_of_checked (Account.reply_checked env m.st.out m.acct free m.unixtime _ c)
      (Bool.not_eq_true _ |>.mp hlive) hstop

/-- An event that has a result for the queue keeps it. -/
theorem queue_of_step {e : ReplyEvent} {st : ReplyState} (hstep : m.st.step e = some st)
    (hex : ∃ st, m.st.step e = some st ∧ QueueInv st) : QueueInv st := by
  obtain ⟨st', hstep', hinv⟩ := hex
  cases hstep'.symm.trans hstep
  exact hinv

theorem create (h : MemoryInv env m) {v : ObjValue} (hlive : ¬ m.acct.aborted = true)
    (hvalid : m.st.Valid (.create v)) (hstep : m.step env (.create v free) = some m') : MemoryInv env m' := by
  rw [MemoryState.step, if_neg hlive] at hstep
  obtain ⟨st, hst, hm⟩ := Option.map_eq_some_iff.mp hstep
  have hq := queue_of_step hst (h.queue.create hvalid)
  obtain ⟨-, -, hkeep⟩ := h.queue.wf.heap.create v
  have hc : m.acct.Charged env st.out := by
    cases hst
    exact h.charged.setHeap fun k hk => hkeep k (refs_pos_of_mem m.st.outer hk)
  have hreply : st.out.reply = m.st.out.reply := by
    cases hst
    rfl
  split at hm
  · subst hm
    refine ⟨hq, ?_, fun hstop => absurd hstop hlive⟩
    show m.acct.replyBytes = _
    rw [Account.charge_congr (fun _ _ => rfl) fun k hk => ?_]
    · exact hc
    · exact Account.sdsnew_block_of_ne m.acct free (Account.nextObj_ne h.queue.wf k (hreply ▸ hk))
  · subst hm
    exact ⟨hq, hc, fun hstop => absurd hstop hlive⟩

theorem removeFreeSpace (h : MemoryInv env m) {id : Nat} (hid : 0 < m.st.outer id)
    (hstep : m.removeFreeSpace id = some m') : MemoryInv env m' := by
  obtain ⟨r, hr, rfl⟩ := Option.map_eq_some_iff.mp hstep
  split
  · exact h
  rename_i hone
  split
  · refine ⟨h.queue, ?_, h.stopped⟩
    -- the only reference is not that of the list
    have hnot : id ∉ m.st.out.reply := by
      intro hmem
      obtain ⟨r', hr', hle⟩ := h.queue.wf.heap.live id (refs_pos_of_outer _ hid)
      cases hr'.symm.trans hr
      have := List.count_pos_iff.mpr hmem
      rw [refsOf] at hle
      omega
    show m.acct.replyBytes = _
    rw [Account.charge_congr (fun _ _ => rfl) fun k hk => ?_]
    · exact h.charged
    · exact Account.sdsnew_block_of_ne m.acct 0 fun heq => hnot (heq ▸ hk)
  · exact h

/-- **A reply call** is charged part by part. -/
theorem call (h : MemoryInv env m) {c : ReplyCall} (hvalid : c.Valid m.st.outer) {cs : List ReplyCall}
    (hcs : c.parts m.st.out.heap = some cs) (hstep : cs.foldlM (MemoryState.callPart env free) m = some m') :
    MemoryInv env m' := by
  have hgood := ReplyCall.parts_good h.queue.shared hvalid hcs
  have hfold : MemoryInv env m' ∧ m'.st.outer = m.st.outer := by
    refine foldlM_some_invariant (P := fun m₁ => MemoryInv env m₁ ∧ m₁.st.outer = m.st.outer)
      (fun c hc m₁ m₂ h₁ hstep => ?_) ⟨h, rfl⟩ hstep
    obtain ⟨hinv, houter⟩ := h₁
    obtain ⟨hinv₂, houter₂⟩ := hinv.callPart (houter ▸ hgood c hc) hstep
    exact ⟨hinv₂, houter₂.trans houter⟩
  exact hfold.1

/-- A filled place is charged. -/
theorem setDeferred (h : MemoryInv env m) {id : Nat} {length : Int} (hlive : ¬ m.acct.aborted = true)
    (hopen : Segment.place id ∈ m.st.ledger) (hstep : m.step env (.setDeferred id length) = some m') :
    MemoryInv env m' := by
  rw [MemoryState.step, if_neg hlive] at hstep
  obtain ⟨st, hst, rfl⟩ := Option.map_eq_some_iff.mp hstep
  have hout : m.st.out.setDeferredMultiBulkLength id length = some st.out := by
    obtain ⟨out, hset, rfl⟩ := Option.map_eq_some_iff.mp hst
    exact hset
  obtain ⟨hmem, hnull⟩ := (h.queue.places id).mp hopen
  refine ⟨h.queue.setDeferred_some hopen hst, ?_, fun hstop => ?_⟩
  · exact Account.asyncClose_charged (Account.setDeferred_charged h.queue.wf h.charged hmem hnull hout) _ _
  · exact stopped_of_checked (Account.setDeferred_checked env m.st.out m.acct id length m.unixtime _)
      (Bool.not_eq_true _ |>.mp hlive) hstop

/-- What is sent is no longer charged. -/
theorem send (h : MemoryInv env m) {writes : List (Nat × Bool)} (hlive : ¬ m.acct.aborted = true)
    (hsettled : ∀ seg ∈ m.st.ledger, seg.isPlace = false) (hstep : m.step env (.send writes) = some m') :
    MemoryInv env m' := by
  rw [MemoryState.step, if_neg hlive] at hstep
  obtain ⟨⟨out, acct⟩, hsend, rfl⟩ := Option.map_eq_some_iff.mp hstep
  obtain ⟨hc, n, hn⟩ := Account.sendReplyToClient_paid h.queue.wf h.charged hsend
  have hout : m.st.out.sendReplyToClient writes = some out := by
    rw [← Account.sendReplyToClient_fst env, hsend, Option.map_some]
  refine ⟨queue_of_step (e := .send writes) ?_ (h.queue.send hsettled writes), hc, fun hstop => ?_⟩
  · rw [ReplyState.step, hout, Option.map_some]
  · have hab : acct.aborted = (Account.setBytes m.acct.toMeter n).aborted := congrArg Meter.aborted hn
    exact absurd (hab.symm.trans hstop) hlive

/-- **Every event keeps the counter right.** -/
theorem step (h : MemoryInv env m) {e : MemoryEvent} (hvalid : m.Valid e) (hstep : m.step env e = some m') :
    MemoryInv env m' := by
  by_cases hlive : m.acct.aborted = true
  · unfold MemoryState.step at hstep
    rw [if_pos hlive] at hstep
    cases hstep
    exact h
  cases e with
  | create v free => exact h.create hlive hvalid hstep
  | retain id =>
    rw [MemoryState.step, if_neg hlive] at hstep
    obtain ⟨st, hst, rfl⟩ := Option.map_eq_some_iff.mp hstep
    refine ⟨queue_of_step hst (h.queue.retain hvalid), ?_, h.stopped⟩
    obtain ⟨heap, hincr, rfl⟩ := Option.map_eq_some_iff.mp hst
    obtain ⟨heap', hincr', hm⟩ := h.queue.wf.retain hvalid
    cases hincr'.symm.trans hincr
    exact h.charged.setHeap hm.node
  | release id =>
    rw [MemoryState.step, if_neg hlive] at hstep
    obtain ⟨st, hst, rfl⟩ := Option.map_eq_some_iff.mp hstep
    refine ⟨queue_of_step hst (h.queue.release hvalid.1 hvalid.2), ?_, h.stopped⟩
    obtain ⟨heap, hdecr, rfl⟩ := Option.map_eq_some_iff.mp hst
    obtain ⟨heap', hdecr', hm⟩ := h.queue.wf.releaseHeld hvalid.1
    cases hdecr'.symm.trans hdecr
    exact h.charged.setHeap hm.node
  | removeFreeSpace id =>
    rw [MemoryState.step, if_neg hlive] at hstep
    exact h.removeFreeSpace hvalid hstep
  | call c free =>
    rw [MemoryState.step, if_neg hlive] at hstep
    obtain ⟨cs, hcs, hstep⟩ := Option.bind_eq_some_iff.mp hstep
    exact h.call hvalid.2 hcs hstep
  | defer =>
    rw [MemoryState.step, if_neg hlive] at hstep
    obtain ⟨st, hst, rfl⟩ := Option.map_eq_some_iff.mp hstep
    refine ⟨queue_of_step hst h.queue.defer, ?_, h.stopped⟩
    cases hst
    exact Account.addDeferredMultiBulkLength_charged h.queue.wf h.charged
  | setDeferred id length => exact h.setDeferred hlive hvalid.2 hstep
  | close =>
    rw [MemoryState.step, if_neg hlive] at hstep
    obtain ⟨st, hst, rfl⟩ := Option.map_eq_some_iff.mp hstep
    refine ⟨queue_of_step hst h.queue.close, ?_, h.stopped⟩
    cases hst
    exact h.charged
  | send writes => exact h.send hlive hvalid.2 hstep
  | time unixtime =>
    rw [MemoryState.step, if_neg hlive] at hstep
    cases hstep
    exact ⟨h.queue, h.charged, h.stopped⟩

/-- **The account is right along every run.** -/
theorem of_run {unixtime : Nat} (hr : RunBy (MemoryState.step env) MemoryState.Valid (.fresh unixtime) m) :
    MemoryInv env m :=
  RunBy.invariant (fun _ _ _ hvalid hstep h => h.step hvalid hstep) hr (fresh unixtime)

end MemoryInv

/-! ## Accounting -/

/-- The sum over the objects of the reply list of what `getStringObjectSdsUsedMemory` returns. -/
def MemoryState.memory (env : MemoryEnv) (m : MemoryState) : Nat :=
  (m.st.out.reply.map fun id => (m.acct.getStringObjectSdsUsedMemory env m.st.out.heap id).toNat).sum

theorem charge_toNat (env : MemoryEnv) (h : Heap) (a : Account) (l : List Nat) :
    (a.charge env h l).toNat = (l.map fun id => (a.getStringObjectSdsUsedMemory env h id).toNat).sum % 2 ^ 64 := by
  induction l with
  | nil => rfl
  | cons id l ih =>
    rw [Account.charge_cons, UInt64.toNat_add, ih, List.map_cons, List.sum_cons, Nat.add_mod_mod]

/-- **Output memory accounting.** In every state of every run `reply_bytes` is the memory of the objects of the reply list,
    as a number of its type. It is zero when the list is empty, and an assertion that stopped the server was right: the
    objects do use that much. -/
theorem output_accounting (env : MemoryEnv) {unixtime : Nat} {m : MemoryState}
    (hr : RunBy (MemoryState.step env) MemoryState.Valid (.fresh unixtime) m) :
    m.acct.replyBytes.toNat = m.memory env % 2 ^ 64 ∧ (m.st.out.reply = [] → m.acct.replyBytes = 0) ∧
      (m.acct.aborted = true → Meter.maxReplyBytes ≤ m.memory env) := by
  have hinv := MemoryInv.of_run hr
  have hsum : m.acct.replyBytes.toNat = m.memory env % 2 ^ 64 := by
    rw [hinv.charged, charge_toNat]
    rfl
  refine ⟨hsum, fun hempty => ?_, fun hstop => ?_⟩
  · rw [hinv.charged, hempty, Account.charge_nil]
  · exact (hsum ▸ hinv.stopped hstop).trans (Nat.mod_le _ _)

/-- Every allocation takes 64 bytes, and there are no limits. -/
def plainEnv : MemoryEnv := ⟨fun _ => 64, ⟨0, 0, 0⟩⟩

/-- A bulk reply behind a deferred length: the shared length line is duplicated, and the text is glued to the header. -/
def gluedEvents : List MemoryEvent :=
  [.create (.raw [104, 105]) 0, .defer, .call (.bulk 66) 0, .defer, .setDeferred 69 0, .setDeferred 67 2,
    .send [(3, true)]]

theorem output_accounting_glued : ∃ m, RunBy (MemoryState.step plainEnv) MemoryState.Valid (.fresh 0) m ∧
    m.acct.replyBytes = 128 ∧ m.memory plainEnv % 2 ^ 64 = 128 := by
  obtain ⟨m, hr, hv⟩ := run_of_exec (MemoryState.step plainEnv) MemoryState.Valid (.fresh 0) gluedEvents
    (fun m => (m.acct.replyBytes, m.st.out.reply)) (128, [67, 69]) (by decide +kernel)
  have hbytes : m.acct.replyBytes = 128 := congrArg Prod.fst hv
  refine ⟨m, hr, hbytes, ?_⟩
  rw [← (output_accounting plainEnv hr).1, hbytes]
  rfl

end Prez
