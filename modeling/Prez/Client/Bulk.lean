import Prez.Client.Fifo
import Prez.Numeral

/-!
# `Prez.Client.Bulk` — a bulk reply announces what it sends

The length line of a bulk reply and its string are computed apart from each other. The length of an integer is counted by
a loop of its own, after a negation that `LONG_MIN` survives; short lengths come from the table of shared lines; and the
string goes to the buffer, to the list, or through `ll2string`. `bulk_replies` says that they agree, in every state of
the queue.

Nothing is queued for a client that is about to be closed, and a buffer of 2³¹ bytes has no sds (`bulk_not_queued`).
-/

namespace Prez

open Lib

/-! ## Counting digits -/

theorem tdiv_ten_shrinks {n : Int} (h : ¬ n.tdiv 10 = 0) : (n.tdiv 10).natAbs < n.natAbs := by
  have hne : (n.tdiv 10).natAbs ≠ 0 := fun h0 => h (Int.natAbs_eq_zero.mp h0)
  have habs : (n.tdiv 10).natAbs = n.natAbs / 10 := Int.natAbs_tdiv n 10
  omega

/-- `while((n = n/10) != 0) len++`, on a `long`. -/
def radixLoop (n : Int) (len : Nat) : Nat := if n.tdiv 10 = 0 then len else radixLoop (n.tdiv 10) (len + 1)
termination_by n.natAbs
decreasing_by
  rename_i h
  exact tdiv_ten_shrinks h

/-- The length that `addReplyBulkLen` computes for the integer `n`. -/
def longBulkLen (n : Int) : Nat := if n < 0 then radixLoop (negLongLong n) 2 else radixLoop n 1

/-- Division rounds to zero, so that the sign makes no difference to the loop. -/
theorem radixLoop_eq (n : Int) (len : Nat) : radixLoop n len + 1 = Output.radixLen n.natAbs + len := by
  have habs : (n.tdiv 10).natAbs = n.natAbs / 10 := Int.natAbs_tdiv n 10
  fun_induction radixLoop n len with
  | case1 n len hzero =>
    rw [Output.radixLen, if_pos (by rw [← habs, hzero]; rfl)]
    omega
  | case2 n len hzero ih =>
    have hne : ¬ n.natAbs / 10 = 0 := by
      rw [← habs, Int.natAbs_eq_zero]
      exact hzero
    rw [Output.radixLen, if_neg hne, ih (Int.natAbs_tdiv _ 10), habs]
    omega

theorem natAbs_negLongLong (n : Int) : (negLongLong n).natAbs = n.natAbs := by
  unfold negLongLong
  split
  · rfl
  · exact Int.natAbs_neg n

/-- **The loop counts the bytes of the text**, for `LONG_MIN` as well. -/
theorem longBulkLen_eq (n : Int) : longBulkLen n = (llText n).length := by
  unfold longBulkLen llText
  by_cases hneg : n < 0
  · have := radixLoop_eq (negLongLong n) 2
    rw [natAbs_negLongLong, radixLen_eq] at this
    rw [if_pos hneg, if_pos hneg, List.length_cons]
    omega
  · have := radixLoop_eq n 1
    rw [radixLen_eq] at this
    rw [if_neg hneg, if_neg hneg]
    omega

/-- The length of the model is the one that the loop computes. -/
theorem bulkLen_int {h : Heap} {id : Nat} {n : Int} (hv : h.value id = some (.int n)) :
    Output.bulkLen h id = some (longBulkLen n) := by
  rw [bulkLen_eq hv ObjValue.noConfusion, longBulkLen_eq]
  rfl

/-! ## Bulk replies -/

/-- `'$'`, the decimal length of the string, CRLF, the string and CRLF. -/
def bulkFrame (s : Bytes) : Bytes := 36 :: decimal s.length ++ [13, 10] ++ s ++ [13, 10]

theorem bulkText_eq_frame (s : Bytes) : bulkText s = bulkFrame s := by
  have hpos : ¬ (s.length : Int) < 0 := by omega
  rw [bulkText, Output.numLine, llText, if_neg hpos, Int.natAbs_natCast]
  rfl

/-- Exactly `b` is added to what is still to be sent. -/
def Queues (o o' : Output) (b : Bytes) : Prop := ∀ fill, o'.rest fill = o.rest fill ++ b

theorem Adds.queues {outer : Nat → Nat} {o o' : Output} {b : Bytes} (h : Adds outer o o' b)
    (hopen : o.closeAfterReply = false) : Queues o o' b := by
  intro fill
  rw [h.rest fill, hopen]
  rfl

/-- **Bulk replies are self-consistent**: in every state of the queue of an open client, whatever the encoding of the
    object, and for a buffer of any bytes. The length line of an integer comes from the loop of `addReplyBulkLen`. -/
theorem bulk_replies {outer : Nat → Nat} {o : Output} (hw : OutputOk outer o) (hs : SharedOk outer o.heap)
    (hopen : o.closeAfterReply = false) :
    (∀ id v, 0 < outer id → o.heap.value id = some v → (∀ n, v = .int n → LongLong n) → v.payload.length < 2 ^ 31 →
      (∀ n, v = .int n → Output.bulkLen o.heap id = some (longBulkLen n)) ∧
      ∃ o', o.addReplyBulk id = some o' ∧ Queues o o' (bulkFrame v.payload)) ∧
    ∀ s, s.length < 2 ^ 31 → ∃ o', o.addReplyBulkCBuffer s = some o' ∧ Queues o o' (bulkFrame s) := by
  refine ⟨fun id v hid hv hlong hlen => ⟨fun n hn => bulkLen_int (hn ▸ hv), ?_⟩, fun s hlen => ?_⟩
  · obtain ⟨o', hrun, hadds⟩ := addReplyBulk_adds hw hs hid hv hlong hlen
    exact ⟨o', hrun, bulkText_eq_frame v.payload ▸ hadds.queues hopen⟩
  · obtain ⟨o', hrun, hadds⟩ := addReplyBulkCBuffer_adds hw hs hlen
    exact ⟨o', hrun, bulkText_eq_frame s ▸ hadds.queues hopen⟩

/-- A new client that holds the object `LONG_MIN`. -/
def longMinState : ReplyState where
  out := { ReplyState.fresh.out with heap := (Output.sharedHeap.createObject (.int (-(2 ^ 63)))).1 }
  outer := bump ReplyState.fresh.outer 66
  ledger := []

theorem longMinState_inv : QueueInv longMinState := by
  obtain ⟨s, hstep, hinv⟩ := QueueInv.fresh.create (v := .int (-(2 ^ 63))) (by decide)
  cases hstep
  exact hinv

/-- The 20 bytes of `LONG_MIN`. -/
theorem bulk_replies_longMin :
    ∃ o', longMinState.out.addReplyBulk 66 = some o' ∧
      Queues longMinState.out o' (bulkFrame (llText (-(2 ^ 63)))) ∧ (llText (-(2 ^ 63))).length = 20 := by
  obtain ⟨o', hrun, hqueues⟩ := ((bulk_replies longMinState_inv.wf longMinState_inv.shared rfl).1 66 (.int (-(2 ^ 63)))
    (by decide) rfl (fun n hn => by cases hn; decide) (by decide +kernel)).2
  exact ⟨o', hrun, hqueues, by decide +kernel⟩

/-! ## What is not queued -/

/-- A string of 2³¹ bytes is not queued: it has no sds. -/
theorem addReplyString_none {o : Output} (hopen : o.closeAfterReply = false) {b : Bytes} (hb : 2 ^ 31 ≤ b.length) :
    o.addReplyString b = none := by
  have hbuf : o.addReplyToBuffer b = (o, false) := by
    have hroom : b.length > replyChunkBytes - o.buf.length := by
      refine lt_of_le_of_lt (Nat.sub_le ..) ?_
      unfold replyChunkBytes
      omega
    rw [Output.addReplyToBuffer, if_neg (by rw [hopen]; exact Bool.false_ne_true), if_pos hroom]
    split <;> rfl
  have hcreate : ∀ heap : Heap, heap.createStringObject b = none := fun heap => if_neg (not_lt.mpr hb)
  have hlist : o.addReplyStringToList b = none := by
    rw [Output.addReplyStringToList, Output.addToList, if_neg (by rw [hopen]; exact Bool.false_ne_true), hcreate]
    split
    · rfl
    · split
      · rename_i t _
        have hlong : ¬ t.length + b.length ≤ replyChunkBytes := by
          unfold replyChunkBytes
          omega
        rw [if_neg hlong]
        rfl
      · rfl
      · rfl
  rw [Output.addReplyString, Output.bufferOr, hbuf]
  exact hlist

/-- Nothing is queued for a client that is about to be closed; and a buffer of 2³¹ bytes ends in a call without
    result. -/
theorem bulk_not_queued :
    (∃ o', Output.addReplyBulk { ReplyState.fresh.out with closeAfterReply := true } Output.crlfObj = some o' ∧
      ¬ Queues { ReplyState.fresh.out with closeAfterReply := true } o' (bulkFrame [13, 10])) ∧
    ReplyState.fresh.out.addReplyBulkCBuffer (List.replicate (2 ^ 31) 0) = none := by
  refine ⟨⟨{ ReplyState.fresh.out with closeAfterReply := true }, by rfl, fun h => ?_⟩, ?_⟩
  · have := congrArg List.length (h fun _ => [])
    rw [List.length_append] at this
    exact absurd this (by decide +kernel)
  · have hlen : (List.replicate (2 ^ 31) (0 : UInt8)).length = 2 ^ 31 := List.length_replicate
    have hll : LongLong (List.replicate (2 ^ 31) (0 : UInt8)).length := by
      rw [hlen]
      decide
    obtain ⟨o₁, hhead, hadds⟩ := addReplyLongLongWithPrefix_adds QueueInv.fresh.wf QueueInv.fresh.shared 36 hll
      fun _ => Int.natCast_nonneg _
    rw [Output.addReplyBulkCBuffer, hhead]
    simp only [Option.bind_eq_bind, Option.bind_some]
    rw [addReplyString_none (hadds.closing.trans rfl) hlen.ge, Option.bind_none]

end Prez
