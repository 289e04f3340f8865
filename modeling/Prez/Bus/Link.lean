import Prez.Bus.Frame
import Prez.Sds
import Prez.Lib.Run

/-!
# `Prez.Bus.Link` — a link delivers the messages it is given

One direction of a cluster link: `clusterSendMessage` appends to the send buffer, `clusterWriteHandler` passes
some of it to the socket, `clusterReadHandler` collects the bytes of one frame at a time and hands the frame
to `clusterProcessPacket`. The socket is a byte stream: `write` and `read` may move any positive number of
bytes.

`link_delivers` says that the frames handed over are the messages sent, whole and in order, whatever the
splits, and that the check of signature and length never fails. The one limit is that of the send buffer, an
sds string: nothing bounds the messages waiting in it, and beyond `INT_MAX` bytes it has no length.
-/

namespace Prez

open Lib

/-! ## The handlers -/

/-- The `totlen` field of what has been received. -/
def rcvTotlen (rcvbuf : Bytes) : Nat := beNat (slice 4 4 rcvbuf)

/-- The number of bytes that `clusterReadHandler` asks `read` for; `none` if the check of the first eight bytes
    fails and the link is freed. `readlen` is an `int` that is compared with a `size_t`, so a negative one
    would be capped as well. -/
def clusterReadLen (rcvbuf : Bytes) : Option Int :=
  if rcvbuf.length < 8 then some (8 - rcvbuf.length)
  else if rcvbuf.length = 8 ∧ (rcvbuf.take 4 ≠ busSignature ∨ rcvTotlen rcvbuf < clusterMsgMinLen) then none
  else
    let readlen := toInt32 (rcvTotlen rcvbuf - rcvbuf.length)
    some (if readlen < 0 ∨ clusterMsgSize < readlen then clusterMsgSize else readlen)

/-- Has the whole frame been received? -/
def rcvComplete (rcvbuf : Bytes) : Bool := decide (8 ≤ rcvbuf.length) && rcvbuf.length == rcvTotlen rcvbuf

/-- One direction of a link: the bytes in the buffers at both ends and on the way, what was passed to
    `clusterSendMessage`, what was handed to `clusterProcessPacket`, and whether the receiver has freed the
    link because of a bad header. -/
structure BusLink where
  sent : List Frame
  sndbuf : Bytes
  wire : Bytes
  rcvbuf : Bytes
  handed : List Bytes
  freed : Bool

def BusLink.init : BusLink := ⟨[], [], [], [], [], false⟩

/-- What happens on a link. `write k` and `read k`: the call moves `k` bytes; `eagain`: there is nothing to
    read and the handler returns. -/
inductive LinkEvent where
  | send (msg : Frame)
  | write (nwritten : Nat)
  | read (nread : Nat)
  | eagain

/-- One turn of the loop of `clusterReadHandler` whose `read` returns `nread` bytes. -/
def BusLink.read (l : BusLink) (nread : Nat) : Option BusLink :=
  match clusterReadLen l.rcvbuf with
  | none => some { l with freed := true }
  | some readlen =>
    if 1 ≤ nread ∧ nread ≤ readlen ∧ nread ≤ l.wire.length then
      (sdsAppend l.rcvbuf (l.wire.take nread)).map fun rcvbuf =>
        let l := { l with wire := l.wire.drop nread }
        -- `clusterProcessPacket` returns 1 on every path, the buffer is emptied
        if rcvComplete rcvbuf then { l with handed := l.handed ++ [rcvbuf], rcvbuf := [] }
        else { l with rcvbuf := rcvbuf }
    else none

def BusLink.next (l : BusLink) (ev : LinkEvent) : Option BusLink :=
  if l.freed then none
  else
    match ev with
    | .send msg => (sdsAppend l.sndbuf msg.bytes).map fun sndbuf => { l with sndbuf, sent := l.sent ++ [msg] }
    | .write nwritten =>
      if 1 ≤ nwritten ∧ nwritten ≤ l.sndbuf.length then
        some { l with wire := l.wire ++ l.sndbuf.take nwritten, sndbuf := sdsrange l.sndbuf nwritten (-1) }
      else none
    | .read nread => l.read nread
    | .eagain => some l

/-! ## The invariant -/

/-- The messages still on their way are the buffers, and the receiver is inside the first of them. -/
structure LinkInv (l : BusLink) (rest : List Frame) : Prop where
  handed : l.handed ++ rest.map Frame.bytes = l.sent.map Frame.bytes
  stream : l.rcvbuf ++ (l.wire ++ l.sndbuf) = (rest.map Frame.bytes).flatten
  inside : ∀ m ∈ rest.head?, l.rcvbuf.length < m.bytes.length
  alive : l.freed = false

/-- The receive buffer holds the beginning of a frame. -/
structure Receiving (rcvbuf : Bytes) (m : Frame) : Prop where
  take : rcvbuf = m.bytes.take rcvbuf.length
  short : rcvbuf.length < m.bytes.length

variable {rest : List Frame} {m : Frame} {l : BusLink}

theorem Receiving.totlen {rcvbuf : Bytes} (ht : rcvbuf = m.bytes.take rcvbuf.length) (h8 : 8 ≤ rcvbuf.length) :
    rcvTotlen rcvbuf = m.bytes.length := by
  rw [← m.totlen, rcvTotlen, ht]
  congr 1
  rw [slice, slice, List.drop_take, List.take_take]
  congr 1
  omega

/-- While a frame is being received, the header passes the check and the handler asks for one byte at least
    and for none beyond the frame. -/
theorem Receiving.readLen {rcvbuf : Bytes} (h : Receiving rcvbuf m) :
    ∃ r : Int, clusterReadLen rcvbuf = some r ∧ 1 ≤ r ∧ r ≤ m.bytes.length - rcvbuf.length := by
  have hmin := m.min_le
  have hfits := m.fits
  have hshort := h.short
  rw [clusterReadLen]
  by_cases h8 : rcvbuf.length < 8
  · simp only [clusterMsgMinLen] at hmin
    exact ⟨_, if_pos h8, by omega, by omega⟩
  · have htot := Receiving.totlen h.take (by omega)
    have hsig : rcvbuf.take 4 = busSignature := by
      rw [← m.sig, h.take, List.take_take, Nat.min_eq_left (by omega)]
    have hread : toInt32 ((m.bytes.length : Int) - rcvbuf.length) = m.bytes.length - rcvbuf.length := by
      simp only [toInt32]
      omega
    rw [if_neg h8, if_neg (by rw [htot, hsig]; simpa using fun _ => hmin), htot, hread]
    refine ⟨_, rfl, ?_, ?_⟩ <;> simp only [clusterMsgSize] <;> split_ifs <;> omega

theorem LinkInv.receiving (h : LinkInv l (m :: rest)) : Receiving l.rcvbuf m := by
  have hshort := h.inside m rfl
  refine ⟨?_, hshort⟩
  have := congrArg (List.take l.rcvbuf.length) h.stream
  rw [List.take_left' rfl, List.map_cons, List.flatten_cons, List.take_append_of_le_length hshort.le] at this
  exact this

/-- The next bytes of the stream continue the frame. -/
theorem LinkInv.take_wire (h : LinkInv l (m :: rest)) {k : Nat} (hk : k ≤ l.wire.length)
    (hm : l.rcvbuf.length + k ≤ m.bytes.length) : l.rcvbuf ++ l.wire.take k = m.bytes.take (l.rcvbuf.length + k) := by
  have := congrArg (List.take (l.rcvbuf.length + k)) h.stream
  rw [List.map_cons, List.flatten_cons, List.take_append_of_le_length hm, List.take_length_add_append,
    List.take_append_of_le_length hk] at this
  exact this

/-- The handler asks for at least one byte, and never frees the link. -/
theorem LinkInv.readLen (h : LinkInv l rest) : ∃ r : Int, clusterReadLen l.rcvbuf = some r ∧ 1 ≤ r := by
  cases rest with
  | nil =>
    have hnil : l.rcvbuf = [] := (List.append_eq_nil_iff.mp h.stream).1
    exact ⟨8, by rw [hnil]; rfl, by omega⟩
  | cons m rest =>
    obtain ⟨r, hr, h1, -⟩ := h.receiving.readLen
    exact ⟨r, hr, h1⟩

theorem LinkInv.read {l l' : BusLink} (h : LinkInv l rest) {nread : Nat} (hs : l.read nread = some l') :
    ∃ rest', LinkInv l' rest' := by
  obtain ⟨r, hr, -⟩ := h.readLen
  rw [BusLink.read, hr] at hs
  dsimp only at hs
  split at hs
  case isFalse => cases hs
  case isTrue hguard =>
  obtain ⟨h1, hle, hwire⟩ := hguard
  obtain ⟨rcvbuf, happ, rfl⟩ := Option.map_eq_some_iff.mp hs
  rw [sdsAppend] at happ
  split at happ
  case isFalse => cases happ
  case isTrue =>
  cases happ
  cases rest with
  | nil =>
    -- nothing is on its way
    have hnil := (List.append_eq_nil_iff.mp (List.append_eq_nil_iff.mp h.stream).2).1
    rw [hnil, List.length_nil] at hwire
    omega
  | cons m rest =>
    obtain ⟨r', hr', -, hmax⟩ := h.receiving.readLen
    rw [hr] at hr'
    cases hr'
    have hlen : l.rcvbuf.length + nread ≤ m.bytes.length := by omega
    have htake := h.take_wire hwire hlen
    have hlen' : (l.rcvbuf ++ l.wire.take nread).length = l.rcvbuf.length + nread := by
      rw [htake, List.length_take, Nat.min_eq_left hlen]
    have hstream : (l.rcvbuf ++ l.wire.take nread) ++ (l.wire.drop nread ++ l.sndbuf) =
        m.bytes ++ (rest.map Frame.bytes).flatten := by
      rw [List.append_assoc, ← List.append_assoc (l.wire.take nread), List.take_append_drop]
      exact h.stream
    have hbegin : l.rcvbuf ++ l.wire.take nread = m.bytes.take (l.rcvbuf ++ l.wire.take nread).length := by
      rw [hlen', htake]
    have hmin := m.min_le
    simp only [clusterMsgMinLen] at hmin
    split
    · rename_i hcomplete
      simp only [rcvComplete, Bool.and_eq_true, decide_eq_true_eq, beq_iff_eq] at hcomplete
      have htot := Receiving.totlen hbegin hcomplete.1
      have hall : l.rcvbuf ++ l.wire.take nread = m.bytes := by
        rw [htake]
        exact List.take_of_length_le (by omega)
      rw [hall] at hstream
      refine ⟨rest, ?_, List.append_cancel_left hstream, ?_, h.alive⟩
      · rw [hall, List.append_assoc]
        exact h.handed
      · intro m' _
        have := m'.min_le
        simp only [clusterMsgMinLen] at this
        exact Nat.lt_of_lt_of_le (by simp) this
    · rename_i hpartial
      refine ⟨m :: rest, h.handed, hstream, ?_, h.alive⟩
      intro m' hm'
      cases hm'
      rw [hlen']
      refine Nat.lt_of_le_of_ne hlen fun hfull => hpartial ?_
      have htot := Receiving.totlen hbegin (by omega)
      simp only [rcvComplete, Bool.and_eq_true, decide_eq_true_eq, beq_iff_eq]
      omega

theorem LinkInv.next {l l' : BusLink} (h : LinkInv l rest) {ev : LinkEvent} (hs : l.next ev = some l') :
    ∃ rest', LinkInv l' rest' := by
  unfold BusLink.next at hs
  simp only [h.alive, Bool.false_eq_true, if_false] at hs
  cases ev with
  | send msg =>
    obtain ⟨sndbuf, happ, rfl⟩ := Option.map_eq_some_iff.mp hs
    rw [sdsAppend] at happ
    split at happ
    case isFalse => cases happ
    case isTrue =>
    cases happ
    refine ⟨rest ++ [msg], ?_, ?_, ?_, rfl⟩
    · simp [← h.handed]
    · simp [← h.stream]
    · cases rest with
      | nil =>
        rintro m hm
        cases hm
        have hnil : l.rcvbuf = [] := (List.append_eq_nil_iff.mp h.stream).1
        have := msg.min_le
        simp only [clusterMsgMinLen] at this
        rw [hnil]
        exact Nat.lt_of_lt_of_le (by simp) this
      | cons m rest => exact h.inside
  | write nwritten =>
    dsimp only at hs
    split at hs
    case isFalse => cases hs
    case isTrue =>
    cases hs
    refine ⟨rest, h.handed, ?_, h.inside, rfl⟩
    rw [sdsrange_drop, List.append_assoc l.wire, List.take_append_drop]
    exact h.stream
  | read nread => exact h.read hs
  | eagain =>
    cases hs
    exact ⟨rest, h⟩

/-! ## Delivery -/

/-- The send buffer has room for the message. -/
def RoomToSend (l : BusLink) : LinkEvent → Prop
  | .send msg => l.sndbuf.length + msg.bytes.length < 2 ^ 31
  | _ => True

/-- **Delivery.** In every run in which the bytes waiting in the send buffer stay below 2³¹, the frames handed
    over are a prefix of the messages sent, all of them once the buffers are empty; the link is not freed; and
    nothing stands in the way of the next step: a message can be sent, any positive number of the bytes asked
    for can be written or read. -/
theorem link_delivers (l : BusLink) (hr : RunBy BusLink.next RoomToSend BusLink.init l) :
    l.handed <+: l.sent.map Frame.bytes ∧ l.freed = false ∧
      (l.sndbuf = [] → l.wire = [] → l.rcvbuf = [] → l.handed = l.sent.map Frame.bytes) ∧
      ∃ readlen : Int, clusterReadLen l.rcvbuf = some readlen ∧ 1 ≤ readlen ∧
        ∀ ev, RoomToSend l ev →
          (match ev with
            | .write k => 1 ≤ k ∧ k ≤ l.sndbuf.length
            | .read k => 1 ≤ k ∧ k ≤ readlen ∧ k ≤ l.wire.length
            | _ => True) → (l.next ev).isSome = true := by
  obtain ⟨rest, hi⟩ : ∃ rest, LinkInv l rest :=
    hr.invariant (P := fun l => ∃ rest, LinkInv l rest) (fun _ _ _ _ hs ⟨_, h⟩ => h.next hs)
      ⟨[], rfl, rfl, fun m hm => (by cases hm), rfl⟩
  obtain ⟨r, hread, h1⟩ := hi.readLen
  refine ⟨⟨_, hi.handed⟩, hi.alive, fun hs hw hrcv => ?_, r, hread, h1, fun ev hroom hev => ?_⟩
  · have hnil : rest = [] := by
      cases rest with
      | nil => rfl
      | cons m rest =>
          have hlt := hi.inside m rfl
          have hstream := congrArg List.length hi.stream
          rw [hs, hw, hrcv] at hstream
          simp only [List.append_nil, List.length_nil, List.map_cons, List.flatten_cons, List.length_append] at hstream
          omega
    have := hi.handed
    rwa [hnil, List.map_nil, List.append_nil] at this
  · unfold BusLink.next
    simp only [hi.alive, Bool.false_eq_true, if_false]
    cases ev with
    | send msg =>
        simp only [RoomToSend] at hroom
        simp only [sdsAppend, if_pos hroom, Option.map_some, Option.isSome_some]
    | write k =>
        simp only at hev ⊢
        rw [if_pos hev]
        rfl
    | read k =>
        simp only at hev ⊢
        have hfits : l.rcvbuf.length + (l.wire.take k).length < 2 ^ 31 := by
          rw [List.length_take, Nat.min_eq_left hev.2.2]
          cases rest with
          | nil =>
              have hnil := List.append_eq_nil_iff.mp (List.append_eq_nil_iff.mp hi.stream).2
              rw [hnil.1, List.length_nil] at hev
              omega
          | cons m rest =>
              obtain ⟨r', hr', -, hmax⟩ := hi.receiving.readLen
              rw [hread] at hr'
              cases hr'
              have := m.fits
              omega
        rw [BusLink.read, hread]
        simp only [if_pos hev, sdsAppend, if_pos hfits, Option.map_some, Option.isSome_some]
    | eagain => rfl

instance decRoomToSend (l : BusLink) : (ev : LinkEvent) → Decidable (RoomToSend l ev)
  | .send _ => inferInstanceAs (Decidable (_ < _))
  | .write _ | .read _ | .eagain => inferInstanceAs (Decidable True)

/-- A denied vote from a node called "a". -/
def deniedVote : Frame := Message.frame (fun _ => 0) ⟨[97], by decide, by decide⟩ 8000 (.responseVote ⟨1, false⟩) trivial

/-- The hypotheses at work: two messages, written in three pieces and read in six. -/
theorem link_delivers_pieces :
    ∃ l : BusLink, l.sent.length = 2 ∧ l.handed.length = 1 ∧ l.handed <+: l.sent.map Frame.bytes := by
  obtain ⟨l, hr, hl⟩ := run_of_exec BusLink.next RoomToSend BusLink.init
    [.send deniedVote, .write 50, .read 3, .eagain, .read 5, .send deniedVote, .write 70, .read 40, .write 1,
      .read 64, .read 8, .eagain, .read 1]
    (fun l => (l.sent.length, l.handed.length)) (2, 1) (by decide +kernel)
  exact ⟨l, congrArg Prod.fst hl, congrArg Prod.snd hl, (link_delivers l hr).1⟩

/-- Messages pile up in the send buffer as long as the peer does not read. -/
theorem exists_backlog :
    ∀ k, deniedVote.bytes.length * k < 2 ^ 31 →
      ∃ l, RunBy BusLink.next (fun _ _ => True) BusLink.init l ∧ l.freed = false ∧
        l.sndbuf.length = deniedVote.bytes.length * k := by
  intro k
  induction k with
  | zero => exact fun _ => ⟨_, .refl, rfl, rfl⟩
  | succ k ih =>
    intro hk
    rw [Nat.mul_succ] at hk ⊢
    obtain ⟨l, hr, halive, hlen⟩ := ih (by omega)
    have hroom : l.sndbuf.length + deniedVote.bytes.length < 2 ^ 31 := by omega
    have hstep : l.next (.send deniedVote) =
        some { l with sndbuf := l.sndbuf ++ deniedVote.bytes, sent := l.sent ++ [deniedVote] } := by
      unfold BusLink.next
      simp only [halive, Bool.false_eq_true, if_false, sdsAppend, if_pos hroom, Option.map_some]
    refine ⟨_, hr.tail ⟨_, trivial, hstep⟩, halive, ?_⟩
    rw [List.length_append, hlen]

/-- Nothing bounds the send buffer: a sequence of messages to a peer that does not read ends in one for which
    the sds string has no length. -/
theorem link_backlog_overflows :
    ∃ l, RunBy BusLink.next (fun _ _ => True) BusLink.init l ∧ l.freed = false ∧
      l.next (.send deniedVote) = none := by
  have hlen : deniedVote.bytes.length = 112 := by decide +kernel
  obtain ⟨l, hr, halive, hl⟩ := exists_backlog 19173961 (by rw [hlen]; decide)
  refine ⟨l, hr, halive, ?_⟩
  have hfull : ¬ l.sndbuf.length + deniedVote.bytes.length < 2 ^ 31 := by
    rw [hl, hlen]
    decide
  unfold BusLink.next
  simp only [halive, Bool.false_eq_true, if_false, sdsAppend, if_neg hfull, Option.map_none]

end Prez
