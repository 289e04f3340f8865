import Prez.Log.Replicate

/-!
# `Prez.Log.Reconcile` — a follower's log after an append

`reconcile` says as a list what `logAppendEntries` makes of a contiguous log: entries that are there already are
left alone, the first conflict cuts the log, and what follows is appended. A conflict with the last entry is not
cut, so everything behind it is off by one. `append_reconciles` compares that list with what replication wants
(`Reconciled`) and says exactly when it is that.
-/

namespace Prez

open Lib

/-! ## Consecutive entries -/

theorem Consecutive.getElem {prev : Int} {es : List LogEntry} (h : Consecutive prev es) :
    ∀ {k : Nat} {e : LogEntry}, es[k]? = some e → e.index = prev + k + 1 := by
  induction es generalizing prev with
  | nil => intro k e hk; simp at hk
  | cons a es ih =>
    intro k e hk
    cases k with
    | zero =>
      cases hk
      simpa using h.1
    | succ k =>
      have := ih h.2 (k := k) (e := e) hk
      push_cast
      omega

theorem Consecutive.drop {prev : Int} {es : List LogEntry} (h : Consecutive prev es) (k : Nat) :
    Consecutive (prev + k) (es.drop k) := by
  induction k generalizing prev es with
  | zero => simpa using h
  | succ k ih =>
    cases es with
    | nil => trivial
    | cons a es =>
      have := ih h.2
      rwa [show prev + 1 + (k : Int) = prev + ((k + 1 : Nat) : Int) by push_cast; omega] at this

/-- An entry of the message, with its place in it. -/
theorem Consecutive.of_mem {prev : Nat} {es : List LogEntry} (h : Consecutive prev es) {e : LogEntry} (he : e ∈ es) :
    ∃ k : Nat, es[k]? = some e ∧ e.index = prev + k + 1 := by
  obtain ⟨k, hk⟩ := List.getElem?_of_mem he
  exact ⟨k, hk, h.getElem hk⟩

/-- Behind the end of the log there is nothing to conflict with. -/
theorem conflicts_behind {l : List LogEntry} {e : LogEntry} (h : l.length < e.index) : Conflicts l e = false := by
  unfold Conflicts
  rw [List.getElem?_eq_none (by omega)]

/-! ## The result as a list -/

/-- What `logAppendEntries` makes of a contiguous log that agrees with the sender up to `prev`. -/
def reconcile (old : List LogEntry) (prev : Nat) (es : List LogEntry) : List LogEntry :=
  match es.find? (Conflicts old) with
  | none => old ++ es.drop (old.length - prev)
  | some e =>
    -- `logTruncate` leaves the last entry in place
    (if e.index = old.length then old else old.take (e.index - 1).toNat) ++ es.drop ((e.index - 1).toNat - prev)

theorem logAppendEntries_isSome (es : List LogEntry) : ∀ s : LogState, ∃ s', logAppendEntries s es = some s' := by
  induction es with
  | nil => exact fun s => ⟨s, rfl⟩
  | cons e es ih =>
    intro s
    obtain ⟨s₁, hs₁⟩ := logWriteEntry_isSome s e
    obtain ⟨s', hs'⟩ := ih s₁
    exact ⟨s', by rw [logAppendEntries, List.foldlM_cons, hs₁]; exact hs'⟩

/-- Every index is that of the position before: nothing is found where it is looked for, so the entries go to
    the end one after the other. -/
theorem logAppendEntries_shifted : ∀ {es : List LogEntry} {s s' : LogState} {last : LogEntryNode},
    s.logEntries.getLast? = some last → last.logEntry.index = (logLength s : Int) - 1 →
    Consecutive ((logLength s : Int) - 1) es → logAppendEntries s es = some s' → s'.list = s.list ++ es := by
  intro es
  induction es with
  | nil =>
    intro s s' last _ _ _ h
    cases h
    simp
  | cons e es ih =>
    intro s s' last hlast hindex hes h
    obtain ⟨hei, hes⟩ := hes
    obtain ⟨s₁, hs₁, h⟩ := Option.bind_eq_some_iff.mp h
    have hpos : 0 < logLength s := List.length_pos_of_mem (List.mem_of_getLast? hlast)
    -- `getLogEntry` finds the last entry, which carries the index before
    have hget : getLogEntry s e.index = some last := by
      rw [getLogEntry_in (by omega) (by omega), ← hlast, List.getLast?_eq_getElem?]
      congr 1
      unfold logLength at *
      omega
    have habsent : logWriteCheck s e = .absent := by
      rw [logWriteCheck, if_pos hpos, hget]
      dsimp only
      rw [if_neg (by omega), if_neg (by omega)]
    rw [logWriteEntry, habsent] at hs₁
    cases hs₁
    have hlen : logLength (logAppend s e) = logLength s + 1 := by simp [logLength, logAppend]
    have hnext : (logAppend s e).logEntries.getLast? = some ⟨e, s.logCurrentSize⟩ := by simp [logAppend]
    have := ih hnext (by rw [hlen]; push_cast; show e.index = _; omega)
      (by rw [hlen]; push_cast; rwa [show (logLength s : Int) + 1 - 1 = (logLength s : Int) - 1 + 1 by omega]) h
    rw [this, list_logAppend, List.append_assoc, List.singleton_append]

/-- A conflict with the last entry leaves the log as it is and goes behind it. -/
theorem logWriteEntry_conflict_last {s : LogState} (hc : Contiguous s.list) {e x : LogEntry} {j : Nat}
    (hj : e.index = j + 1) (hx : s.list[j]? = some x) (ht : x.term ≠ e.term) (hlast : j + 1 = logLength s) :
    logWriteEntry s e = some (logAppend s e) := by
  rw [logWriteEntry, logWriteCheck_in hc hj hx, if_neg ht]
  have hkeep : logTruncate s e.index = some s := by
    rw [logTruncate, if_neg]
    rw [toULong, if_neg (by omega)]
    omega
  rw [hkeep]
  rfl

/-- **The loop of `logAppendEntries`** on a contiguous log, from a position of it. -/
theorem logAppendEntries_reconcile : ∀ {es : List LogEntry} {j : Nat} {s s' : LogState}, Contiguous s.list →
    Consecutive j es → j ≤ logLength s → logAppendEntries s es = some s' → s'.list = reconcile s.list j es := by
  intro es
  induction es with
  | nil =>
    intro j s s' _ _ _ h
    cases h
    simp [reconcile]
  | cons e es ih =>
    intro j s s' hc hes hj h
    have hall := hes
    obtain ⟨hindex, hes⟩ := hes
    have htail : Consecutive ((j + 1 : Nat) : Int) es := by
      push_cast
      exact hes
    rcases hj.lt_or_eq with hlt | rfl
    · obtain ⟨s₁, hs₁, h⟩ := Option.bind_eq_some_iff.mp h
      obtain ⟨x, hx⟩ : ∃ x, s.list[j]? = some x :=
        ⟨_, List.getElem?_eq_getElem (by rw [s.length_list]; exact hlt)⟩
      have hcon := Conflicts_at hc hindex
      by_cases ht : x.term = e.term
      · -- the entry is taken to be there already
        rw [logWriteEntry_present hc hindex hx ht] at hs₁
        cases hs₁
        have hno : ¬ Conflicts s.list e = true := by
          rw [hcon]
          rintro ⟨y, hy, hne⟩
          cases hx.symm.trans hy
          exact hne ht
        rw [ih hc htail hlt h]
        unfold reconcile
        rw [List.find?_cons_of_neg hno]
        cases hfind : es.find? (Conflicts s.list) with
        | none =>
          dsimp only
          rw [s.length_list, show logLength s - j = logLength s - (j + 1) + 1 by omega, List.drop_succ_cons]
        | some e' =>
          obtain ⟨k, -, hk⟩ := htail.of_mem (List.mem_of_find?_eq_some hfind)
          dsimp only
          rw [show (e'.index - 1).toNat - j = (e'.index - 1).toNat - (j + 1) + 1 by omega, List.drop_succ_cons]
      · have hfirst : (e :: es).find? (Conflicts s.list) = some e :=
          List.find?_cons_of_pos (hcon.mpr ⟨x, hx, ht⟩)
        have hpos : (e.index - 1).toNat = j := by omega
        unfold reconcile
        rw [hfirst]
        dsimp only
        rw [hpos, Nat.sub_self, List.drop_zero, s.length_list]
        by_cases hlast : j + 1 = logLength s
        · -- the conflict that is not cut
          rw [if_pos (by omega)]
          rw [logWriteEntry_conflict_last hc hindex hx ht hlast] at hs₁
          cases hs₁
          have hlen : logLength (logAppend s e) = logLength s + 1 := by simp [logLength, logAppend]
          have hshift : ((logLength (logAppend s e) : Nat) : Int) - 1 = ((j + 1 : Nat) : Int) := by
            rw [hlen]
            push_cast
            omega
          have hlastNode : (logAppend s e).logEntries.getLast? = some ⟨e, s.logCurrentSize⟩ := by simp [logAppend]
          have := logAppendEntries_shifted hlastNode (by rw [hshift]; exact hindex) (by rw [hshift]; exact htail) h
          rw [this, list_logAppend, List.append_assoc, List.singleton_append]
        · rw [if_neg (by omega)]
          have hcut := logWriteEntry_conflict hc hindex hx ht hlast hs₁
          have htake : (s.list.take j).length = j := by simp [s.length_list, hj]
          have hc₁ : Contiguous s₁.list := by
            rw [hcut]
            exact (hc.take j).concat (by rw [htake]; exact hindex)
          have hlen : logLength s₁ = j + 1 := by
            rw [← s₁.length_list, hcut, List.length_append, htake, List.length_singleton]
          have := logAppendEntries_append hc₁ (by rw [hlen]; exact htail) h
          rw [this, hcut, List.append_assoc, List.singleton_append]
    · -- behind the end of the log
      have hnone : (e :: es).find? (Conflicts s.list) = none := by
        rw [List.find?_eq_none]
        intro y hy
        obtain ⟨k, -, hk⟩ := hall.of_mem hy
        rw [conflicts_behind (by rw [s.length_list]; omega)]
        simp
      rw [logAppendEntries_append hc hall h]
      unfold reconcile
      rw [hnone]
      simp [s.length_list]

/-! ## What replication wants -/

/-- The log `new` after the entries that follow `prev` have been taken over into `old`. -/
structure Reconciled (old : List LogEntry) (prev : Nat) (es new : List LogEntry) : Prop where
  contiguous : Contiguous new
  stored : ∀ e ∈ es, new[(e.index - 1).toNat]? = some e
  before : new.take prev = old.take prev
  kept : (∀ e ∈ es, Conflicts old e = false) → new.drop (prev + es.length) = old.drop (prev + es.length)
  removed : (∃ e ∈ es, Conflicts old e = true) → new.drop (prev + es.length) = []

/-- The first conflict is not with the last entry, and an entry before it that has the index and the term of an
    entry of the log is that entry. -/
def Reconcilable (old es : List LogEntry) : Prop :=
  (∀ e, es.find? (Conflicts old) = some e → e.index ≠ old.length) ∧
    ∀ e ∈ es.takeWhile fun e => !Conflicts old e, ∀ x, old[(e.index - 1).toNat]? = some x → x = e
deriving Decidable

section

variable {old es : List LogEntry} {prev : Nat}

/-- The place of the first conflict in the message. -/
theorem find_conflict (hes : Consecutive prev es) {e : LogEntry} (h : es.find? (Conflicts old) = some e) :
    ∃ k : Nat, es[k]? = some e ∧ e.index = prev + k + 1 ∧ prev + k < old.length ∧
      (es.takeWhile fun e => !Conflicts old e) = es.take k := by
  obtain ⟨hcon, as, bs, rfl, has⟩ := List.find?_eq_some_iff_append.mp h
  have hk : (as ++ e :: bs)[as.length]? = some e := by simp
  have hindex := hes.getElem hk
  refine ⟨as.length, hk, hindex, ?_, ?_⟩
  · by_contra hlen
    rw [conflicts_behind (by omega)] at hcon
    cases hcon
  · rw [List.take_left, List.takeWhile_append_of_pos has, List.takeWhile_cons_of_neg (by simpa using hcon),
      List.append_nil]

theorem Contiguous.append_rest (hc : Contiguous old) (hes : Consecutive prev es) (hprev : prev ≤ old.length) :
    Contiguous (old ++ es.drop (old.length - prev)) := by
  apply hc.append
  have := hes.drop (old.length - prev)
  rwa [show (prev : Int) + ((old.length - prev : Nat) : Int) = old.length by omega] at this

theorem Contiguous.append_cut (hc : Contiguous old) (hes : Consecutive prev es) {k : Nat}
    (hlt : prev + k < old.length) : Contiguous (old.take (prev + k) ++ es.drop k) := by
  apply (hc.take _).append
  rw [List.length_take, min_eq_left hlt.le]
  exact_mod_cast hes.drop k

/-- **What an append keeps**, whoever sent it: when the first conflict is not on the last position, the log
    stays contiguous and keeps everything below the conflicts. -/
theorem logAppendEntries_keeps {s s' : LogState} (hc : Contiguous s.list) (hes : Consecutive prev es)
    (hprev : prev ≤ logLength s) (hfirst : ∀ e, es.find? (Conflicts s.list) = some e → e.index ≠ logLength s)
    (h : logAppendEntries s es = some s') :
    Contiguous s'.list ∧ ∀ k : Nat, (∀ e ∈ es, Conflicts s.list e = true → k < e.index) →
      s.list.take k <+: s'.list := by
  rw [logAppendEntries_reconcile hc hes hprev h]
  unfold reconcile
  rw [← s.length_list] at hprev hfirst
  cases hfind : es.find? (Conflicts s.list) with
  | none =>
    exact ⟨hc.append_rest hes hprev, fun k _ => (List.take_prefix ..).trans (List.prefix_append ..)⟩
  | some c =>
    obtain ⟨k, -, hindex, hlt, -⟩ := find_conflict hes hfind
    dsimp only
    rw [if_neg (hfirst c hfind), show (c.index - 1).toNat = prev + k by omega, Nat.add_sub_cancel_left]
    refine ⟨hc.append_cut hes hlt, fun m hm => ?_⟩
    have hmc := hm c (List.mem_of_find?_eq_some hfind) (List.find?_some hfind)
    exact (List.take_prefix_take_left (by omega)).trans (List.prefix_append ..)

/-- The entries of the message before the first conflict are in front of what it changes. -/
theorem reconcile_below (hes : Consecutive prev es) {e : LogEntry}
    (he : e ∈ es.takeWhile fun e => !Conflicts old e) (hin : (e.index - 1).toNat < old.length) :
    (reconcile old prev es)[(e.index - 1).toNat]? = old[(e.index - 1).toNat]? := by
  unfold reconcile
  cases hfind : es.find? (Conflicts old) with
  | none => exact List.getElem?_append_left hin
  | some c =>
    obtain ⟨k, -, hindex, hlt, htake⟩ := find_conflict hes hfind
    rw [htake] at he
    obtain ⟨m, hm⟩ := List.getElem?_of_mem he
    rw [List.getElem?_take] at hm
    split at hm
    · rename_i hmk
      have := hes.getElem hm
      dsimp only
      split
      · exact List.getElem?_append_left hin
      · rw [List.getElem?_append_left (by rw [List.length_take]; omega), List.getElem?_take, if_pos (by omega)]
    · cases hm

/-- Without a conflict, the part of the message behind the log is appended. -/
theorem reconciled_of_none (hc : Contiguous old) (hes : Consecutive prev es) (hprev : prev ≤ old.length)
    (hnone : es.find? (Conflicts old) = none) (hsame : ∀ e ∈ es, ∀ x, old[(e.index - 1).toNat]? = some x → x = e) :
    Reconciled old prev es (old ++ es.drop (old.length - prev)) := by
  have hno : ∀ e ∈ es, Conflicts old e = false := by
    intro e he
    simpa using List.find?_eq_none.mp hnone e he
  constructor
  case contiguous => exact hc.append_rest hes hprev
  case stored =>
    intro e he
    obtain ⟨k, hk, hindex⟩ := hes.of_mem he
    have hpos : (e.index - 1).toNat = prev + k := by omega
    rw [hpos]
    rcases Nat.lt_or_ge (prev + k) old.length with hin | hout
    · rw [List.getElem?_append_left hin]
      obtain ⟨x, hx⟩ : ∃ x, old[prev + k]? = some x := ⟨_, List.getElem?_eq_getElem hin⟩
      rw [hx, hsame e he x (by rw [hpos]; exact hx)]
    · rw [List.getElem?_append_right hout, List.getElem?_drop, show old.length - prev + (prev + k - old.length) = k by omega]
      exact hk
  case before => exact List.take_append_of_le_length hprev
  case kept =>
    intro _
    rcases Nat.le_total (prev + es.length) old.length with hin | hout
    · rw [List.drop_of_length_le (l := es) (by omega), List.append_nil]
    · rw [List.drop_of_length_le hout, List.drop_of_length_le]
      rw [List.length_append, List.length_drop]
      omega
  case removed =>
    rintro ⟨e, he, hcon⟩
    rw [hno e he] at hcon
    cases hcon

/-- A conflict before the last entry cuts the log, and the message follows from there. -/
theorem reconciled_of_some (hc : Contiguous old) (hes : Consecutive prev es) {c : LogEntry} {k : Nat}
    (hk : es[k]? = some c) (hlt : prev + k < old.length) (hcon : Conflicts old c = true)
    (hsame : ∀ e ∈ es.take k, ∀ x, old[(e.index - 1).toNat]? = some x → x = e) :
    Reconciled old prev es (old.take (prev + k) ++ es.drop k) := by
  have hlen : (old.take (prev + k)).length = prev + k := by
    rw [List.length_take]
    omega
  have hkl : k < es.length := (List.getElem?_eq_some_iff.mp hk).1
  constructor
  case contiguous => exact hc.append_cut hes hlt
  case stored =>
    intro e he
    obtain ⟨m, hm, hindex⟩ := hes.of_mem he
    have hpos : (e.index - 1).toNat = prev + m := by omega
    rw [hpos]
    rcases Nat.lt_or_ge m k with hin | hout
    · obtain ⟨x, hx⟩ : ∃ x, old[prev + m]? = some x := ⟨_, List.getElem?_eq_getElem (by omega)⟩
      have hmem : e ∈ es.take k := List.mem_of_getElem? (i := m) (by rw [List.getElem?_take, if_pos hin]; exact hm)
      rw [List.getElem?_append_left (by omega), List.getElem?_take, if_pos (by omega), hx,
        hsame e hmem x (by rw [hpos]; exact hx)]
    · rw [List.getElem?_append_right (by omega), hlen, List.getElem?_drop, show k + (prev + m - (prev + k)) = m by omega]
      exact hm
  case before =>
    rw [List.take_append_of_le_length (by omega), List.take_take, Nat.min_eq_left (by omega)]
  case kept =>
    intro hno
    rw [hno c (List.mem_of_getElem? hk)] at hcon
    cases hcon
  case removed =>
    intro _
    apply List.drop_of_length_le
    rw [List.length_append, hlen, List.length_drop]
    omega

/-- **When the result is what replication wants.** -/
theorem reconciled_iff (hc : Contiguous old) (hes : Consecutive prev es) (hprev : prev ≤ old.length) :
    Reconciled old prev es (reconcile old prev es) ↔ Reconcilable old es := by
  constructor
  · intro h
    refine ⟨fun c hfind hlast => ?_, fun e he x hx => ?_⟩
    · -- the entry that was not cut is followed by one with the same index
      obtain ⟨k, hk, hindex, hlt, -⟩ := find_conflict hes hfind
      have hnew : reconcile old prev es = old ++ es.drop k := by
        unfold reconcile
        rw [hfind]
        dsimp only
        rw [if_pos hlast, show (c.index - 1).toNat - prev = k by omega]
      have hat : (reconcile old prev es)[old.length]? = some c := by
        rw [hnew, List.getElem?_append_right le_rfl, Nat.sub_self, List.getElem?_drop, Nat.add_zero]
        exact hk
      have := h.contiguous _ _ hat
      omega
    · have hin := (List.getElem?_eq_some_iff.mp hx).1
      have hstored := h.stored e ((List.takeWhile_sublist _).subset he)
      rw [reconcile_below hes he hin, hx] at hstored
      exact Option.some.inj hstored
  · rintro ⟨hlast, hsame⟩
    unfold reconcile
    cases hfind : es.find? (Conflicts old) with
    | none =>
      have hall : (es.takeWhile fun e => !Conflicts old e) = es := by
        rw [List.takeWhile_eq_self_iff]
        intro e he
        simpa using List.find?_eq_none.mp hfind e he
      rw [hall] at hsame
      exact reconciled_of_none hc hes hprev hfind hsame
    | some c =>
      obtain ⟨k, hk, hindex, hlt, htake⟩ := find_conflict hes hfind
      rw [htake] at hsame
      dsimp only
      rw [if_neg (hlast c hfind), show (c.index - 1).toNat = prev + k by omega, Nat.add_sub_cancel_left]
      exact reconciled_of_some hc hes hk hlt (List.find?_some hfind) hsame

end

/-- A successful `logVerifyAppend` is about the start or a position of the log. -/
theorem logVerifyAppend_range {s : LogState} {prev term : Int} (h : logVerifyAppend s prev term = some true) :
    0 ≤ prev ∧ prev ≤ logLength s := by
  have hpos : 0 ≤ prev := by
    by_contra hneg
    rw [logVerifyAppend, if_neg (by omega)] at h
    split at h
    · cases h
    · -- a negative index is no position, whatever the comparison says
      rw [getLogEntry, getLogNode_eq, if_neg (by omega), if_neg (by omega)] at h
      cases h
  refine ⟨hpos, ?_⟩
  obtain ⟨k, rfl⟩ := Int.eq_ofNat_of_zero_le hpos
  exact_mod_cast logVerifyAppend_le h

/-- **Follower log reconciliation.** An accepted message with consecutive indices is always written, and the log
    is then what replication wants exactly if its first conflict is not with the last entry of the log and the
    entries before it that the log has under their index and term are the same entries. -/
theorem append_reconciles {s : LogState} (hc : Contiguous s.list) {prev term : Int} {es : List LogEntry}
    (hv : logVerifyAppend s prev term = some true) (hes : Consecutive prev es) :
    ∃ s', logAppendEntries s es = some s' ∧
      (Reconciled s.list prev.toNat es s'.list ↔ Reconcilable s.list es) := by
  obtain ⟨hpos, hle⟩ := logVerifyAppend_range hv
  obtain ⟨k, rfl⟩ := Int.eq_ofNat_of_zero_le hpos
  have hk : k ≤ logLength s := by exact_mod_cast hle
  obtain ⟨s', hs'⟩ := logAppendEntries_isSome es s
  refine ⟨s', hs', ?_⟩
  rw [logAppendEntries_reconcile hc hes hk hs', Int.toNat_natCast]
  exact reconciled_iff hc hes (by rw [s.length_list]; exact hk)

/-- A log with the given entries, written one after the other. -/
def logOf (l : List LogEntry) : LogState := l.foldl logAppend LogState.empty

/-- The second of three entries conflicts with the message; both entries of the message take its place. -/
theorem append_reconciles_cut : Contiguous (logOf [setA 1 1, setA 2 1, setA 3 1]).list ∧
    logVerifyAppend (logOf [setA 1 1, setA 2 1, setA 3 1]) 1 1 = some true ∧
      ∃ s', logAppendEntries (logOf [setA 1 1, setA 2 1, setA 3 1]) [setA 2 2, setA 3 2] = some s' ∧
        Reconciled [setA 1 1, setA 2 1, setA 3 1] 1 [setA 2 2, setA 3 2] s'.list := by
  have hc : Contiguous [setA 1 1, setA 2 1, setA 3 1] := contiguous_nil.append (by decide)
  have hv : logVerifyAppend (logOf [setA 1 1, setA 2 1, setA 3 1]) 1 1 = some true := by decide +kernel
  have hes : Consecutive 1 [setA 2 2, setA 3 2] := by decide
  obtain ⟨s', hs', hiff⟩ := append_reconciles (s := logOf [setA 1 1, setA 2 1, setA 3 1]) hc hv hes
  exact ⟨hc, hv, s', hs', hiff.mpr (by decide +kernel)⟩

/-- The only entry of the log conflicts with the message: it stays, and the second entry has index 1 again. -/
theorem append_not_reconciled : Contiguous (logOf [setA 1 1]).list ∧
    logVerifyAppend (logOf [setA 1 1]) 0 0 = some true ∧ Consecutive 0 [setA 1 2] ∧
      ∃ s', logAppendEntries (logOf [setA 1 1]) [setA 1 2] = some s' ∧
        ¬ Reconciled [setA 1 1] 0 [setA 1 2] s'.list := by
  have hlist : (logAppendEntries (logOf [setA 1 1]) [setA 1 2]).map LogState.list = some [setA 1 1, setA 1 2] := by
    decide +kernel
  obtain ⟨s', hs', hl⟩ := Option.map_eq_some_iff.mp hlist
  have hc : Contiguous [setA 1 1] := contiguous_nil.append (by decide)
  refine ⟨hc, rfl, by decide, s', hs', fun h => ?_⟩
  have := h.contiguous 1 (setA 1 2) (by rw [hl]; rfl)
  exact absurd this (by decide)

end Prez
