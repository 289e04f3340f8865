import Prez.Log.Recovery
import Prez.Lib.History

/-!
# `Prez.Log.Replicate` — taking over entries of another log

What `logWriteEntry` and `logAppendEntries` do to a log whose entries carry their own positions. Off the last
position a conflicting entry cuts the log there; on the last position `logTruncate` keeps it and the new entry
goes behind it. As long as the first conflict is not on the last position, a stretch of a leader's log is
taken over as replication needs it (`logAppendEntries_took`).
-/

namespace Prez

open Lib

/-- Every entry carries its own position, counted from 1. -/
def Contiguous (l : List LogEntry) : Prop := ∀ (k : Nat) (e : LogEntry), l[k]? = some e → e.index = k + 1

/-- The entry stands in the log at its own index with another term. -/
def Conflicts (l : List LogEntry) (e : LogEntry) : Bool :=
  match l[(e.index - 1).toNat]? with
  | some x => 1 ≤ e.index && x.index == e.index && x.term != e.term
  | none => false

/-! ## Contiguous logs -/

theorem contiguous_nil : Contiguous [] := by
  intro k e hk
  cases hk

variable {s : LogState} {e : LogEntry} {l : List LogEntry} {j : Nat}

theorem Contiguous.take (hl : Contiguous l) (i : Nat) : Contiguous (l.take i) := by
  intro k e hk
  rw [List.getElem?_take] at hk
  split at hk
  · exact hl k e hk
  · cases hk

theorem Contiguous.concat (hl : Contiguous l) (he : e.index = l.length + 1) : Contiguous (l ++ [e]) := by
  intro k x hk
  rcases Nat.lt_or_ge k l.length with hlt | hge
  · rw [List.getElem?_append_left hlt] at hk
    exact hl k x hk
  · rw [List.getElem?_append_right hge] at hk
    obtain ⟨hk0, rfl⟩ := List.getElem?_eq_some_iff.mp hk
    simp only [List.length_singleton] at hk0
    rw [List.getElem_singleton, he]
    omega

theorem Contiguous.currentIndex (hc : Contiguous s.list) : logCurrentIndex s = logLength s := by
  rw [logCurrentIndex_eq, List.getLast?_eq_getElem?, ← s.length_list]
  cases hlast : s.list[s.list.length - 1]? with
  | none =>
    have : s.list.length = 0 := by
      have := List.getElem?_eq_none_iff.mp hlast
      omega
    rw [this]
    rfl
  | some e =>
    have hlt : s.list.length - 1 < s.list.length := (List.getElem?_eq_some_iff.mp hlast).1
    show e.index = _
    rw [hc _ e hlast]
    omega

/-- The nodes of the list and its entries. -/
theorem LogState.getElem?_list (s : LogState) (k : Nat) : s.list[k]? = s.logEntries[k]?.map (·.logEntry) :=
  List.getElem?_map ..

theorem Conflicts_at (hl : Contiguous l) (hj : e.index = j + 1) :
    Conflicts l e = true ↔ ∃ x, l[j]? = some x ∧ x.term ≠ e.term := by
  have hpos : (e.index - 1).toNat = j := by omega
  unfold Conflicts
  rw [hpos]
  cases hx : l[j]? with
  | none => simp
  | some x =>
    have hxi : x.index = e.index := (hl j x hx).trans hj.symm
    simp only [hxi, beq_self_eq_true, Bool.and_true, Bool.and_eq_true, decide_eq_true_eq, bne_iff_ne, ne_eq,
      Option.some.injEq, exists_eq_left']
    exact and_iff_right (by omega)

/-! ## One entry -/

/-- What stands at a position of the log, seen by `logWriteCheck`. -/
theorem logWriteCheck_in (hc : Contiguous s.list) {e x : LogEntry} (hj : e.index = j + 1) (hx : s.list[j]? = some x) :
    logWriteCheck s e = if x.term = e.term then .present else .conflict := by
  have hlt : j < logLength s := by
    rw [← s.length_list]
    exact (List.getElem?_eq_some_iff.mp hx).1
  have hxi : x.index = e.index := (hc j x hx).trans hj.symm
  rw [s.getElem?_list] at hx
  obtain ⟨en, hen, rfl⟩ := Option.map_eq_some_iff.mp hx
  have hget : getLogEntry s e.index = some en := by
    rw [getLogEntry_in (by omega) (by omega), show (e.index - 1).toNat = j by omega]
    exact hen
  rw [logWriteCheck, if_pos (by omega), hget]
  by_cases ht : en.logEntry.term = e.term
  · rw [if_pos ht]
    exact if_pos ⟨hxi, ht⟩
  · rw [if_neg ht]
    dsimp only
    rw [if_neg fun h => ht h.2]
    exact if_pos ⟨fun h => ht h.symm, hxi.symm⟩

/-- The index behind the end wraps round to the head of the list, whose entry has another index. -/
theorem logWriteCheck_next (hc : Contiguous s.list) (hj : e.index = logLength s + 1) :
    logWriteCheck s e = .absent := by
  unfold logWriteCheck
  split
  · rename_i hpos
    -- `listIndex` of 0 is the head
    rw [getLogEntry_wrap (by omega) (by omega), show (e.index - 1 - (logLength s : Int)).toNat = 0 by omega]
    cases hen : s.logEntries[0]? with
    | none => rfl
    | some en =>
      have hone : en.logEntry.index = 1 := hc 0 en.logEntry (by rw [s.getElem?_list, hen]; rfl)
      dsimp only
      rw [if_neg (by omega), if_neg (by omega)]
  · rfl

theorem logWriteEntry_next (hc : Contiguous s.list) (hj : e.index = logLength s + 1) :
    logWriteEntry s e = some (logAppend s e) := by
  rw [logWriteEntry, logWriteCheck_next hc hj]

theorem logWriteEntry_present (hc : Contiguous s.list) {e x : LogEntry} (hj : e.index = j + 1)
    (hx : s.list[j]? = some x) (ht : x.term = e.term) : logWriteEntry s e = some s := by
  rw [logWriteEntry, logWriteCheck_in hc hj hx, if_pos ht]

/-- A conflict before the last position cuts the log there. -/
theorem logWriteEntry_conflict {s s' : LogState} (hc : Contiguous s.list) {e x : LogEntry} (hj : e.index = j + 1)
    (hx : s.list[j]? = some x) (ht : x.term ≠ e.term) (hlast : j + 1 ≠ logLength s)
    (h : logWriteEntry s e = some s') : s'.list = s.list.take j ++ [e] := by
  have hlt : j < logLength s := by
    rw [← s.length_list]
    exact (List.getElem?_eq_some_iff.mp hx).1
  rw [logWriteEntry, logWriteCheck_in hc hj hx, if_neg ht] at h
  obtain ⟨s₁, hs₁, rfl⟩ := Option.map_eq_some_iff.mp h
  rw [list_logAppend]
  rw [logTruncate, if_pos (by rw [toULong, if_neg (by omega)]; omega)] at hs₁
  obtain ⟨en, -, hs₁⟩ := Option.bind_eq_some_iff.mp hs₁
  obtain ⟨pos, hpos, hs₁⟩ := Option.bind_eq_some_iff.mp hs₁
  rw [getLogNode_eq, if_pos (by omega)] at hpos
  cases hpos
  cases hs₁
  rw [show (e.index - 1).toNat = j by omega]
  simp [LogState.list, List.map_take]

/-! ## A stretch of entries -/

section Stretch

variable {ll : List LogEntry}
variable {es : List LogEntry}

/-- The next entry of a stretch, its position and the rest. -/
theorem stretch_cons {e : LogEntry} {j : Nat} (h : e :: es <+: ll.drop j) :
    ll[j]? = some e ∧ es <+: ll.drop (j + 1) := by
  obtain ⟨r, hr⟩ := h
  have hj : ll[j]? = some e := by
    have hhead : (ll.drop j)[0]? = ll[j + 0]? := List.getElem?_drop
    rw [← hr] at hhead
    exact hhead.symm
  refine ⟨hj, r, ?_⟩
  rw [← List.tail_drop, ← hr]
  rfl

theorem take_succ_of_getElem? {e : LogEntry} {j : Nat} (h : ll[j]? = some e) : ll.take (j + 1) = ll.take j ++ [e] := by
  rw [List.take_add_one, h]
  rfl

/-- A log that is a prefix of the leader's goes on with the leader's entries. -/
theorem logAppendEntries_extend (hll : Contiguous ll) : ∀ (es : List LogEntry) {j : Nat} {s s' : LogState},
    s.list = ll.take j → j ≤ ll.length → es <+: ll.drop j → logAppendEntries s es = some s' →
      s'.list = ll.take (j + es.length) := by
  intro es
  induction es with
  | nil =>
    intro j s s' hs _ _ h
    cases h
    exact hs
  | cons e es ih =>
    intro j s s' hs hj hes h
    obtain ⟨he, hes⟩ := stretch_cons hes
    have hlt : j < ll.length := (List.getElem?_eq_some_iff.mp he).1
    have hlen : logLength s = j := by
      rw [← s.length_list, hs, List.length_take]
      omega
    obtain ⟨s₁, hs₁, h⟩ := Option.bind_eq_some_iff.mp h
    rw [logWriteEntry_next (by rw [hs]; exact hll.take j) (by rw [hlen]; exact hll j e he)] at hs₁
    cases hs₁
    have hnext : (logAppend s e).list = ll.take (j + 1) := by
      rw [list_logAppend, hs, take_succ_of_getElem? he]
    have := ih hnext hlt hes h
    rwa [Nat.add_right_comm, Nat.add_assoc] at this

/-- What becomes of a log that takes over entries of `ll` up to position `m`: it had them, or it now ends
    with them. -/
structure Took (old : LogState) (ll : List LogEntry) (es : List LogEntry) (m : Nat) (new : LogState) : Prop where
  had_or_ends :
    new = old ∧ old.list.take m = ll.take m ∧ m ≤ logLength old ∧ (∀ e ∈ es, Conflicts old.list e = false) ∨
    new.list = ll.take m ∧ ∀ p, p <+: old.list → p <+: ll → p.length ≤ m

/-- **The loop of `logAppendEntries`**, from a position up to which both logs agree. -/
theorem logAppendEntries_took (hll : Contiguous ll) : ∀ (es : List LogEntry) {j : Nat} {s s' : LogState},
    Contiguous s.list →
    (∀ (k : Nat) (x y : LogEntry), s.list[k]? = some x → ll[k]? = some y → x.term = y.term →
      s.list.take (k + 1) = ll.take (k + 1)) →
    s.list.take j = ll.take j → j ≤ logLength s → es <+: ll.drop j →
    (∀ e, es.find? (Conflicts s.list) = some e → e.index ≠ logLength s) →
    logAppendEntries s es = some s' → Took s ll es (j + es.length) s' := by
  intro es
  induction es with
  | nil =>
    intro j s s' _ _ hagree hj _ _ h
    cases h
    exact ⟨.inl ⟨rfl, hagree, hj, fun e he => nomatch he⟩⟩
  | cons e es ih =>
    intro j s s' hc hmatch hagree hj hes hfirst h
    obtain ⟨he, hes'⟩ := stretch_cons hes
    have hindex : e.index = j + 1 := hll j e he
    obtain ⟨s₁, hs₁, h⟩ := Option.bind_eq_some_iff.mp h
    have hsum : j + (e :: es).length = j + 1 + es.length := by
      rw [List.length_cons]
      omega
    rw [hsum]
    rcases hj.lt_or_eq with hlt | heq
    · obtain ⟨x, hx⟩ : ∃ x, s.list[j]? = some x :=
        ⟨_, List.getElem?_eq_getElem (by rw [s.length_list]; exact hlt)⟩
      by_cases ht : x.term = e.term
      · -- the entry is there already
        rw [logWriteEntry_present hc hindex hx ht] at hs₁
        cases hs₁
        have hno : Conflicts s.list e = false := by
          rw [Bool.eq_false_iff]
          intro hcon
          obtain ⟨y, hy, hne⟩ := (Conflicts_at hc hindex).mp hcon
          cases hx.symm.trans hy
          exact hne ht
        rw [List.find?_cons_of_neg (by rw [hno]; exact Bool.false_ne_true)] at hfirst
        obtain ⟨hold | hend⟩ := ih hc hmatch (hmatch j x e hx he ht) hlt hes' hfirst h
        · obtain ⟨h₁, h₂, h₃, h₄⟩ := hold
          refine ⟨.inl ⟨h₁, h₂, h₃, fun y hy => ?_⟩⟩
          rcases List.mem_cons.mp hy with rfl | hy
          · exact hno
          · exact h₄ y hy
        · exact ⟨.inr hend⟩
      · -- the first conflict: it is not at the last position, so the log is cut
        have hcon : Conflicts s.list e = true := (Conflicts_at hc hindex).mpr ⟨x, hx, ht⟩
        have hne := hfirst e (List.find?_cons_of_pos hcon)
        have hcut : s₁.list = ll.take (j + 1) := by
          rw [logWriteEntry_conflict hc hindex hx ht (by omega) hs₁, hagree, take_succ_of_getElem? he]
        have hjl : j + 1 ≤ ll.length := (List.getElem?_eq_some_iff.mp he).1
        refine ⟨.inr ⟨logAppendEntries_extend hll es hcut hjl hes' h, fun p hp hp' => ?_⟩⟩
        -- a common prefix ends before the conflict
        by_contra hlong
        have hpj : j < p.length := by omega
        obtain ⟨z, hz⟩ : ∃ z, p[j]? = some z := ⟨_, List.getElem?_eq_getElem hpj⟩
        have hzx := (getElem?_of_isPrefix hp hz).symm.trans hx
        have hze := (getElem?_of_isPrefix hp' hz).symm.trans he
        cases hzx
        cases hze
        exact ht rfl
    · -- behind the end of the log
      rw [logWriteEntry_next hc (by omega)] at hs₁
      cases hs₁
      have hall : s.list = ll.take j := by
        rw [← hagree, List.take_of_length_le]
        rw [s.length_list]
        exact heq.ge
      have hnext : (logAppend s e).list = ll.take (j + 1) := by
        rw [list_logAppend, hall, take_succ_of_getElem? he]
      have hjl : j + 1 ≤ ll.length := (List.getElem?_eq_some_iff.mp he).1
      refine ⟨.inr ⟨logAppendEntries_extend hll es hnext hjl hes' h, fun p hp _ => ?_⟩⟩
      have := hp.length_le
      rw [s.length_list] at this
      omega

theorem Took.takes {old new : LogState} {m : Nat} (h : Took old ll es m new) :
    History.Takes old.list ll m new.list := by
  rcases h.had_or_ends with ⟨rfl, hagree, -, -⟩ | ⟨hnew, hshort⟩
  · refine ⟨fun p hp _ => hp, ?_, .inl rfl⟩
    rw [← hagree]
    exact List.take_prefix ..
  · rw [hnew]
    refine ⟨fun p hp hp' => ?_, List.prefix_rfl, .inr (List.take_prefix ..)⟩
    refine prefix_of_length_le hp' (List.take_prefix ..) ?_
    rw [List.length_take]
    exact le_min (hshort p hp hp') hp'.length_le

theorem Took.contiguous {old new : LogState} {m : Nat} (h : Took old ll es m new) (hold : Contiguous old.list)
    (hll : Contiguous ll) : Contiguous new.list := by
  rcases h.had_or_ends with ⟨rfl, -⟩ | ⟨hnew, -⟩
  · exact hold
  · rw [hnew]
    exact hll.take m

/-- A successful `logVerifyAppend` finds the entry at the index, with the term. -/
theorem logVerifyAppend_true {s : LogState} {k : Nat} {term : Int} (hk : 0 < k)
    (h : logVerifyAppend s k term = some true) : ∃ x, s.list[k - 1]? = some x ∧ x.term = term := by
  rw [logVerifyAppend, if_neg (by omega)] at h
  split at h
  · cases h
  · rename_i hle
    rw [toULong, if_neg (by omega)] at hle
    rw [getLogEntry_in (by omega) (by omega)] at h
    obtain ⟨en, hen, hterm⟩ := Option.map_eq_some_iff.mp h
    refine ⟨en.logEntry, ?_, by simpa using hterm⟩
    rw [s.getElem?_list, show k - 1 = ((k : Int) - 1).toNat by omega, hen]
    rfl

/-- The consistency check of an append request that carries a stretch of `ll` finds agreement up to it. -/
theorem logVerifyAppend_agree {s : LogState} {k : Nat} {term : Int}
    (hmatch : ∀ (k : Nat) (x y : LogEntry), s.list[k]? = some x → ll[k]? = some y → x.term = y.term →
      s.list.take (k + 1) = ll.take (k + 1))
    (hprev : 0 < k → ∃ e, ll[k - 1]? = some e ∧ e.term = term) (h : logVerifyAppend s k term = some true) :
    s.list.take k = ll.take k ∧ k ≤ logLength s := by
  rcases Nat.eq_zero_or_pos k with rfl | hk
  · exact ⟨rfl, Nat.zero_le _⟩
  obtain ⟨x, hx, hxt⟩ := logVerifyAppend_true hk h
  obtain ⟨y, hy, hyt⟩ := hprev hk
  have hagree := hmatch _ x y hx hy (hxt.trans hyt.symm)
  rw [Nat.sub_add_cancel hk] at hagree
  have hlt : k - 1 < s.list.length := (List.getElem?_eq_some_iff.mp hx).1
  rw [s.length_list] at hlt
  exact ⟨hagree, by omega⟩

end Stretch

/-! ## Entries of an unknown sender -/

/-- The entries carry the indices that follow `prev`, in order. -/
def Consecutive : (prev : Int) → List LogEntry → Prop
  | _, [] => True
  | prev, e :: es => e.index = prev + 1 ∧ Consecutive (prev + 1) es

instance : ∀ (prev : Int) (es : List LogEntry), Decidable (Consecutive prev es)
  | _, [] => isTrue trivial
  | prev, _ :: es =>
    have := instDecidableConsecutive (prev + 1) es
    inferInstanceAs (Decidable (_ ∧ _))

theorem Contiguous.append : ∀ {es l : List LogEntry}, Contiguous l → Consecutive l.length es →
    Contiguous (l ++ es) := by
  intro es
  induction es with
  | nil =>
    intro l hl _
    rwa [List.append_nil]
  | cons e es ih =>
    intro l hl hes
    rw [List.append_cons]
    refine ih (hl.concat hes.1) ?_
    rw [List.length_append, List.length_singleton, Nat.cast_add, Nat.cast_one]
    exact hes.2

/-- Entries that go on where the log ends are appended. -/
theorem logAppendEntries_append {s s' : LogState} {es : List LogEntry} (hc : Contiguous s.list)
    (hes : Consecutive (logLength s) es) (h : logAppendEntries s es = some s') : s'.list = s.list ++ es := by
  rw [← s.length_list] at hes
  -- the log and the entries together are a log that it is a prefix of
  have hall : s'.list = (s.list ++ es).take (s.list.length + es.length) :=
    logAppendEntries_extend (hc.append hes) es (List.take_left ..).symm
      (by rw [List.length_append]; exact Nat.le_add_right ..) (by rw [List.drop_left]) h
  rw [hall, ← List.length_append, List.take_length]

/-- A successful `logVerifyAppend` is about the start or a position of the log. -/
theorem logVerifyAppend_le {k : Nat} {term : Int} (h : logVerifyAppend s k term = some true) : k ≤ logLength s := by
  rcases Nat.eq_zero_or_pos k with rfl | hk
  · exact Nat.zero_le _
  obtain ⟨x, hx, -⟩ := logVerifyAppend_true hk h
  have hlt := (List.getElem?_eq_some_iff.mp hx).1
  rw [s.length_list] at hlt
  omega

end Prez
