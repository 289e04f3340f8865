import Prez.Adlist.Rep
import Prez.Lib.Run

/-!
# `Prez.Adlist.Sequence` — a list is a sequence, whatever is done to it

Several lists share the heap: `listDup` makes a new one, and the nodes of all of them come from one allocator. An operation
names a list by its number, a node by its position (the pointer is taken from `listIndex`) and carries the addresses that
`zmalloc` returns, which are free. Beside the lists a run keeps the sequences that they stand for; the operations on the
sequences are those of `List`.

`Holds` is the invariant: every list is the chain of its sequence, and no node is in two lists. `Shows` is what a reader of a
list sees, and follows from it.
-/

namespace Prez

open Lib

variable {A V : Type}

/-! ## Operations -/

/-- What is done to one list. -/
inductive Edit (A V : Type) where
  | addHead (a : A) (v : V)
  | addTail (a : A) (v : V)
  | insert (pos : Nat) (a : A) (v : V) (after : Bool)
  | del (pos : Nat)
  | rotate
  /-- A loop with `listNext`, from the node at `start` on or from NULL, that deletes nodes as `drops` says. -/
  | loop (start : Nat) (direction : Direction) (drops : List Bool)

/-- The call. -/
def Edit.run [DecidableEq A] (h : Cells A V) (list : AdList A V) : Edit A V → Option (Cells A V × AdList A V)
  | .addHead a v => listAddNodeHead h list a v
  | .addTail a v => listAddNodeTail h list a v
  | .insert pos a v after => do
    let node ← listIndexNode h list pos
    listInsertNode h list (← node) a v after
  | .del pos => do
    let node ← listIndexNode h list pos
    listDelNode h list (← node)
  | .rotate => listRotate h list
  | .loop start direction drops => do
    let node ← listIndexNode h list start
    listDeleteLoop drops h list ⟨node, direction⟩

/-- The sequence that is expected. -/
def Edit.expect (l : List (A × V)) : Edit A V → List (A × V)
  | .addHead a v => (a, v) :: l
  | .addTail a v => l ++ [(a, v)]
  | .insert pos a v after =>
    let i := if after then pos + 1 else pos
    l.take i ++ (a, v) :: l.drop i
  | .del pos => l.eraseIdx pos
  | .rotate => l.getLast?.toList ++ l.dropLast
  | .loop start .startHead drops => l.take start ++ keep drops (l.drop start)
  | .loop start .startTail drops =>
    if start < l.length then (keep drops (l.take (start + 1)).reverse).reverse ++ l.drop (start + 1) else l

/-- The call is made with a node of the list, and with memory that is free. -/
def Edit.Valid (h : Cells A V) (l : List (A × V)) : Edit A V → Prop
  | .addHead a _ => (h a).isNone = true
  | .addTail a _ => (h a).isNone = true
  | .insert pos a _ _ => pos < l.length ∧ (h a).isNone = true
  | .del pos => pos < l.length
  | .rotate => True
  | .loop .. => True

instance (h : Cells A V) (l : List (A × V)) : (e : Edit A V) → Decidable (e.Valid h l)
  | .addHead .. | .addTail .. => inferInstanceAs (Decidable (_ = _))
  | .insert .. => inferInstanceAs (Decidable (_ ∧ _))
  | .del _ => inferInstanceAs (Decidable (_ < _))
  | .rotate | .loop .. => instDecidableTrue

/-! ## One list -/

section

variable {h : Cells A V} {list : AdList A V} {l : List (A × V)}

/-- **Each edit leaves the expected sequence.** -/
theorem Edit.run_leaves [DecidableEq A] (hr : Rep h list l) {e : Edit A V} (hv : e.Valid h l) : Leaves h list l (e.run h list) (e.expect l) := by
  cases e with
  | addHead a v => exact hr.addHead (Option.isNone_iff_eq_none.mp hv) v
  | addTail a v => exact hr.addTail (Option.isNone_iff_eq_none.mp hv) v
  | insert pos a v after =>
    obtain ⟨hpos, hfree⟩ := hv
    have hr' := hr
    rw [eq_take_cons_drop hpos] at hr'
    have hins := hr'.insert (Option.isNone_iff_eq_none.mp hfree) v after
    rw [← eq_take_cons_drop hpos] at hins
    rw [Edit.run, hr.node_at, List.getElem?_eq_getElem hpos]
    cases after with
    | true =>
      rw [Edit.expect, if_pos rfl, ← List.take_append_getElem hpos, List.append_assoc]
      exact hins
    | false =>
      rw [Edit.expect, if_neg Bool.false_ne_true, ← List.getElem_cons_drop hpos]
      exact hins
  | del pos =>
    have hpos : pos < l.length := hv
    have hr' := hr
    rw [eq_take_cons_drop hpos] at hr'
    have hdel := hr'.del
    rw [← eq_take_cons_drop hpos, ← List.eraseIdx_eq_take_drop_succ] at hdel
    rw [Edit.run, hr.node_at, List.getElem?_eq_getElem hpos]
    exact hdel
  | rotate =>
    induction l using List.reverseRecOn with
    | nil => exact ⟨h, list, if_pos (Nat.le_succ_of_le (Nat.le_of_eq hr.len)), hr, rfl, fun _ _ _ => rfl⟩
    | append_singleton l e _ =>
      rw [Edit.expect, List.getLast?_concat, List.dropLast_concat]
      exact hr.rotate
  | loop start direction drops =>
    rw [Edit.run, hr.node_at, Option.bind_eq_bind, Option.bind_some]
    cases direction with
    | startHead =>
      have hfirst : (l[start]?).map Prod.fst = firstOf (l.drop start) none := by rw [firstOf_eq_head?, List.head?_drop]
      have hr' : Rep h list (l.take start ++ l.drop start) := by rwa [List.take_append_drop]
      have hloop := hr'.deleteLoop_head drops
      rw [List.take_append_drop, ← hfirst] at hloop
      exact hloop
    | startTail =>
      by_cases hstart : start < l.length
      · have hlast : (l[start]?).map Prod.fst = lastOf none (l.take (start + 1)) := by
          rw [lastOf_eq_getLast?, ← List.take_append_getElem hstart, List.getLast?_concat, List.getElem?_eq_getElem hstart]
        have hr' : Rep h list ((l.take (start + 1)).reverse.reverse ++ l.drop (start + 1)) := by
          rwa [List.reverse_reverse, List.take_append_drop]
        have hloop := hr'.deleteLoop_tail drops
        rw [List.reverse_reverse, List.take_append_drop, ← hlast] at hloop
        rw [Edit.expect, if_pos hstart]
        exact hloop
      · -- the loop starts at NULL
        rw [Edit.expect, if_neg hstart, List.getElem?_eq_none (Nat.le_of_not_lt hstart)]
        refine ⟨h, list, ?_, hr, rfl, fun _ _ _ => rfl⟩
        cases drops <;> rfl

/-- An edit takes its new node from free memory. -/
theorem Edit.mem_expect {e : Edit A V} (hv : e.Valid h l) : ∀ x ∈ e.expect l, x ∈ l ∨ h x.1 = none := by
  intro x hx
  cases e with
  | addHead a v =>
    rcases List.mem_cons.mp hx with rfl | hx
    · exact .inr (Option.isNone_iff_eq_none.mp hv)
    · exact .inl hx
  | addTail a v =>
    rcases List.mem_append.mp hx with hx | hx
    · exact .inl hx
    · rw [List.mem_singleton.mp hx]
      exact .inr (Option.isNone_iff_eq_none.mp hv)
  | insert pos a v after =>
    rcases List.mem_append.mp hx with hx | hx
    · exact .inl (List.mem_of_mem_take hx)
    · rcases List.mem_cons.mp hx with rfl | hx
      · exact .inr (Option.isNone_iff_eq_none.mp hv.2)
      · exact .inl (List.mem_of_mem_drop hx)
  | del pos => exact .inl (List.mem_of_mem_eraseIdx hx)
  | rotate =>
    rcases List.mem_append.mp hx with hx | hx
    · exact .inl (List.mem_of_getLast? (Option.mem_toList.mp hx))
    · exact .inl ((List.dropLast_sublist l).subset hx)
  | loop start direction drops =>
    refine .inl ?_
    cases direction with
    | startHead =>
      rcases List.mem_append.mp hx with hx | hx
      · exact List.mem_of_mem_take hx
      · exact List.mem_of_mem_drop (keep_subset _ _ hx)
    | startTail =>
      rw [Edit.expect] at hx
      by_cases hstart : start < l.length
      · rw [if_pos hstart] at hx
        rcases List.mem_append.mp hx with hx | hx
        · have hvisited := keep_subset _ _ (List.mem_reverse.mp hx)
          exact List.mem_of_mem_take (List.mem_reverse.mp hvisited)
        · exact List.mem_of_mem_drop hx
      · rwa [if_neg hstart] at hx

end

/-! ## All lists -/

/-- The lists of a program, in one heap. -/
structure Lists (A V : Type) where
  cells : Cells A V
  lists : List (AdList A V)

/-- What a list stands for: its nodes, and how values are copied. -/
structure Sequence (A V : Type) where
  nodes : List (A × V)
  dup : Option (V → Option V)

/-- An operation on the lists. -/
inductive ListOp (A V : Type) where
  | create (dup : Option (V → Option V))
  | edit (k : Nat) (e : Edit A V)
  | copy (k : Nat) (nodes : List A)

/-- The call. A copy that is not NULL is a new list. -/
def Lists.exec [DecidableEq A] (s : Lists A V) : ListOp A V → Option (Lists A V)
  | .create dup => some ⟨s.cells, s.lists ++ [listCreate dup]⟩
  | .edit k e => do
    let (h, list) ← e.run s.cells (← s.lists[k]?)
    some ⟨h, s.lists.set k list⟩
  | .copy k nodes => do
    let (h, copy) ← listDup s.cells (← s.lists[k]?) nodes
    some ⟨h, s.lists ++ copy.toList⟩

/-- The copy of a sequence, unless a value cannot be copied. Without `dup` the values are the same. -/
def Sequence.copy (q : Sequence A V) (nodes : List A) : Option (Sequence A V) :=
  (q.nodes.mapM fun e => q.dup.getD some e.2).map fun values => { q with nodes := nodes.zip values }

/-- The sequences that are expected. -/
def ListOp.expect (m : List (Sequence A V)) : ListOp A V → List (Sequence A V)
  | .create dup => m ++ [⟨[], dup⟩]
  | .edit k e => m.modify k fun q => { q with nodes := e.expect q.nodes }
  | .copy k nodes => m ++ (m[k]?.bind (Sequence.copy · nodes)).toList

/-- The call is made with a list, and with memory that is free. -/
def ListOp.Valid (h : Cells A V) (m : List (Sequence A V)) : ListOp A V → Prop
  | .create _ => True
  | .edit k e => ∃ q ∈ m[k]?, e.Valid h q.nodes
  | .copy k nodes => ∃ q ∈ m[k]?, q.nodes.length ≤ nodes.length ∧ nodes.Nodup ∧ ∀ a ∈ nodes, (h a).isNone = true

instance [DecidableEq A] (h : Cells A V) (m : List (Sequence A V)) : (op : ListOp A V) → Decidable (op.Valid h m)
  | .create _ => instDecidableTrue
  | .edit k e => inferInstanceAs (Decidable (∃ q ∈ m[k]?, e.Valid h q.nodes))
  | .copy k nodes =>
    inferInstanceAs (Decidable (∃ q ∈ m[k]?, q.nodes.length ≤ nodes.length ∧ nodes.Nodup ∧ ∀ a ∈ nodes, (h a).isNone = true))

/-- **The invariant.** -/
structure Lists.Holds (s : Lists A V) (m : List (Sequence A V)) : Prop where
  length : s.lists.length = m.length
  rep : ∀ {k : Nat} {list : AdList A V} {q : Sequence A V}, s.lists[k]? = some list → m[k]? = some q →
    Rep s.cells list q.nodes ∧ list.dup = q.dup
  disjoint : ∀ {j k : Nat} {p q : Sequence A V}, m[j]? = some p → m[k]? = some q → j ≠ k →
    ∀ b ∈ addrs p.nodes, b ∉ addrs q.nodes

section

variable {s : Lists A V} {m : List (Sequence A V)} {h' : Cells A V} {list : AdList A V} {q : Sequence A V} {k : Nat}

theorem Lists.Holds.list_of (hs : s.Holds m) (hq : m[k]? = some q) : ∃ list, s.lists[k]? = some list := by
  obtain ⟨hk, -⟩ := List.getElem?_eq_some_iff.mp hq
  rw [← hs.length] at hk
  exact ⟨s.lists[k], List.getElem?_eq_getElem hk⟩

theorem Lists.Holds.not_free (hs : s.Holds m) (hq : m[k]? = some q) {b : A} (hb : s.cells b = none) : b ∉ addrs q.nodes := by
  obtain ⟨list, hlist⟩ := hs.list_of hq
  exact (hs.rep hlist hq).1.chain.not_mem hb

/-- One list changes; its new nodes were free. -/
theorem Lists.Holds.set (hs : s.Holds m) (hq : m[k]? = some q) {l' : List (A × V)} (hr : Rep h' list l')
    (hdup : list.dup = q.dup) (hsame : ∀ b ∉ addrs q.nodes, b ∉ addrs l' → h' b = s.cells b)
    (hnew : ∀ b ∈ addrs l', b ∈ addrs q.nodes ∨ s.cells b = none) :
    Lists.Holds ⟨h', s.lists.set k list⟩ (m.set k { q with nodes := l' }) := by
  obtain ⟨hk, -⟩ := List.getElem?_eq_some_iff.mp hq
  have hother : ∀ {j : Nat} {p : Sequence A V}, m[j]? = some p → j ≠ k →
      ∀ b ∈ addrs p.nodes, b ∉ addrs q.nodes ∧ b ∉ addrs l' := by
    intro j p hp hj b hb
    have hbq := hs.disjoint hp hq hj b hb
    refine ⟨hbq, fun hmem => ?_⟩
    rcases hnew b hmem with hbq' | hfree
    · exact hbq hbq'
    · exact hs.not_free hp hfree hb
  refine ⟨?_, ?_, ?_⟩
  · rw [List.length_set, List.length_set, hs.length]
  · intro j list' p hlist hp
    by_cases hj : k = j
    · subst hj
      rw [List.getElem?_set_self (hs.length ▸ hk)] at hlist
      rw [List.getElem?_set_self hk] at hp
      cases hlist
      cases hp
      exact ⟨hr, hdup⟩
    · rw [List.getElem?_set_ne hj] at hlist hp
      obtain ⟨hrep, hd⟩ := hs.rep hlist hp
      refine ⟨hrep.congr fun b hb => ?_, hd⟩
      obtain ⟨h₁, h₂⟩ := hother hp (Ne.symm hj) b hb
      exact hsame b h₁ h₂
  · intro i j p p' hp hp' hij b hb
    by_cases hi : k = i
    · subst hi
      rw [List.getElem?_set_self hk] at hp
      rw [List.getElem?_set_ne hij] at hp'
      cases hp
      exact fun hmem => (hother hp' (Ne.symm hij) b hmem).2 hb
    · rw [List.getElem?_set_ne hi] at hp
      by_cases hj : k = j
      · subst hj
        rw [List.getElem?_set_self hk] at hp'
        cases hp'
        exact (hother hp (Ne.symm hi) b hb).2
      · rw [List.getElem?_set_ne hj] at hp'
        exact hs.disjoint hp hp' hij b hb

/-- A new list. -/
theorem Lists.Holds.push (hs : s.Holds m) (hr : Rep h' list q.nodes) (hdup : list.dup = q.dup)
    (hsame : ∀ b ∉ addrs q.nodes, h' b = s.cells b) (hnew : ∀ b ∈ addrs q.nodes, s.cells b = none) :
    Lists.Holds ⟨h', s.lists ++ [list]⟩ (m ++ [q]) := by
  have hother : ∀ {j : Nat} {p : Sequence A V}, m[j]? = some p → ∀ b ∈ addrs p.nodes, b ∉ addrs q.nodes := fun hp b hb hmem =>
    hs.not_free hp (hnew b hmem) hb
  have hindex : ∀ {j : Nat} {p : Sequence A V}, (m ++ [q])[j]? = some p → m[j]? = some p ∨ (j = m.length ∧ p = q) := by
    intro j p hp
    rcases Nat.lt_trichotomy j m.length with hlt | rfl | hgt
    · exact .inl (by rwa [List.getElem?_append_left hlt] at hp)
    · rw [List.getElem?_concat_length] at hp
      exact .inr ⟨rfl, (Option.some.inj hp).symm⟩
    · rw [List.getElem?_eq_none (by rw [List.length_append]; exact hgt)] at hp
      cases hp
  refine ⟨?_, ?_, ?_⟩
  · rw [List.length_append, List.length_append, hs.length]
    rfl
  · intro j list' p hlist hp
    rcases hindex hp with hp | ⟨rfl, rfl⟩
    · obtain ⟨hj, -⟩ := List.getElem?_eq_some_iff.mp hp
      rw [List.getElem?_append_left (hs.length ▸ hj)] at hlist
      obtain ⟨hrep, hd⟩ := hs.rep hlist hp
      exact ⟨hrep.congr fun b hb => hsame b (hother hp b hb), hd⟩
    · rw [← hs.length, List.getElem?_concat_length] at hlist
      cases hlist
      exact ⟨hr, hdup⟩
  · intro i j p p' hp hp' hij b hb
    rcases hindex hp with hold | ⟨rfl, rfl⟩
    · rcases hindex hp' with hold' | ⟨-, rfl⟩
      · exact hs.disjoint hold hold' hij b hb
      · exact hother hold b hb
    · rcases hindex hp' with hold' | ⟨rfl, -⟩
      · exact fun hmem => hother hold' b hmem hb
      · exact (hij rfl).elim

end

/-! ## What a reader sees -/

/-- The list shows this sequence of nodes, in both directions and at every position. -/
structure Shows (h : Cells A V) (list : AdList A V) (l : List (A × V)) : Prop where
  forwards : Path h Cell.next list.head l
  backwards : Path h Cell.prev list.tail l.reverse
  len : list.len = l.length
  head : list.head = none ↔ l = []
  tail : list.tail = none ↔ l = []
  index : ∀ i : Int, 0 ≤ i → i < 2 ^ 63 → listIndexNode h list i = some ((l[i.toNat]?).map Prod.fst)
  indexBack : ∀ i : Int, -(2 ^ 63) < i → i < 0 → listIndexNode h list i = some ((l.reverse[(-i - 1).toNat]?).map Prod.fst)

theorem Rep.shows {h : Cells A V} {list : AdList A V} {l : List (A × V)} (hr : Rep h list l) : Shows h list l where
  forwards := hr.head ▸ hr.chain.path_next
  backwards := hr.tail ▸ hr.chain.path_prev
  len := hr.len
  head := by rw [hr.head, firstOf_eq_none]
  tail := by rw [hr.tail, lastOf_eq_none]
  index := by
    intro i hi _
    rw [hr.index (by omega), if_pos hi]
  indexBack := by
    intro i hmin hi
    rw [hr.index hmin, if_neg (by omega)]

/-! ## Runs -/

section

variable [DecidableEq A] {s : Lists A V} {m : List (Sequence A V)}

/-- **A call with free memory succeeds, and the lists stand for the expected sequences.** -/
theorem Lists.Holds.exec (hs : s.Holds m) {op : ListOp A V} (hv : op.Valid s.cells m) :
    ∃ s', s.exec op = some s' ∧ s'.Holds (op.expect m) := by
  cases op with
  | create dup =>
    refine ⟨_, rfl, hs.push (listCreate_rep s.cells dup) rfl (fun _ _ => rfl) fun _ hb => ?_⟩
    cases hb
  | edit k e =>
    obtain ⟨q, hq, hv⟩ := hv
    have hq : m[k]? = some q := hq
    obtain ⟨list, hlist⟩ := hs.list_of hq
    obtain ⟨hrep, hdup⟩ := hs.rep hlist hq
    obtain ⟨h', list', hrun, hrep', hdup', hsame⟩ := Edit.run_leaves hrep hv
    refine ⟨⟨h', s.lists.set k list'⟩, ?_, ?_⟩
    · rw [Lists.exec, hlist]
      dsimp only [Option.bind_eq_bind, Option.bind_some]
      rw [hrun]
      rfl
    · rw [ListOp.expect, List.modify_eq_set_getElem?, hq]
      refine hs.set hq hrep' (hdup'.trans hdup) hsame fun b hb => ?_
      obtain ⟨x, hx, rfl⟩ := List.mem_map.mp hb
      rcases Edit.mem_expect hv x hx with hold | hfree
      · exact .inl (List.mem_map_of_mem hold)
      · exact .inr hfree
  | copy k nodes =>
    obtain ⟨q, hq, hlen, hnodes, hfree⟩ := hv
    have hq : m[k]? = some q := hq
    have hfree : ∀ a ∈ nodes, s.cells a = none := fun a ha => Option.isNone_iff_eq_none.mp (hfree a ha)
    obtain ⟨list, hlist⟩ := hs.list_of hq
    obtain ⟨hrep, hdup⟩ := hs.rep hlist hq
    have hcopy := hrep.dup hnodes hfree hlen
    have hvalue : list.dupValue = q.dup.getD some := by
      funext v
      rw [AdList.dupValue, hdup]
      cases q.dup <;> rfl
    rw [Lists.exec, ListOp.expect, hlist, hq, Option.bind_some, Sequence.copy, ← hvalue]
    dsimp only [Option.bind_eq_bind, Option.bind_some]
    cases hmap : q.nodes.mapM fun e => list.dupValue e.2 with
    | none =>
      rw [hmap] at hcopy
      have hcopy : listDup s.cells list nodes = some (s.cells, none) := hcopy
      refine ⟨s, ?_, ?_⟩
      · rw [hcopy, Option.bind_some, Option.toList_none, List.append_nil]
      · rw [Option.map_none, Option.toList_none, List.append_nil]
        exact hs
    | some values =>
      rw [hmap] at hcopy
      obtain ⟨h', copy, hdup', hrep', hcdup, hsame⟩ := hcopy
      rw [hdup']
      refine ⟨_, rfl, hs.push hrep' (hcdup.trans hdup) hsame fun b hb => ?_⟩
      obtain ⟨x, hx, rfl⟩ := List.mem_map.mp hb
      exact hfree x.1 (List.of_mem_zip hx).1

/-- The lists and what they stand for, side by side. -/
def Lists.step (s : Lists A V × List (Sequence A V)) (op : ListOp A V) : Option (Lists A V × List (Sequence A V)) :=
  (s.1.exec op).map (·, op.expect s.2)

/-- No list, and no node. -/
def Lists.init : Lists A V × List (Sequence A V) := (⟨fun _ => none, []⟩, [])

/-- **The linked list represents a sequence.** In every run of calls with free memory and with nodes of the lists, no call
    follows a bad pointer, and every list shows the sequence that is expected of it. -/
theorem list_sequence {s : Lists A V} {m : List (Sequence A V)}
    (hrun : RunBy Lists.step (fun s op => op.Valid s.1.cells s.2) Lists.init (s, m)) :
    (∀ op : ListOp A V, op.Valid s.cells m → (s.exec op).isSome = true) ∧ s.lists.length = m.length ∧
      ∀ (k : Nat) (list : AdList A V) (q : Sequence A V), s.lists[k]? = some list → m[k]? = some q →
        Shows s.cells list q.nodes := by
  have hs : s.Holds m := by
    refine hrun.invariant (P := fun s => s.1.Holds s.2) (fun s op s' hv hstep hs => ?_) ⟨rfl, ?_, ?_⟩
    · obtain ⟨s₁, hexec, hholds⟩ := hs.exec hv
      rw [Lists.step, hexec] at hstep
      cases hstep
      exact hholds
    · intro k list q hlist
      cases hlist
    · intro j k p q hp
      cases hp
  refine ⟨fun op hv => ?_, hs.length, fun k list q hlist hq => (hs.rep hlist hq).1.shows⟩
  obtain ⟨s', hexec, -⟩ := hs.exec hv
  rw [hexec]
  rfl

end

/-- Three nodes, the last one rotated to the front, a copy of all, and a loop that deletes the second node of the copy. -/
theorem list_sequence_copy :
    ∃ (s : Lists Nat Nat) (m : List (Sequence Nat Nat)) (list copy : AdList Nat Nat),
      RunBy Lists.step (fun s op => op.Valid s.1.cells s.2) Lists.init (s, m) ∧
      s.lists[0]? = some list ∧ Path s.cells Cell.prev list.tail [(3, 30), (2, 20), (1, 10)] ∧
      s.lists[1]? = some copy ∧ Path s.cells Cell.next copy.head [(4, 10), (6, 30)] := by
  obtain ⟨⟨s, m⟩, hrun, hm⟩ := run_of_exec Lists.step (fun s op => op.Valid s.1.cells s.2) Lists.init
    [.create none, .edit 0 (.addTail 1 10), .edit 0 (.addHead 3 30), .edit 0 (.insert 0 2 20 false), .edit 0 .rotate,
      .copy 0 [4, 5, 6], .edit 1 (.loop 1 .startHead [true])]
    (fun s => (s.1.lists.length, s.2.map Sequence.nodes)) (2, [[(1, 10), (2, 20), (3, 30)], [(4, 10), (6, 30)]])
    (by decide +kernel)
  obtain ⟨-, -, hshows⟩ := list_sequence hrun
  dsimp only at hm
  obtain ⟨hlen, hnodes⟩ := Prod.mk.inj hm
  obtain ⟨list, copy, hlists⟩ := List.length_eq_two.mp hlen
  obtain ⟨p, m', hm', hp, hrest⟩ := List.map_eq_cons_iff.mp hnodes
  obtain ⟨q, _, rfl, hq, -⟩ := List.map_eq_cons_iff.mp hrest
  have hlist : s.lists[0]? = some list := by rw [hlists]; rfl
  have hcopy : s.lists[1]? = some copy := by rw [hlists]; rfl
  have hback := (hshows 0 list p hlist (by rw [hm']; rfl)).backwards
  have hforth := (hshows 1 copy q hcopy (by rw [hm']; rfl)).forwards
  rw [hp] at hback
  rw [hq] at hforth
  exact ⟨s, m, list, copy, hrun, hlist, hback, hcopy, hforth⟩

end Prez
