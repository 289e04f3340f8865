import Prez.Adlist.Nodes

/-!
# `Prez.Adlist.Rep` — what each list function does

`Rep h list l` says that the list is the chain of the nodes `l`. Each function has one lemma that says which chain it leaves
(`Leaves`): the nodes behind the call are a sequence computed from the nodes before it, and no other cell is changed. The
pointer work is done in `Lib.Chain`; here the cases of the source are matched with the two ends of a gap.
-/

namespace Prez

open Lib

variable {A V : Type}

/-- The list is the chain of these nodes. -/
structure Rep (h : Cells A V) (list : AdList A V) (l : List (A × V)) : Prop where
  chain : Chain h none l none
  nodup : (addrs l).Nodup
  head : list.head = firstOf l none
  tail : list.tail = lastOf none l
  len : list.len = l.length

/-- The result of a function: it is the chain of `l'`, and only cells of the two chains are changed. -/
def Leaves (h : Cells A V) (list : AdList A V) (l : List (A × V)) (r : Option (Cells A V × AdList A V))
    (l' : List (A × V)) : Prop :=
  ∃ h' list', r = some (h', list') ∧ Rep h' list' l' ∧ list'.dup = list.dup ∧
    ∀ b ∉ addrs l, b ∉ addrs l' → h' b = h b

section

variable {h : Cells A V} {list : AdList A V} {l : List (A × V)}

theorem Rep.congr {h' : Cells A V} (hr : Rep h list l) (hsame : ∀ b ∈ addrs l, h' b = h b) : Rep h' list l :=
  ⟨hr.chain.congr hsame, hr.nodup, hr.head, hr.tail, hr.len⟩

theorem listCreate_rep (h : Cells A V) (dup : Option (V → Option V)) : Rep h (listCreate dup) [] :=
  ⟨trivial, .nil, rfl, rfl, rfl⟩

theorem Rep.len_ne (hr : Rep h list l) (hl : l ≠ []) : ¬ list.len = 0 := by
  rw [hr.len]
  exact fun h0 => hl (List.length_eq_zero_iff.mp h0)

/-- The node in the middle of a chain. -/
theorem Rep.cell {l₁ l₂ : List (A × V)} {e : A × V} (hr : Rep h list (l₁ ++ e :: l₂)) :
    h e.1 = some ⟨lastOf none l₁, firstOf l₂ none, e.2⟩ :=
  (chain_append.mp hr.chain).2.1

/-- **Positions.** -/
theorem Rep.index (hr : Rep h list l) {i : Int} (hi : -(2 ^ 63) < i) :
    listIndexNode h list i = some ((if 0 ≤ i then l[i.toNat]? else l.reverse[(-i - 1).toNat]?).map Prod.fst) := by
  rw [listIndexNode]
  by_cases hneg : i < 0
  · rw [if_pos hneg, if_neg (by omega), if_neg (by omega), hr.tail]
    exact hr.chain.path_prev.walk _
  · rw [if_neg hneg, if_pos (by omega), hr.head]
    exact hr.chain.path_next.walk _

theorem Rep.node_at (hr : Rep h list l) (pos : Nat) : listIndexNode h list pos = some ((l[pos]?).map Prod.fst) := by
  rw [hr.index (by omega), if_pos (by omega), Int.toNat_natCast]

theorem eq_take_cons_drop {pos : Nat} (hpos : pos < l.length) : l = l.take pos ++ l[pos] :: l.drop (pos + 1) := by
  rw [List.getElem_cons_drop, List.take_append_drop]

/-- The position that `Prez.listIndex` computes is the one that the pointers lead to. -/
theorem Rep.index_eq (hr : Rep h list l) (i : Int) (hi : -(2 ^ 63) ≤ i) :
    listIndexNode h list i = (listIndexLong l.length i).map fun pos => pos.bind fun k => (addrs l)[k]? := by
  by_cases hmin : i = -(2 ^ 63)
  · rw [hmin]
    rfl
  rw [hr.index (by omega), listIndexLong, if_neg hmin, Option.map_some, listIndex]
  refine congrArg some ?_
  by_cases hneg : i < 0
  · rw [if_neg (by omega), if_pos hneg]
    dsimp only
    by_cases hin : (-i - 1).toNat < l.length
    · rw [if_pos hin, List.getElem?_reverse hin, Option.bind_some, addrs, List.getElem?_map]
    · rw [if_neg hin, List.getElem?_eq_none (by rw [List.length_reverse]; omega)]
      rfl
  · rw [if_pos (by omega), if_neg hneg]
    by_cases hin : i.toNat < l.length
    · rw [if_pos hin, Option.bind_some, addrs, List.getElem?_map]
    · rw [if_neg hin, List.getElem?_eq_none (by omega)]
      rfl

/-- One call after another; the first one adds no nodes. -/
theorem Leaves.bind {l' l'' : List (A × V)} {r : Option (Cells A V × AdList A V)}
    {f : Cells A V × AdList A V → Option (Cells A V × AdList A V)} (hfirst : Leaves h list l r l')
    (hsub : addrs l' ⊆ addrs l) (hthen : ∀ h' list', Rep h' list' l' → Leaves h' list' l' (f (h', list')) l'') :
    Leaves h list l (r.bind f) l'' := by
  obtain ⟨h₁, list₁, rfl, hr₁, hdup₁, hsame₁⟩ := hfirst
  obtain ⟨h₂, list₂, hf, hr₂, hdup₂, hsame₂⟩ := hthen h₁ list₁ hr₁
  refine ⟨h₂, list₂, hf, hr₂, hdup₂.trans hdup₁, fun b hb hb'' => ?_⟩
  have hb' : b ∉ addrs l' := fun hmem => hb (hsub hmem)
  exact (hsame₂ b hb' hb'').trans (hsame₁ b hb hb')

/-- What a loop leaves of the nodes that it visits. -/
def keep {α : Type} : List Bool → List α → List α
  | [], l => l
  | _ :: _, [] => []
  | drop :: drops, x :: l => if drop then keep drops l else x :: keep drops l

theorem keep_subset {α : Type} (drops : List Bool) (l : List α) : keep drops l ⊆ l := by
  fun_induction keep with
  | case1 => exact List.Subset.refl _
  | case2 => exact List.Subset.refl _
  | case3 drops x l ih => exact List.subset_cons_of_subset x ih
  | case4 drop drops x l _ ih => exact List.cons_subset_cons x ih

theorem listNext_some {direction : Direction} {a : A} {c : Cell A V} (hcell : h a = some c) :
    listNext h ⟨some a, direction⟩ = some (some a, ⟨direction.field c, direction⟩) := by
  rw [listNext]
  dsimp only
  rw [hcell]
  rfl

end

section

variable [DecidableEq A] {h : Cells A V} {list : AdList A V} {l l₁ l₂ : List (A × V)} {a : A} {v : V}

/-! ## Adding nodes -/

theorem Rep.addHead (hr : Rep h list l) (ha : h a = none) (v : V) :
    Leaves h list l (listAddNodeHead h list a v) ((a, v) :: l) := by
  obtain ⟨h₁, h₂, hlink₁, -, hlink₂, hc, hnd, hsame⟩ := Chain.insert (l := []) (r := l) hr.chain hr.nodup ha v
  cases hlink₁
  cases l with
  | nil =>
    cases hlink₂
    have h0 : list.len = 0 := hr.len
    refine ⟨_, { list with head := some a, tail := some a, len := list.len + 1 }, by rw [listAddNodeHead, if_pos h0]; rfl,
      ⟨hc, hnd, rfl, rfl, congrArg (· + 1) hr.len⟩, rfl, fun b _ hb => hsame b hb⟩
  | cons e l =>
    have hhead : list.head = some e.1 := hr.head
    refine ⟨h₂, { list with head := some a, len := list.len + 1 }, ?_, ⟨hc, hnd, rfl, hr.tail, congrArg (· + 1) hr.len⟩, rfl,
      fun b _ hb => hsame b hb⟩
    have hset : setPrev (Function.update h a (some ⟨none, some e.1, v⟩)) e.1 (some a) = some h₂ := hlink₂
    rw [listAddNodeHead, if_neg (hr.len_ne (List.cons_ne_nil _ _)), hhead, Option.bind_eq_bind, Option.bind_some,
      Option.bind_eq_bind, hset]
    rfl

theorem Rep.addTail (hr : Rep h list l) (ha : h a = none) (v : V) :
    Leaves h list l (listAddNodeTail h list a v) (l ++ [(a, v)]) := by
  have hc' : Chain h none (l ++ []) none := by
    rw [List.append_nil]
    exact hr.chain
  have hnd' : (addrs (l ++ [])).Nodup := by
    rw [List.append_nil]
    exact hr.nodup
  obtain ⟨h₁, h₂, hlink₁, -, hlink₂, hc, hnd, hsame⟩ := Chain.insert hc' hnd' ha v
  cases hlink₂
  have hlen : list.len + 1 = (l ++ [(a, v)]).length := by rw [List.length_append, hr.len]; rfl
  have htail : some a = lastOf none (l ++ [(a, v)]) := (lastOf_concat none l (a, v)).symm
  induction l using List.reverseRecOn with
  | nil =>
    cases hlink₁
    have h0 : list.len = 0 := hr.len
    exact ⟨_, { list with head := some a, tail := some a, len := list.len + 1 }, by rw [listAddNodeTail, if_pos h0]; rfl,
      ⟨hc, hnd, rfl, htail, hlen⟩, rfl, fun b _ hb => hsame b hb⟩
  | append_singleton l e _ =>
    have hlast : list.tail = some e.1 := hr.tail.trans (lastOf_concat ..)
    have hne : l ++ [e] ≠ [] := List.append_ne_nil_of_right_ne_nil _ (List.cons_ne_nil _ _)
    rw [lastOf_concat] at hlink₁
    have hset : setNext (Function.update h a (some ⟨some e.1, none, v⟩)) e.1 (some a) = some h₁ := hlink₁
    refine ⟨h₁, { list with tail := some a, len := list.len + 1 }, ?_, ⟨hc, hnd, ?_, htail, hlen⟩, rfl,
      fun b _ hb => hsame b hb⟩
    · rw [listAddNodeTail, if_neg (hr.len_ne hne), hlast, Option.bind_eq_bind, Option.bind_some, Option.bind_eq_bind, hset]
      rfl
    · rw [firstOf_append]
      exact hr.head.trans (by rw [firstOf_append]; cases l <;> rfl)

/-- A new node between two parts of the chain, in a list whose ends are set for it. -/
theorem Rep.link (hr : Rep h list (l₁ ++ l₂)) (ha : h a = none) (v : V) (list' : AdList A V)
    (hhead : list'.head = firstOf (l₁ ++ (a, v) :: l₂) none) (htail : list'.tail = lastOf none (l₁ ++ (a, v) :: l₂))
    (hlen : list'.len = list.len) (hdup : list'.dup = list.dup) :
    Leaves h list (l₁ ++ l₂) (listLinkNode h list' a ⟨lastOf none l₁, firstOf l₂ none, v⟩) (l₁ ++ (a, v) :: l₂) := by
  obtain ⟨h₁, h₂, hlink₁, hcell, hlink₂, hc, hnd, hsame⟩ := hr.chain.insert hr.nodup ha v
  refine ⟨h₂, { list' with len := list'.len + 1 }, ?_, ⟨hc, hnd, hhead, htail, ?_⟩, hdup, fun b _ hb => hsame b hb⟩
  · rw [listLinkNode, hlink₁]
    dsimp only [Option.bind_eq_bind, Option.bind_some]
    rw [hcell, Option.bind_some, hlink₂]
    rfl
  · have hlength := hr.len
    rw [List.length_append] at hlength
    rw [hlen, hlength, List.length_append, List.length_cons]
    rfl

/-- **Insertion.** Behind a node or in front of it. -/
theorem Rep.insert {e : A × V} (hr : Rep h list (l₁ ++ e :: l₂)) (ha : h a = none) (v : V) (after : Bool) :
    Leaves h list (l₁ ++ e :: l₂) (listInsertNode h list e.1 a v after)
      (if after then l₁ ++ e :: (a, v) :: l₂ else l₁ ++ (a, v) :: e :: l₂) := by
  obtain ⟨-, hnd₂, hdisj⟩ := nodup_addrs_append hr.nodup
  rw [listInsertNode, hr.cell, Option.bind_eq_bind, Option.bind_some]
  cases after with
  | true =>
    have hset : (if list.tail = some e.1 then { list with tail := some a } else list) =
        { list with tail := lastOf none (l₁ ++ e :: (a, v) :: l₂) } := by
      have hlast : list.tail = some e.1 ↔ l₂ = [] := by
        rw [hr.tail, lastOf_append]
        exact lastOf_eq_self (List.nodup_cons.mp hnd₂).1
      rw [lastOf_append]
      by_cases hl : l₂ = []
      · rw [if_pos (hlast.mpr hl), hl]
        rfl
      · have hsame : list.tail = lastOf (some a) l₂ :=
          hr.tail.trans ((lastOf_append ..).trans (lastOf_of_ne_nil hl _ _))
        rw [if_neg fun h => hl (hlast.mp h)]
        exact congrArg (AdList.mk _ · _ _) hsame
    have hr' : Rep h list (l₁ ++ [e] ++ l₂) := by rwa [List.append_assoc]
    have hlink := hr'.link ha v { list with tail := lastOf none (l₁ ++ e :: (a, v) :: l₂) }
    rw [lastOf_concat, List.append_assoc, List.append_assoc] at hlink
    dsimp only
    rw [hset]
    refine hlink ?_ rfl rfl rfl
    rw [hr.head, firstOf_append, firstOf_append]
    rfl
  | false =>
    have hset : (if list.head = some e.1 then { list with head := some a } else list) =
        { list with head := firstOf (l₁ ++ (a, v) :: e :: l₂) none } := by
      have hfirst : list.head = some e.1 ↔ l₁ = [] := by
        rw [hr.head, firstOf_append]
        exact firstOf_eq_self fun hmem => hdisj e.1 hmem List.mem_cons_self
      rw [firstOf_append]
      by_cases hl : l₁ = []
      · rw [if_pos (hfirst.mpr hl), hl]
        rfl
      · have hsame : list.head = firstOf l₁ (some a) :=
          hr.head.trans ((firstOf_append ..).trans (firstOf_of_ne_nil hl _ _))
        rw [if_neg fun h => hl (hfirst.mp h)]
        exact congrArg (AdList.mk · _ _ _) hsame
    dsimp only
    rw [hset]
    refine hr.link ha v _ rfl ?_ rfl rfl
    rw [hr.tail, lastOf_append, lastOf_append]
    rfl

/-! ## Removing and moving nodes -/

/-- **Removal.** -/
theorem Rep.del {e : A × V} (hr : Rep h list (l₁ ++ e :: l₂)) :
    Leaves h list (l₁ ++ e :: l₂) (listDelNode h list e.1) (l₁ ++ l₂) := by
  obtain ⟨h₁, h₂, hlink₁, hcell, hlink₂, hc, hnd, hsame⟩ := hr.chain.remove hr.nodup
  have hlen : list.len - 1 = (l₁ ++ l₂).length := by
    rw [hr.len, List.length_append, List.length_append, List.length_cons]
    rfl
  -- the head moves if there is nothing in front of the node, the tail if there is nothing behind it
  have hhead : (if lastOf none l₁ = none then { list with head := firstOf l₂ none } else list) =
      { list with head := firstOf (l₁ ++ l₂) none } := by
    rw [firstOf_append]
    by_cases hl : l₁ = []
    · rw [if_pos (lastOf_eq_none.mpr hl), hl]
      rfl
    · rw [if_neg fun h => hl (lastOf_eq_none.mp h), ← firstOf_of_ne_nil hl (some e.1)]
      exact congrArg (AdList.mk · _ _ _) (hr.head.trans (firstOf_append ..))
  have htail : (if firstOf l₂ none = none then
        ({ list with head := firstOf (l₁ ++ l₂) none, tail := lastOf none l₁ } : AdList A V)
      else { list with head := firstOf (l₁ ++ l₂) none }) =
      { list with head := firstOf (l₁ ++ l₂) none, tail := lastOf none (l₁ ++ l₂) } := by
    rw [lastOf_append]
    by_cases hl : l₂ = []
    · rw [if_pos (firstOf_eq_none.mpr hl), hl]
      rfl
    · rw [if_neg fun h => hl (firstOf_eq_none.mp h), ← lastOf_of_ne_nil hl (some e.1)]
      exact congrArg (AdList.mk _ · _ _) (hr.tail.trans (lastOf_append ..))
  refine ⟨Function.update h₂ e.1 none, ⟨firstOf (l₁ ++ l₂) none, lastOf none (l₁ ++ l₂), list.len - 1, list.dup⟩, ?_,
    ⟨hc, hnd, rfl, rfl, hlen⟩, rfl, fun b hb _ => hsame b hb⟩
  rw [listDelNode, hr.cell]
  dsimp only [Option.bind_eq_bind, Option.bind_some]
  rw [hlink₁, Option.bind_some, hcell, hr.cell, Option.bind_some]
  dsimp only
  rw [hlink₂, Option.bind_some, hhead, htail]

/-- **Rotation.** The last node becomes the first one. -/
theorem Rep.rotate {e : A × V} (hr : Rep h list (l ++ [e])) :
    Leaves h list (l ++ [e]) (listRotate h list) (e :: l) := by
  by_cases hl : l = []
  · subst hl
    have hlen : list.len ≤ 1 := Nat.le_of_eq hr.len
    exact ⟨h, list, by rw [listRotate, if_pos hlen], hr, rfl, fun _ _ _ => rfl⟩
  obtain ⟨hcl, hcell, -⟩ := chain_append.mp hr.chain
  obtain ⟨hnd₁, -, hdisj⟩ := nodup_addrs_append hr.nodup
  have hnot : e.1 ∉ addrs l := fun hmem => hdisj e.1 hmem List.mem_cons_self
  obtain ⟨h₁, hlink₁, hc₁, hsame₁⟩ := hcl.relink_next hnd₁ none
  obtain ⟨h₂, hlink₂, hc₂, hsame₂⟩ := hc₁.relink_prev hnd₁ (some e.1)
  obtain ⟨newTail, hnewTail⟩ := Option.ne_none_iff_exists'.mp (mt lastOf_eq_none.mp hl)
  obtain ⟨head, hfirst⟩ := Option.ne_none_iff_exists'.mp (mt firstOf_eq_none.mp hl)
  rw [hnewTail] at hlink₁
  rw [hfirst] at hlink₂
  have hset₁ : setNext h newTail none = some h₁ := hlink₁
  have hset₂ : setPrev h₁ head (some e.1) = some h₂ := hlink₂
  have hcell₂ : h₂ e.1 = some ⟨some newTail, none, e.2⟩ := by
    rw [hsame₂ e.1 hnot, hsame₁ e.1 hnot, hcell, hnewTail]
    rfl
  have hlen : list.len = l.length + 1 := by rw [hr.len, List.length_append]; rfl
  have hmore : ¬ list.len ≤ 1 := by
    have hpos := List.length_pos_iff.mpr hl
    omega
  have hhead : list.head = some head := by
    rw [hr.head, firstOf_append, ← hfirst]
    exact firstOf_of_ne_nil hl _ _
  have htail : list.tail = some e.1 := hr.tail.trans (lastOf_concat ..)
  refine ⟨Function.update h₂ e.1 (some ⟨none, some head, e.2⟩), { list with tail := some newTail, head := some e.1 }, ?_,
    ⟨⟨?_, hc₂.congr fun b hb => ?_⟩, List.nodup_cons.mpr ⟨hnot, hnd₁⟩, rfl, ?_, hlen⟩, rfl, fun b _ hb => ?_⟩
  · rw [listRotate, if_neg hmore, htail]
    dsimp only [Option.bind_eq_bind, Option.bind_some]
    rw [hcell, Option.bind_some]
    dsimp only
    rw [hnewTail, Option.bind_some, hset₁, Option.bind_some, hhead, Option.bind_some, hset₂, Option.bind_some, setPrev, hcell₂,
      Option.map_some, Option.bind_some, setNext, Function.update_self, Option.map_some, Option.bind_some,
      Function.update_idem]
  · rw [Function.update_self, hfirst]
  · have hne : b ≠ e.1 := fun heq => hnot (heq ▸ hb)
    exact Function.update_of_ne hne _ _
  · exact (hnewTail.symm.trans (lastOf_of_ne_nil hl _ _))
  · obtain ⟨hne, hb⟩ := not_or.mp (mt List.mem_cons.mpr hb)
    rw [Function.update_of_ne hne, hsame₂ b hb, hsame₁ b hb]

/-- The nodes are freed from the first one on. -/
theorem listReleaseLoop_spec {p : Option A} (hc : Chain h p l none) (hnd : (addrs l).Nodup) :
    ∃ h', listReleaseLoop l.length h (firstOf l none) = some h' ∧ (∀ b ∈ addrs l, h' b = none) ∧
      ∀ b ∉ addrs l, h' b = h b := by
  induction l generalizing h p with
  | nil => exact ⟨h, rfl, fun _ hb => (List.not_mem_nil hb).elim, fun _ _ => rfl⟩
  | cons e l ih =>
    obtain ⟨hcell, hc⟩ := hc
    obtain ⟨hnot, hnd⟩ := List.nodup_cons.mp hnd
    have hne : ∀ b ∈ addrs l, b ≠ e.1 := fun b hb heq => hnot (heq ▸ hb)
    have hrest : Chain (Function.update h e.1 none) (some e.1) l none :=
      hc.congr fun b hb => Function.update_of_ne (hne b hb) _ _
    obtain ⟨h', hloop, hfreed, hsame⟩ := ih hrest hnd
    refine ⟨h', ?_, fun b hb => ?_, fun b hb => ?_⟩
    · rw [List.length_cons, listReleaseLoop, firstOf]
      dsimp only [Option.bind_eq_bind, Option.bind_some]
      rw [hcell, Option.bind_some]
      exact hloop
    · rcases List.mem_cons.mp hb with rfl | hb
      · rw [hsame e.1 hnot, Function.update_self]
      · exact hfreed b hb
    · obtain ⟨hbe, hbl⟩ := not_or.mp (mt List.mem_cons.mpr hb)
      rw [hsame b hbl, Function.update_of_ne hbe]

/-- **Release.** Every node is freed, and nothing else is changed. -/
theorem Rep.release (hr : Rep h list l) :
    ∃ h', listRelease h list = some h' ∧ (∀ b ∈ addrs l, h' b = none) ∧ ∀ b ∉ addrs l, h' b = h b := by
  rw [listRelease, hr.head, hr.len]
  exact listReleaseLoop_spec hr.chain hr.nodup

/-! ## Loops -/

/-- A loop towards the tail, from any node on. -/
theorem Rep.deleteLoop_head (drops : List Bool) (hr : Rep h list (l₁ ++ l₂)) :
    Leaves h list (l₁ ++ l₂) (listDeleteLoop drops h list ⟨firstOf l₂ none, .startHead⟩) (l₁ ++ keep drops l₂) := by
  induction drops generalizing h list l₁ l₂ with
  | nil => exact ⟨h, list, rfl, hr, rfl, fun _ _ _ => rfl⟩
  | cons drop drops ih =>
    cases l₂ with
    | nil => exact ⟨h, list, rfl, hr, rfl, fun _ _ _ => rfl⟩
    | cons e l₂ =>
      rw [listDeleteLoop, firstOf, listNext_some hr.cell]
      dsimp only [Option.bind_eq_bind, Option.bind_some]
      cases drop with
      | true => exact hr.del.bind (addrs_subset_of_middle l₁ e l₂) fun h' list' hr' => ih hr'
      | false =>
        have hr' : Rep h list (l₁ ++ [e] ++ l₂) := by rwa [List.append_assoc]
        have hloop := ih hr'
        rw [List.append_assoc, List.append_assoc] at hloop
        exact hloop

/-- A loop towards the head. -/
theorem Rep.deleteLoop_tail (drops : List Bool) (hr : Rep h list (l₁.reverse ++ l₂)) :
    Leaves h list (l₁.reverse ++ l₂) (listDeleteLoop drops h list ⟨lastOf none l₁.reverse, .startTail⟩)
      ((keep drops l₁).reverse ++ l₂) := by
  induction drops generalizing h list l₁ l₂ with
  | nil => exact ⟨h, list, rfl, hr, rfl, fun _ _ _ => rfl⟩
  | cons drop drops ih =>
    cases l₁ with
    | nil => exact ⟨h, list, rfl, hr, rfl, fun _ _ _ => rfl⟩
    | cons e l₁ =>
      rw [List.reverse_cons, List.append_assoc] at hr ⊢
      rw [listDeleteLoop, lastOf_concat, listNext_some hr.cell]
      dsimp only [Option.bind_eq_bind, Option.bind_some]
      cases drop with
      | true => exact hr.del.bind (addrs_subset_of_middle l₁.reverse e l₂) fun h' list' hr' => ih hr'
      | false =>
        have hkeep : (keep (false :: drops) (e :: l₁)).reverse ++ l₂ = (keep drops l₁).reverse ++ ([e] ++ l₂) := by
          rw [keep, if_neg Bool.false_ne_true, List.reverse_cons, List.append_assoc]
        rw [hkeep]
        exact ih hr

/-! ## Copies -/

/-- **Copies.** The loop of `listDup` behind the nodes `l₁`, whose copies are `c`: either every value is copied and the copy
    goes on with the rest, or the copy is given up and all its nodes are freed. -/
theorem Rep.dupLoop {orig copy : AdList A V} {c : List (A × V)} (nodes : List A) (horig : Rep h orig (l₁ ++ l₂))
    (hcopy : Rep h copy c) (hdisj : ∀ b ∈ addrs (l₁ ++ l₂), b ∉ addrs c) (hnodes : nodes.Nodup)
    (hfree : ∀ a ∈ nodes, h a = none) (hlen : l₂.length ≤ nodes.length) :
    match l₂.mapM fun e => copy.dupValue e.2 with
    | none => ∃ h', listDupLoop nodes h ⟨firstOf l₂ none, .startHead⟩ copy = some (h', none) ∧ (∀ b ∈ addrs c, h' b = none) ∧
        ∀ b ∉ addrs c, h' b = h b
    | some values => ∃ h' copy', listDupLoop nodes h ⟨firstOf l₂ none, .startHead⟩ copy = some (h', some copy') ∧
        Rep h' copy' (c ++ nodes.zip values) ∧ copy'.dup = copy.dup ∧ ∀ b ∉ addrs (c ++ nodes.zip values), h' b = h b := by
  induction l₂ generalizing h l₁ copy c nodes with
  | nil =>
    refine ⟨h, copy, ?_, ?_, rfl, fun _ _ => rfl⟩
    · rw [listDupLoop]
      rfl
    · change Rep h copy (c ++ nodes.zip [])
      rw [List.zip_nil_right, List.append_nil]
      exact hcopy
  | cons e l₂ ih =>
    rw [List.mapM_cons, listDupLoop, firstOf, listNext_some horig.cell]
    dsimp only [Option.bind_eq_bind, Option.bind_some]
    rw [horig.cell, Option.bind_some]
    dsimp only
    cases hvalue : copy.dupValue e.2 with
    | none =>
      obtain ⟨h', hrel, hfreed, hsame⟩ := hcopy.release
      refine ⟨h', ?_, hfreed, hsame⟩
      dsimp only
      rw [hrel]
      rfl
    | some value =>
      obtain _ | ⟨a, nodes⟩ := nodes
      · cases hlen
      obtain ⟨hnot, hnodes⟩ := List.nodup_cons.mp hnodes
      obtain ⟨h', copy', hadd, hcopy', hdup, hsame⟩ := hcopy.addTail (hfree a List.mem_cons_self) value
      have hframe : ∀ b ∉ addrs c, b ≠ a → h' b = h b := by
        intro b hb hne
        refine hsame b hb ?_
        rw [mem_addrs_append, not_or]
        exact ⟨hb, fun hmem => hne (List.mem_singleton.mp hmem)⟩
      have horigne : ∀ b ∈ addrs (l₁ ++ e :: l₂), b ≠ a := fun b hb heq =>
        horig.chain.not_mem (hfree a List.mem_cons_self) (heq ▸ hb)
      have horig' : Rep h' orig (l₁ ++ [e] ++ l₂) := by
        rw [List.append_assoc]
        exact horig.congr fun b hb => hframe b (hdisj b hb) (horigne b hb)
      have hdisj' : ∀ b ∈ addrs (l₁ ++ [e] ++ l₂), b ∉ addrs (c ++ [(a, value)]) := by
        intro b hb
        rw [List.append_assoc] at hb
        rw [mem_addrs_append, not_or]
        exact ⟨hdisj b hb, fun hmem => horigne b hb (List.mem_singleton.mp hmem)⟩
      have hfree' : ∀ b ∈ nodes, h' b = none := by
        intro b hb
        have hbfree := hfree b (List.mem_cons_of_mem _ hb)
        rw [hframe b (hcopy.chain.not_mem hbfree) fun heq => hnot (heq ▸ hb)]
        exact hbfree
      have hrest := ih nodes horig' hcopy' hdisj' hnodes hfree' (Nat.le_of_succ_le_succ hlen)
      have hvalues : copy'.dupValue = copy.dupValue := by
        funext value
        rw [AdList.dupValue, AdList.dupValue, hdup]
      rw [hvalues] at hrest
      dsimp only
      rw [hadd, Option.bind_some, Option.bind_some]
      cases hmap : l₂.mapM fun e => copy.dupValue e.2 with
      | none =>
        rw [hmap] at hrest
        obtain ⟨h'', hloop, hfreed, hsame'⟩ := hrest
        refine ⟨h'', hloop, fun b hb => hfreed b (mem_addrs_append.mpr (.inl hb)), fun b hb => ?_⟩
        by_cases hba : b = a
        · rw [hba, hfree a List.mem_cons_self]
          exact hfreed a (mem_addrs_append.mpr (.inr List.mem_cons_self))
        · rw [hsame' b (by rw [mem_addrs_append, not_or]; exact ⟨hb, fun hmem => hba (List.mem_singleton.mp hmem)⟩)]
          exact hframe b hb hba
      | some values =>
        rw [hmap] at hrest
        obtain ⟨h'', copy'', hloop, hrep, hdup', hsame'⟩ := hrest
        rw [List.append_assoc] at hrep hsame'
        refine ⟨h'', copy'', hloop, hrep, hdup'.trans hdup, fun b hb => ?_⟩
        have hparts := hb
        rw [mem_addrs_append, not_or] at hparts
        rw [hsame' b hb]
        exact hframe b hparts.1 fun heq => hparts.2 (heq ▸ List.mem_cons_self)

/-- **`listDup`.** The original is not changed. -/
theorem Rep.dup (hr : Rep h list l) {nodes : List A} (hnodes : nodes.Nodup) (hfree : ∀ a ∈ nodes, h a = none)
    (hlen : l.length ≤ nodes.length) :
    match l.mapM fun e => list.dupValue e.2 with
    | none => listDup h list nodes = some (h, none)
    | some values => ∃ h' copy, listDup h list nodes = some (h', some copy) ∧ Rep h' copy (nodes.zip values) ∧
        copy.dup = list.dup ∧ ∀ b ∉ addrs (nodes.zip values), h' b = h b := by
  have horig : Rep h list ([] ++ l) := hr
  have hloop := horig.dupLoop nodes (listCreate_rep h list.dup) (fun _ _ => List.not_mem_nil) hnodes hfree hlen
  have hvalues : (listCreate list.dup : AdList A V).dupValue = list.dupValue := rfl
  rw [hvalues] at hloop
  rw [listDup, hr.head]
  cases hmap : l.mapM fun e => list.dupValue e.2 with
  | none =>
    rw [hmap] at hloop
    obtain ⟨h', hloop, -, hsame⟩ := hloop
    have hh : h' = h := funext fun b => hsame b List.not_mem_nil
    dsimp only
    rw [hloop, hh]
  | some values =>
    rw [hmap] at hloop
    exact hloop

end

end Prez
