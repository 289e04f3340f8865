import Mathlib.Data.List.Induction
import Mathlib.Logic.Function.Basic
import Mathlib.Tactic.Common

/-!
# `Lib.Chain` — doubly linked chains of cells

A heap maps addresses to cells, and a cell points to the one before it and the one after it. `Chain h p l n` says that the
cells at the addresses of `l` hold its values and are linked in this order, with `p` in front of the first and `n` behind the
last. Chains split and join (`chain_append`), and they do not depend on other cells (`Chain.congr`).

A list is patched at the two ends of a gap: `linkNext` changes where the cell in front of the gap points to, `linkPrev` the
one behind it. Insertion and removal anywhere in a list are these two writes (`Chain.insert`, `Chain.remove`).

`Path` follows one of the two pointers from an address on. A chain is a path in both directions.
-/

namespace Lib

variable {A V : Type*}

/-- A cell of a doubly linked list. -/
structure Cell (A V : Type*) where
  prev : Option A
  next : Option A
  value : V

/-- The cells that are allocated. -/
abbrev Cells (A V : Type*) := A → Option (Cell A V)

/-- The addresses of a list of nodes. -/
def addrs (l : List (A × V)) : List A := l.map Prod.fst

/-- The first address, or `n` if there is none. -/
def firstOf (l : List (A × V)) (n : Option A) : Option A :=
  match l with
  | [] => n
  | e :: _ => some e.1

/-- The last address, or `p` if there is none. -/
def lastOf (p : Option A) : List (A × V) → Option A
  | [] => p
  | e :: l => lastOf (some e.1) l

/-- The nodes `l` are linked in this order between `p` and `n`. -/
def Chain (h : Cells A V) : Option A → List (A × V) → Option A → Prop
  | _, [], _ => True
  | p, e :: l, n => h e.1 = some ⟨p, firstOf l n, e.2⟩ ∧ Chain h (some e.1) l n

/-- Following a pointer from an address passes the nodes `l` and ends at NULL. -/
inductive Path (h : Cells A V) (field : Cell A V → Option A) : Option A → List (A × V) → Prop where
  | nil : Path h field none []
  | cons {a : A} {c : Cell A V} {l : List (A × V)} (hcell : h a = some c) (hrest : Path h field (field c) l) :
      Path h field (some a) ((a, c.value) :: l)

/-- `k` steps along a pointer, or as many as there are; `none` is a dangling pointer. -/
def walk (h : Cells A V) (field : Cell A V → Option A) : Nat → Option A → Option (Option A)
  | 0, a => some a
  | _ + 1, none => some none
  | k + 1, some a => (h a).bind fun c => walk h field k (field c)

section

variable {h h' : Cells A V} {p n : Option A} {l r : List (A × V)}

/-! ## Ends -/

theorem lastOf_append (p : Option A) (l r : List (A × V)) : lastOf p (l ++ r) = lastOf (lastOf p l) r := by
  induction l generalizing p with
  | nil => rfl
  | cons e l ih => exact ih (some e.1)

theorem firstOf_append (l r : List (A × V)) (n : Option A) : firstOf (l ++ r) n = firstOf l (firstOf r n) := by
  cases l <;> rfl

theorem firstOf_eq_none : firstOf l none = none ↔ l = [] := by
  cases l <;> simp [firstOf]

theorem lastOf_concat (p : Option A) (l : List (A × V)) (e : A × V) : lastOf p (l ++ [e]) = some e.1 := by
  rw [lastOf_append]
  rfl

theorem lastOf_eq_none : lastOf none l = none ↔ l = [] := by
  induction l using List.reverseRecOn with
  | nil => simp [lastOf]
  | append_singleton l e _ => simp [lastOf_concat]

theorem lastOf_of_ne_nil (hl : l ≠ []) (p q : Option A) : lastOf p l = lastOf q l := by
  cases l with
  | nil => exact (hl rfl).elim
  | cons e l => rfl

theorem firstOf_of_ne_nil (hl : l ≠ []) (n m : Option A) : firstOf l n = firstOf l m := by
  cases l with
  | nil => exact (hl rfl).elim
  | cons e l => rfl

theorem firstOf_eq_head? (l : List (A × V)) : firstOf l none = l.head?.map Prod.fst := by
  cases l <;> rfl

theorem lastOf_eq_getLast? (l : List (A × V)) : lastOf none l = l.getLast?.map Prod.fst := by
  induction l using List.reverseRecOn with
  | nil => rfl
  | append_singleton l e _ => rw [lastOf_concat, List.getLast?_concat, Option.map_some]

theorem mem_addrs_append {a : A} : a ∈ addrs (l ++ r) ↔ a ∈ addrs l ∨ a ∈ addrs r := by
  rw [addrs, List.map_append, List.mem_append]
  rfl

/-- Behind another address, the last one is that address only if there are no nodes. -/
theorem lastOf_eq_self {a : A} (ha : a ∉ addrs l) : lastOf (some a) l = some a ↔ l = [] := by
  induction l using List.reverseRecOn with
  | nil => exact ⟨fun _ => rfl, fun _ => rfl⟩
  | append_singleton l e _ =>
    rw [lastOf_concat]
    refine ⟨fun heq => (ha ?_).elim, fun hnil => by simp at hnil⟩
    rw [← Option.some.inj heq]
    exact mem_addrs_append.mpr (.inr List.mem_cons_self)

theorem firstOf_eq_self {a : A} (ha : a ∉ addrs l) : firstOf l (some a) = some a ↔ l = [] := by
  cases l with
  | nil => exact ⟨fun _ => rfl, fun _ => rfl⟩
  | cons e l => exact ⟨fun heq => (ha (Option.some.inj heq ▸ List.mem_cons_self)).elim, fun hnil => by cases hnil⟩

/-! ## Chains -/

/-- The two parts of a list have different addresses. -/
theorem nodup_addrs_append (hnd : (addrs (l ++ r)).Nodup) :
    (addrs l).Nodup ∧ (addrs r).Nodup ∧ ∀ a ∈ addrs l, a ∉ addrs r := by
  rw [addrs, List.map_append, List.nodup_append] at hnd
  exact ⟨hnd.1, hnd.2.1, fun a ha hr => hnd.2.2 a ha a hr rfl⟩

theorem addrs_subset_of_middle (l : List (A × V)) (e : A × V) (r : List (A × V)) :
    addrs (l ++ r) ⊆ addrs (l ++ e :: r) :=
  List.map_subset _ ((List.Sublist.refl l).append (List.sublist_cons_self e r)).subset

/-- **Chains split and join.** -/
theorem chain_append : Chain h p (l ++ r) n ↔ Chain h p l (firstOf r n) ∧ Chain h (lastOf p l) r n := by
  induction l generalizing p with
  | nil => exact ⟨fun h => ⟨trivial, h⟩, fun h => h.2⟩
  | cons e l ih =>
    rw [List.cons_append, Chain, Chain, ih, firstOf_append, and_assoc]
    rfl

/-- Only the cells of the chain matter. -/
theorem Chain.congr (hc : Chain h p l n) (hsame : ∀ a ∈ addrs l, h' a = h a) : Chain h' p l n := by
  induction l generalizing p with
  | nil => trivial
  | cons e l ih =>
    refine ⟨?_, ih hc.2 fun a ha => hsame a (List.mem_cons_of_mem _ ha)⟩
    rw [hsame e.1 List.mem_cons_self]
    exact hc.1

theorem Chain.allocated (hc : Chain h p l n) {a : A} (ha : a ∈ addrs l) : (h a).isSome = true := by
  induction l generalizing p with
  | nil => cases ha
  | cons e l ih =>
    rcases List.mem_cons.mp ha with rfl | ha
    · rw [hc.1]
      rfl
    · exact ih hc.2 ha

theorem Chain.not_mem (hc : Chain h p l n) {a : A} (ha : h a = none) : a ∉ addrs l := by
  intro hmem
  have hsome := hc.allocated hmem
  rw [ha] at hsome
  cases hsome

/-! ## Paths -/

/-- **Forwards.** -/
theorem Chain.path_next (hc : Chain h p l none) : Path h Cell.next (firstOf l none) l := by
  induction l generalizing p with
  | nil => exact .nil
  | cons e l ih => exact .cons hc.1 (ih hc.2)

/-- **Backwards.** -/
theorem Chain.path_prev (hc : Chain h none l n) : Path h Cell.prev (lastOf none l) l.reverse := by
  induction l using List.reverseRecOn generalizing n with
  | nil => exact .nil
  | append_singleton l e ih =>
    obtain ⟨hl, hcell, -⟩ := chain_append.mp hc
    rw [lastOf_concat, List.reverse_append]
    exact .cons hcell (ih hl)

theorem Path.walk {field : Cell A V → Option A} {a : Option A} (hp : Path h field a l) :
    ∀ k, walk h field k a = some ((l[k]?).map Prod.fst) := by
  induction hp with
  | nil =>
    intro k
    cases k <;> rfl
  | cons hcell _ ih =>
    intro k
    cases k with
    | zero => rfl
    | succ k =>
      rw [Lib.walk, hcell]
      exact ih k

end

/-! ## Patching -/

section

variable [DecidableEq A] {h : Cells A V} {p n : Option A} {l r : List (A × V)}

/-- A write to a cell; `none` is a dangling pointer. -/
def setNext (h : Cells A V) (a : A) (n : Option A) : Option (Cells A V) :=
  (h a).map fun c => Function.update h a (some { c with next := n })

def setPrev (h : Cells A V) (a : A) (p : Option A) : Option (Cells A V) :=
  (h a).map fun c => Function.update h a (some { c with prev := p })

/-- A write behind a test for NULL. -/
def linkNext (h : Cells A V) (a : Option A) (n : Option A) : Option (Cells A V) :=
  match a with
  | none => some h
  | some a => setNext h a n

def linkPrev (h : Cells A V) (a : Option A) (p : Option A) : Option (Cells A V) :=
  match a with
  | none => some h
  | some a => setPrev h a p

/-- The last cell of a chain gets another successor. -/
theorem Chain.relink_next (hc : Chain h none l n) (hnd : (addrs l).Nodup) (n' : Option A) :
    ∃ h', linkNext h (lastOf none l) n' = some h' ∧ Chain h' none l n' ∧ ∀ a ∉ addrs l, h' a = h a := by
  induction l using List.reverseRecOn with
  | nil => exact ⟨h, rfl, trivial, fun _ _ => rfl⟩
  | append_singleton l e _ =>
    obtain ⟨hl, hcell, -⟩ := chain_append.mp hc
    have hnot : e.1 ∉ addrs l := fun hmem => (nodup_addrs_append hnd).2.2 e.1 hmem List.mem_cons_self
    refine ⟨Function.update h e.1 (some ⟨lastOf none l, n', e.2⟩), ?_, chain_append.mpr ⟨hl.congr fun a ha => ?_, ?_, trivial⟩,
      fun a ha => ?_⟩
    · rw [lastOf_concat, linkNext, setNext, hcell]
      rfl
    · have hne : a ≠ e.1 := fun heq => hnot (heq ▸ ha)
      exact Function.update_of_ne hne _ _
    · exact Function.update_self ..
    · have hne : a ≠ e.1 := by
        rintro rfl
        exact ha (mem_addrs_append.mpr (.inr List.mem_cons_self))
      exact Function.update_of_ne hne _ _

/-- The first cell of a chain gets another predecessor. -/
theorem Chain.relink_prev (hc : Chain h p l none) (hnd : (addrs l).Nodup) (p' : Option A) :
    ∃ h', linkPrev h (firstOf l none) p' = some h' ∧ Chain h' p' l none ∧ ∀ a ∉ addrs l, h' a = h a := by
  cases l with
  | nil => exact ⟨h, rfl, trivial, fun _ _ => rfl⟩
  | cons e l =>
    obtain ⟨hcell, hl⟩ := hc
    have hnot : e.1 ∉ addrs l := (List.nodup_cons.mp hnd).1
    refine ⟨Function.update h e.1 (some ⟨p', firstOf l none, e.2⟩), ?_, ⟨?_, hl.congr fun a ha => ?_⟩, fun a ha => ?_⟩
    · rw [firstOf, linkPrev, setPrev, hcell]
      rfl
    · exact Function.update_self ..
    · have hne : a ≠ e.1 := fun heq => hnot (heq ▸ ha)
      exact Function.update_of_ne hne _ _
    · have hne : a ≠ e.1 := fun heq => ha (heq ▸ List.mem_cons_self)
      exact Function.update_of_ne hne _ _

/-- The gap between `l` and `r` is closed by two writes. -/
theorem Chain.join {q m : Option A} (hl : Chain h none l m) (hr : Chain h q r none) (hnd : (addrs (l ++ r)).Nodup)
    (n' p' : Option A) :
    ∃ h₁ h₂, linkNext h (lastOf none l) n' = some h₁ ∧ linkPrev h₁ (firstOf r none) p' = some h₂ ∧
      Chain h₂ none l n' ∧ Chain h₂ p' r none ∧ (∀ a ∉ addrs l, h₁ a = h a) ∧ ∀ a ∉ addrs (l ++ r), h₂ a = h a := by
  obtain ⟨hndl, hndr, hdisj⟩ := nodup_addrs_append hnd
  obtain ⟨h₁, hlink₁, hl₁, hsame₁⟩ := hl.relink_next hndl n'
  have hr₁ : Chain h₁ q r none := hr.congr fun a ha => hsame₁ a fun hal => hdisj a hal ha
  obtain ⟨h₂, hlink₂, hr₂, hsame₂⟩ := hr₁.relink_prev hndr p'
  refine ⟨h₁, h₂, hlink₁, hlink₂, hl₁.congr fun a ha => hsame₂ a (hdisj a ha), hr₂, hsame₁, fun a ha => ?_⟩
  rw [mem_addrs_append, not_or] at ha
  rw [hsame₂ a ha.2, hsame₁ a ha.1]

/-- **Insertion.** A new cell between `l` and `r`, and the two writes that link it. -/
theorem Chain.insert (hc : Chain h none (l ++ r) none) (hnd : (addrs (l ++ r)).Nodup) {a : A} (ha : h a = none) (v : V) :
    ∃ h₁ h₂, linkNext (Function.update h a (some ⟨lastOf none l, firstOf r none, v⟩)) (lastOf none l) (some a) = some h₁ ∧
      h₁ a = some ⟨lastOf none l, firstOf r none, v⟩ ∧ linkPrev h₁ (firstOf r none) (some a) = some h₂ ∧
      Chain h₂ none (l ++ (a, v) :: r) none ∧ (addrs (l ++ (a, v) :: r)).Nodup ∧
      ∀ b ∉ addrs (l ++ (a, v) :: r), h₂ b = h b := by
  have hnot : a ∉ addrs (l ++ r) := hc.not_mem ha
  have hfresh : ∀ b ∈ addrs (l ++ r), Function.update h a (some ⟨lastOf none l, firstOf r none, v⟩) b = h b := by
    intro b hb
    have hne : b ≠ a := fun heq => hnot (heq ▸ hb)
    exact Function.update_of_ne hne _ _
  obtain ⟨hl, hr⟩ := chain_append.mp (hc.congr hfresh)
  obtain ⟨h₁, h₂, hlink₁, hlink₂, hl₂, hr₂, hsame₁, hsame₂⟩ := hl.join hr hnd (some a) (some a)
  have hself : Function.update h a (some ⟨lastOf none l, firstOf r none, v⟩) a = some ⟨lastOf none l, firstOf r none, v⟩ :=
    Function.update_self ..
  have hparts := hnot
  rw [mem_addrs_append, not_or] at hparts
  refine ⟨h₁, h₂, hlink₁, by rw [hsame₁ a hparts.1, hself], hlink₂, chain_append.mpr ⟨hl₂, ?_, hr₂⟩, ?_, fun b hb => ?_⟩
  · rw [hsame₂ a hnot, hself]
  · have hperm : (addrs (l ++ (a, v) :: r)).Perm (a :: addrs (l ++ r)) := List.perm_middle.map Prod.fst
    exact hperm.nodup_iff.mpr (List.nodup_cons.mpr ⟨hnot, hnd⟩)
  · have hperm : (addrs (l ++ (a, v) :: r)).Perm (a :: addrs (l ++ r)) := List.perm_middle.map Prod.fst
    rw [hperm.mem_iff, List.mem_cons, not_or] at hb
    rw [hsame₂ b hb.2, Function.update_of_ne hb.1]

/-- **Removal.** The two writes that bypass a cell. -/
theorem Chain.remove {e : A × V} (hc : Chain h none (l ++ e :: r) none) (hnd : (addrs (l ++ e :: r)).Nodup) :
    ∃ h₁ h₂, linkNext h (lastOf none l) (firstOf r none) = some h₁ ∧ h₁ e.1 = h e.1 ∧
      linkPrev h₁ (firstOf r none) (lastOf none l) = some h₂ ∧ Chain (Function.update h₂ e.1 none) none (l ++ r) none ∧
      (addrs (l ++ r)).Nodup ∧ ∀ b ∉ addrs (l ++ e :: r), Function.update h₂ e.1 none b = h b := by
  obtain ⟨hl, -, hr⟩ := chain_append.mp hc
  have hperm : (addrs (l ++ e :: r)).Perm (e.1 :: addrs (l ++ r)) := List.perm_middle.map Prod.fst
  obtain ⟨hnot, hnd'⟩ := List.nodup_cons.mp (hperm.nodup_iff.mp hnd)
  obtain ⟨h₁, h₂, hlink₁, hlink₂, hl₂, hr₂, hsame₁, hsame₂⟩ := hl.join hr hnd' (firstOf r none) (lastOf none l)
  have hparts := hnot
  rw [mem_addrs_append, not_or] at hparts
  refine ⟨h₁, h₂, hlink₁, hsame₁ e.1 hparts.1, hlink₂, ?_, hnd', fun b hb => ?_⟩
  · refine (chain_append.mpr ⟨hl₂, hr₂⟩).congr fun b hb => ?_
    have hne : b ≠ e.1 := fun heq => hnot (heq ▸ hb)
    exact Function.update_of_ne hne _ _
  · rw [hperm.mem_iff, List.mem_cons, not_or] at hb
    rw [Function.update_of_ne hb.1, hsame₂ b hb.2]

end

end Lib
