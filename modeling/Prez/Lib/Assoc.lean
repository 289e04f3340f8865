import Mathlib.Data.List.Pairwise
import Mathlib.Data.List.Perm.Basic
import Mathlib.Tactic.Common

/-!
# `Lib.Assoc` — association lists under a key comparison of one's own

A hash table keeps its entries in some order, and its keys are compared by a function rather than by
equality. `Assoc.lookup` reads such a list of entries as a map. As long as no two entries have equal keys
(`Assoc.Distinct`) the order does not matter (`Assoc.lookup_perm`), so an operation on the table is
specified by what it does to the entries up to a permutation.
-/

namespace Lib

variable {K V : Type*}

/-- A key comparison that is an equivalence. -/
structure KeyEq (eq : K → K → Bool) : Prop where
  refl : ∀ a, eq a a = true
  symm : ∀ {a b}, eq a b = true → eq b a = true
  trans : ∀ {a b c}, eq a b = true → eq b c = true → eq a c = true

/-- Keys compared by equality. -/
theorem keyEq_beq [BEq K] [LawfulBEq K] : KeyEq fun a b : K => a == b where
  refl := beq_self_eq_true
  symm h := beq_iff_eq.mpr (beq_iff_eq.mp h).symm
  trans h h' := beq_iff_eq.mpr ((beq_iff_eq.mp h).trans (beq_iff_eq.mp h'))

namespace KeyEq

variable {eq : K → K → Bool} (hE : KeyEq eq)
include hE

theorem comm (a b : K) : eq a b = eq b a :=
  Bool.eq_iff_iff.mpr ⟨hE.symm, hE.symm⟩

/-- Equal keys compare the same way with every other key. -/
theorem congr_right {a b : K} (h : eq a b = true) (c : K) : eq c a = eq c b :=
  Bool.eq_iff_iff.mpr ⟨fun hca => hE.trans hca h, fun hcb => hE.trans hcb (hE.symm h)⟩

end KeyEq

namespace Assoc

variable (eq : K → K → Bool)

/-- The value stored for a key. -/
def lookup (k : K) (l : List (K × V)) : Option V := (l.find? fun e => eq k e.1).map Prod.snd

/-- No two entries have equal keys. -/
def Distinct (l : List (K × V)) : Prop := l.Pairwise fun a b => eq a.1 b.1 = false

/-- The first entry whose key passes the test gets a new value. -/
def setFirst (p : K → Bool) (v : V) : List (K × V) → List (K × V)
  | [] => []
  | e :: l => if p e.1 then (e.1, v) :: l else e :: setFirst p v l

/-- A map with the value of one key replaced. -/
def store (k : K) (o : Option V) (m : K → Option V) : K → Option V := fun k' => if eq k k' then o else m k'

variable {eq}

/-! ## Lookup -/

theorem lookup_cons (k : K) (e : K × V) (l : List (K × V)) :
    lookup eq k (e :: l) = if eq k e.1 then some e.2 else lookup eq k l := by
  unfold lookup
  rw [List.find?_cons]
  cases eq k e.1 <;> rfl

theorem lookup_append (k : K) (l l' : List (K × V)) :
    lookup eq k (l ++ l') = (lookup eq k l).or (lookup eq k l') := by
  simp only [lookup, List.find?_append]
  cases l.find? fun e => eq k e.1 <;> rfl

variable {l : List (K × V)} {e : K × V} {k : K}

theorem lookup_eq_none : lookup eq k l = none ↔ ∀ e ∈ l, eq k e.1 = false := by
  simp [lookup]

theorem lookup_isSome : (lookup eq k l).isSome = true ↔ ∃ e ∈ l, eq k e.1 = true := by
  simp [lookup]

theorem lookup_congr (hE : KeyEq eq) {a b : K} (h : eq a b = true) (l : List (K × V)) :
    lookup eq a l = lookup eq b l := by
  have hp : (fun e : K × V => eq a e.1) = fun e => eq b e.1 := by
    funext e
    rw [hE.comm a, hE.comm b]
    exact hE.congr_right h e.1
  rw [lookup, lookup, hp]

theorem Distinct.perm (hE : KeyEq eq) {l l' : List (K × V)} (hd : Distinct eq l) (hp : l.Perm l') :
    Distinct eq l' :=
  (hp.pairwise_iff fun {a b} h => (hE.comm b.1 a.1).trans h).mp hd

/-- Entries with equal keys are one entry. -/
theorem Distinct.eq_of_keys (hE : KeyEq eq) (hd : Distinct eq l) {a b : K × V} (ha : a ∈ l) (hb : b ∈ l)
    (heq : eq a.1 b.1 = true) : a = b := by
  have : Std.Symm fun a b : K × V => eq a.1 b.1 = false := ⟨fun a b h => (hE.comm b.1 a.1).trans h⟩
  by_contra hne
  exact absurd heq (Bool.eq_false_iff.mp (hd.forall ha hb hne))

/-- **Lookup does not depend on the order of the entries.** -/
theorem lookup_perm (hE : KeyEq eq) (k : K) {l l' : List (K × V)} (hd : Distinct eq l) (hp : l.Perm l') :
    lookup eq k l = lookup eq k l' := by
  induction hp with
  | nil => rfl
  | cons e _ ih => rw [lookup_cons, lookup_cons, ih (List.pairwise_cons.mp hd).2]
  | swap a b l =>
    have hba : eq b.1 a.1 = false := (List.pairwise_cons.mp hd).1 a (by simp)
    simp only [lookup_cons]
    split <;> split <;> try rfl
    -- both entries compare equal to `k`, hence to each other
    rename_i hb ha
    have := hE.trans (hE.symm hb) ha
    rw [this] at hba
    cases hba
  | trans hp _ ih₁ ih₂ => rw [ih₁ hd, ih₂ (hd.perm hE hp)]

/-- An entry whose key is new keeps the keys distinct. -/
theorem Distinct.cons {v : V} (hd : Distinct eq l) (hn : lookup eq k l = none) : Distinct eq ((k, v) :: l) :=
  List.pairwise_cons.mpr ⟨fun e he => lookup_eq_none.mp hn e he, hd⟩

/-- The entry of a key, with the others distinct from it, in front of a list of entries. -/
theorem lookup_store (hE : KeyEq eq) {k k₀ : K} (h : eq k k₀ = true) (v : V) (l : List (K × V)) (k' : K) :
    lookup eq k' ((k₀, v) :: l) = store eq k (some v) (fun k' => lookup eq k' l) k' := by
  rw [lookup_cons, store]
  have : eq k' k₀ = eq k k' := (hE.congr_right h k').symm.trans (hE.comm k' k)
  rw [this]

/-- Once its entry is removed, a key has no value. -/
theorem lookup_remove (hE : KeyEq eq) {l l' : List (K × V)} (hd : Distinct eq l) (hp : l.Perm (e :: l'))
    (h : eq k e.1 = true) (k' : K) : lookup eq k' l' = store eq k none (fun k' => lookup eq k' l) k' := by
  have hd' := List.pairwise_cons.mp (hd.perm hE hp)
  rw [store, lookup_perm hE k' hd hp, lookup_cons, ← hE.congr_right h k', hE.comm k' k]
  split
  · rename_i hk
    refine lookup_eq_none.mpr fun a ha => ?_
    -- an entry for `k'` would have the key of `e`
    by_contra hc
    have : eq e.1 a.1 = true := hE.trans (hE.symm h) (hE.trans hk (Bool.of_not_eq_false hc))
    rw [hd'.1 a ha] at this
    cases this
  · rfl

/-! ## Updates of the first match -/

theorem eq_of_find? (h : l.find? (fun e => eq k e.1) = some e) : eq k e.1 = true := by
  simpa using List.find?_some h

theorem perm_eraseP {p : K × V → Bool} (h : l.find? p = some e) : l.Perm (e :: l.eraseP p) := by
  induction l with
  | nil => cases h
  | cons a l ih =>
    rw [List.find?_cons] at h
    rw [List.eraseP_cons]
    cases hp : p a with
    | true =>
      rw [hp] at h
      cases h
      exact .refl _
    | false =>
      rw [hp] at h
      simpa using ((ih h).cons a).trans (List.Perm.swap e a _)

/-- An entry of the list is what is taken out under its key. -/
theorem Distinct.perm_eraseP_mem (hE : KeyEq eq) (hd : Distinct eq l) (he : e ∈ l) :
    l.Perm (e :: l.eraseP fun a => eq e.1 a.1) := by
  have hsome : (l.find? fun a => eq e.1 a.1).isSome = true := List.find?_isSome.mpr ⟨e, he, hE.refl e.1⟩
  obtain ⟨a, ha⟩ := Option.isSome_iff_exists.mp hsome
  have hae : e = a := hd.eq_of_keys hE he (List.mem_of_find?_eq_some ha) (eq_of_find? ha)
  rw [← hae] at ha
  exact perm_eraseP ha

theorem perm_setFirst {p : K → Bool} {v : V} (h : l.find? (fun a => p a.1) = some e) :
    (setFirst p v l).Perm ((e.1, v) :: l.eraseP fun a => p a.1) := by
  induction l with
  | nil => cases h
  | cons a l ih =>
    rw [List.find?_cons] at h
    rw [setFirst, List.eraseP_cons]
    cases hp : p a.1 with
    | true =>
      rw [hp] at h
      cases h
      exact .refl _
    | false =>
      rw [hp] at h
      simpa using ((ih h).cons a).trans (List.Perm.swap (e.1, v) a _)

theorem mem_setFirst {p : K → Bool} {v : V} (h : e ∈ setFirst p v l) : ∃ a ∈ l, a.1 = e.1 := by
  induction l with
  | nil => cases h
  | cons a l ih =>
    rw [setFirst] at h
    split at h
    · rcases List.mem_cons.mp h with rfl | h
      · exact ⟨a, by simp, rfl⟩
      · exact ⟨e, List.mem_cons_of_mem a h, rfl⟩
    · rcases List.mem_cons.mp h with rfl | h
      · exact ⟨e, by simp, rfl⟩
      · obtain ⟨b, hb, hbe⟩ := ih h
        exact ⟨b, List.mem_cons_of_mem a hb, hbe⟩

end Assoc

end Lib
