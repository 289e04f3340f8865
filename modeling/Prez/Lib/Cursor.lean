import Prez.Lib.Assoc
import Prez.Lib.Run

/-!
# `Lib.Cursor` — walking through a collection that changes

A cursor stands between the entries behind it and those ahead of it, and returns the entry it passes. The collection may
change between two moves: an entry with a key of its own is inserted anywhere, behind the cursor or ahead of it, and an entry
behind it is removed. What was there at the start and is not removed is then returned exactly once (`Cursor.run_once`): it is
ahead until it is returned, and behind from then on. What was removed is not ahead any more (`Cursor.run_sound`), unless an
entry with its key has been inserted since.

Keys are compared as in `Lib.Assoc`. How the collection is stored, and in which order, does not matter.
-/

namespace Lib

variable {K V : Type*}

/-- The entries behind and ahead of a cursor, what it returned, the keys that were removed, and those of them that were not
    inserted again. -/
structure Cursor (K V : Type*) where
  behind : List (K × V)
  ahead : List (K × V)
  returned : List (K × V)
  removed : List K
  gone : List K

namespace Cursor

/-- A cursor in front of the entries `l`. -/
def start (l : List (K × V)) : Cursor K V := ⟨[], l, [], [], []⟩

/-- The cursor moves, or the collection changes around it. -/
inductive Step (eq : K → K → Bool) (c : Cursor K V) : Cursor K V → Prop where
  | next {e : K × V} {l : List (K × V)} (h : c.ahead = e :: l) :
      Step eq c { c with behind := c.behind ++ [e], ahead := l, returned := c.returned ++ [e] }
  | insert {e : K × V} {b a : List (K × V)} (hnew : ∀ x ∈ c.behind ++ c.ahead, eq x.1 e.1 = false)
      (hp : b.Perm (e :: c.behind) ∧ a = c.ahead ∨ b = c.behind ∧ a.Perm (e :: c.ahead)) :
      Step eq c { c with behind := b, ahead := a, gone := c.gone.filter fun k => !eq e.1 k }
  | remove {e : K × V} {l : List (K × V)} (hp : c.behind.Perm (e :: l)) :
      Step eq c { c with behind := l, removed := e.1 :: c.removed, gone := e.1 :: c.gone }

abbrev Run (eq : K → K → Bool) : Cursor K V → Cursor K V → Prop := Relation.ReflTransGen (Step eq)

/-- How often a key stands in a list of entries. -/
def count (eq : K → K → Bool) (k : K) (l : List (K × V)) : Nat := l.countP fun e => eq k e.1

/-- An entry is ahead, or its key is behind and the entry was returned. -/
structure Once (eq : K → K → Bool) (e : K × V) (c : Cursor K V) : Prop where
  there : e ∈ c.returned ∨ e ∈ c.ahead
  passed : count eq e.1 c.behind = count eq e.1 c.returned
  once : count eq e.1 c.returned + count eq e.1 c.ahead = 1

variable {eq : K → K → Bool} {k : K}

theorem count_append (l r : List (K × V)) : count eq k (l ++ r) = count eq k l + count eq k r := List.countP_append

theorem count_cons (e : K × V) (l : List (K × V)) : count eq k (e :: l) = count eq k l + if eq k e.1 then 1 else 0 :=
  List.countP_cons

theorem count_perm {l r : List (K × V)} (h : l.Perm r) : count eq k l = count eq k r := h.countP_eq _

variable {l : List (K × V)} {c c' : Cursor K V} {x : K × V} {e : K × V}

theorem count_pos (h : 0 < count eq k l) : ∃ e ∈ l, eq k e.1 = true := List.countP_pos_iff.mp h

/-- Keys that are distinct stand in a list once. -/
theorem count_distinct (hE : KeyEq eq) (hd : Assoc.Distinct eq l) (he : e ∈ l) : count eq e.1 l = 1 := by
  induction l with
  | nil => cases he
  | cons a l ih =>
    obtain ⟨ha, hl⟩ := List.pairwise_cons.mp hd
    rw [count_cons]
    rcases List.mem_cons.mp he with rfl | he
    · have hzero : count eq e.1 l = 0 := by
        by_contra hne
        obtain ⟨x, hx, hex⟩ := count_pos (Nat.pos_of_ne_zero hne)
        exact absurd hex (Bool.eq_false_iff.mp (ha x hx))
      rw [hzero, if_pos (hE.refl e.1)]
    · have hea : ¬ eq e.1 a.1 = true := by
        rw [hE.comm]
        exact Bool.eq_false_iff.mp (ha e he)
      rw [ih hl he, if_neg hea]

/-- A key that is there is not the one of a new entry. -/
theorem Once.ne_new (hE : KeyEq eq) {c : Cursor K V} (h : Once eq x c)
    (hnew : ∀ a ∈ c.behind ++ c.ahead, eq a.1 e.1 = false) : ¬ eq x.1 e.1 = true := by
  intro hxe
  have hpos : 0 < count eq x.1 (c.behind ++ c.ahead) := by
    rw [count_append, h.passed, h.once]
    exact Nat.one_pos
  obtain ⟨a, ha, hxa⟩ := count_pos hpos
  exact absurd (hE.trans (hE.symm hxa) hxe) (Bool.eq_false_iff.mp (hnew a ha))

theorem Step.removed_subset (h : Step eq c c') : ∀ r ∈ c.removed, r ∈ c'.removed := by
  intro r hr
  cases h with
  | next | insert => exact hr
  | remove => exact List.mem_cons_of_mem _ hr

/-- **One move or change.** -/
theorem Step.once (hE : KeyEq eq) (h : Step eq c c') (hk : ∀ r ∈ c'.removed, eq x.1 r = false) (hc : Once eq x c) :
    Once eq x c' := by
  cases h with
  | @next e l hahead =>
    obtain ⟨hthere, hpassed, honce⟩ := hc
    rw [hahead] at hthere honce
    rw [count_cons] at honce
    refine ⟨?_, ?_, ?_⟩
    · rcases hthere with hx | hx
      · exact .inl (List.mem_append_left _ hx)
      · rcases List.mem_cons.mp hx with rfl | hx
        · exact .inl (List.mem_append_right _ List.mem_cons_self)
        · exact .inr hx
    · rw [count_append, count_append, hpassed]
    · have hnil : count eq x.1 ([] : List (K × V)) = 0 := rfl
      rw [count_append, count_cons, hnil]
      dsimp only
      omega
  | @insert e b a hnew hp =>
    have hne := hc.ne_new hE hnew
    obtain ⟨hthere, hpassed, honce⟩ := hc
    rcases hp with ⟨hb, rfl⟩ | ⟨rfl, ha⟩
    · refine ⟨hthere, ?_, honce⟩
      rw [count_perm hb, count_cons, if_neg hne]
      exact hpassed
    · refine ⟨hthere.imp_right fun hx => ha.mem_iff.mpr (List.mem_cons_of_mem _ hx), hpassed, ?_⟩
      rw [count_perm ha, count_cons, if_neg hne]
      exact honce
  | @remove e l hp =>
    obtain ⟨hthere, hpassed, honce⟩ := hc
    refine ⟨hthere, ?_, honce⟩
    rw [count_perm hp, count_cons, if_neg (Bool.eq_false_iff.mp (hk _ List.mem_cons_self))] at hpassed
    exact hpassed

/-- **What was there at the start and is not removed is returned exactly once.** -/
theorem run_once (hE : KeyEq eq) (hd : Assoc.Distinct eq l) (hx : x ∈ l) {c : Cursor K V} (hr : Run eq (start l) c) :
    (∀ r ∈ c.removed, eq x.1 r = false) → Once eq x c := by
  induction hr with
  | refl =>
    intro _
    refine ⟨.inr hx, rfl, ?_⟩
    show 0 + count eq x.1 l = 1
    rw [count_distinct hE hd hx]
  | tail _ h ih =>
    intro hremoved
    exact h.once hE hremoved (ih fun r hr => hremoved r (h.removed_subset r hr))

/-- Keys are distinct, and those that are gone are not there. -/
structure Sound (eq : K → K → Bool) (c : Cursor K V) : Prop where
  distinct : Assoc.Distinct eq (c.behind ++ c.ahead)
  gone : ∀ k ∈ c.gone, ∀ a ∈ c.behind ++ c.ahead, eq k a.1 = false

/-- Both lists of an insertion, seen as one. -/
theorem perm_insert {b a b' a' : List (K × V)} (hp : b'.Perm (e :: b) ∧ a' = a ∨ b' = b ∧ a'.Perm (e :: a)) :
    (b' ++ a').Perm (e :: (b ++ a)) := by
  rcases hp with ⟨hb, rfl⟩ | ⟨rfl, ha⟩
  · exact hb.append_right _
  · exact (ha.append_left _).trans List.perm_middle

theorem Step.sound (hE : KeyEq eq) (h : Step eq c c') (hc : Sound eq c) : Sound eq c' := by
  obtain ⟨hd, hgone⟩ := hc
  cases h with
  | @next e l hahead =>
    have hsame : c.behind ++ [e] ++ l = c.behind ++ c.ahead := by rw [hahead, List.append_assoc, List.singleton_append]
    exact ⟨by rw [hsame]; exact hd, by rw [hsame]; exact hgone⟩
  | @insert e b a hnew hp =>
    have hall := perm_insert hp
    refine ⟨?_, fun k hk x hx => ?_⟩
    · refine Assoc.Distinct.perm hE (List.pairwise_cons.mpr ⟨fun x hx => ?_, hd⟩) hall.symm
      rw [hE.comm]
      exact hnew x hx
    · obtain ⟨hk, hek⟩ := List.mem_filter.mp hk
      rcases List.mem_cons.mp (hall.mem_iff.mp hx) with rfl | hx
      · rw [hE.comm]
        simpa using hek
      · exact hgone k hk x hx
  | @remove e l hp =>
    have hall : (c.behind ++ c.ahead).Perm (e :: (l ++ c.ahead)) := hp.append_right _
    obtain ⟨he, hrest⟩ := List.pairwise_cons.mp (hd.perm hE hall)
    refine ⟨hrest, fun k hk x hx => ?_⟩
    rcases List.mem_cons.mp hk with rfl | hk
    · exact he x hx
    · exact hgone k hk x (hall.mem_iff.mpr (List.mem_cons_of_mem _ hx))

/-- **What was removed and not inserted again is not there any more.** -/
theorem run_sound (hE : KeyEq eq) (hd : Assoc.Distinct eq l) {c : Cursor K V} (hr : Run eq (start l) c) :
    Sound eq c := by
  induction hr with
  | refl => exact ⟨hd, fun k hk => absurd hk List.not_mem_nil⟩
  | tail _ h ih => exact h.sound hE ih

end Cursor

end Lib
