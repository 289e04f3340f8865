import Prez.Dict.Iterate

/-!
# `Prez.Dict.Safe` — a whole iteration

A caller walks through a dictionary with a safe iterator, and between two calls of `dictNext` it looks keys up, adds entries
and deletes the entry that it got last. Every state of such an iteration belongs to a cursor of `Lib.Cursor` whose two lists
are the entries behind the iterator and those ahead of it, so that what is known of cursors holds of the iteration.

The iterator keeps its position because no call moves an entry. That rests on two numbers. The index of a bucket is compared
with the size of the table as an `int`, so a table of 2³¹ buckets is taken for one that has ended. And rehashing is suspended
while the counter of safe iterators is not 0, so the counter must not be -1 when the iteration starts.
-/

namespace Prez

open Lib

variable {K V : Type}

/-! ## The iteration -/

/-- `dictNext` has been called. -/
def DictIterator.Started (iter : DictIterator K) : Prop := ¬(iter.index = -1 ∧ iter.table = .old)
deriving Decidable

/-- A dictionary and its iterator: the entry that was returned last and is still there, whether the end was reached, the
    entries returned so far, the keys deleted so far, and those of them that were not added again. -/
structure IterState (K V : Type) where
  d : Dict K V
  iter : DictIterator K
  last : Option K
  done : Bool
  returned : List (K × V)
  removed : List K
  gone : List K

/-- After `dictGetSafeIterator`. -/
def IterState.start (d : Dict K V) : IterState K V := ⟨d, dictGetSafeIterator, none, false, [], [], []⟩

/-- What the caller does next. `canResize` is `dict_can_resize` at that time. -/
inductive IterEvent (K V : Type) where
  | next
  | find (key : K)
  | add (canResize : Bool) (key : K) (val : V)
  | delete

/-- One call. -/
def IterState.step (T : DictType K) (s : IterState K V) : IterEvent K V → Option (IterState K V)
  | .next =>
    (dictNext T s.d s.iter).map fun (d, iter, e) =>
      { s with d := d, iter := iter, last := e.map Prod.fst, done := e.isNone, returned := s.returned ++ e.toList }
  | .find key => (dictFind T s.d key).map fun (d, _) => { s with d := d }
  | .add canResize key val =>
    (dictAdd T canResize s.d key val).map fun (d, ok) =>
      { s with d := d, gone := if ok then s.gone.filter fun k => !T.keyCompare key k else s.gone }
  | .delete =>
    s.last.bind fun key =>
    (dictDelete T s.d key).map fun (d, _) =>
      { s with d := d, last := none, removed := key :: s.removed, gone := key :: s.gone }

/-- Between two calls of `dictNext`. -/
def IterState.Between (s : IterState K V) : Prop := s.iter.Started ∧ s.done = false
deriving Decidable

/-- The calls that an iteration consists of. -/
def IterEvent.Allowed (s : IterState K V) : IterEvent K V → Prop
  | .next => s.done = false
  | .find _ | .add _ _ _ => s.Between
  | .delete => s.Between ∧ s.last.isSome = true

/-- The calls that leave every table with 2³⁰ buckets at most. -/
def IterEvent.Small (T : DictType K) (d : Dict K V) : IterEvent K V → Prop
  | .add canResize _ _ => AddSmall T canResize d
  | _ => True

instance IterEvent.decAllowed (s : IterState K V) : (ev : IterEvent K V) → Decidable (ev.Allowed s)
  | .next => inferInstanceAs (Decidable (_ = _))
  | .find _ | .add _ _ _ => inferInstanceAs (Decidable s.Between)
  | .delete => inferInstanceAs (Decidable (_ ∧ _))

instance IterEvent.decSmall (T : DictType K) (d : Dict K V) : (ev : IterEvent K V) → Decidable (ev.Small T d)
  | .add canResize key val => inferInstanceAs (Decidable ((DictOp.add canResize key val).Small T d))
  | .next | .find _ | .delete => inferInstanceAs (Decidable True)

/-- Iterations of a dictionary. -/
abbrev IterRun (T : DictType K) (d : Dict K V) (s : IterState K V) : Prop :=
  RunBy (IterState.step T) (fun s ev => ev.Allowed s ∧ ev.Small T s.d) (.start d) s

/-! ## The cursor of a state -/

section

variable {T : DictType K} {d₀ : Dict K V} {s : IterState K V} {c : Cursor K V} {r : Nat ×ₗ Nat ×ₗ Nat}

/-- A run of a cursor with the same record. -/
structure CursorRecord (T : DictType K) (d₀ : Dict K V) (s : IterState K V) (c : Cursor K V) : Prop where
  wf : s.d.Wf T
  run : Cursor.Run T.keyCompare (.start d₀.entries) c
  returned : c.returned = s.returned
  removed : c.removed = s.removed
  gone : c.gone = s.gone

/-- The iterator is in bucket `i`, where the cursor is. -/
structure InBucket (s : IterState K V) (c : Cursor K V) (r : Nat ×ₗ Nat ×ₗ Nat) (i : Nat) (b l : List (K × V)) : Prop where
  place : s.d.At s.iter i b l
  behind : c.behind = s.d.behind s.iter.table i b
  ahead : c.ahead = s.d.ahead s.iter.table i l
  rank : r = s.d.rank s.iter.table i l
  last : ∀ key, s.last = some key → ∃ e ∈ b, e.1 = key

/-- The iterator is before its first call, behind the last entry, or in a bucket. -/
def IterState.Stands (d₀ : Dict K V) (s : IterState K V) (c : Cursor K V) (r : Nat ×ₗ Nat ×ₗ Nat) : Prop :=
  s = .start d₀ ∧ c = .start d₀.entries ∧ r = toLex (2, toLex (0, 0)) ∨
  s.iter.Started ∧ s.d.iterators = d₀.iterators + 1 ∧
    (s.done = true ∧ c.ahead = [] ∨ s.done = false ∧ ∃ i b l, InBucket s c r i b l)

/-- **The state of an iteration**, with what is left of it at most. -/
def Iterates (T : DictType K) (d₀ : Dict K V) (s : IterState K V) (r : Nat ×ₗ Nat ×ₗ Nat) : Prop :=
  ∃ c, CursorRecord T d₀ s c ∧ s.Stands d₀ c r

theorem Iterates.start (hw : d₀.Wf T) : Iterates T d₀ (.start d₀) (toLex (2, toLex (0, 0))) :=
  ⟨_, ⟨hw, .refl, rfl, rfl, rfl⟩, .inl ⟨rfl, rfl, rfl⟩⟩

/-- Between two calls of `dictNext` the iterator is in a bucket. -/
theorem IterState.Stands.inside (h : s.Stands d₀ c r) (hb : s.Between) :
    s.d.iterators = d₀.iterators + 1 ∧ ∃ i b l, InBucket s c r i b l := by
  rcases h with ⟨rfl, -, -⟩ | ⟨-, hiter, ⟨hdone, -⟩ | ⟨-, hin⟩⟩
  · exact absurd ⟨rfl, rfl⟩ hb.1
  · rw [hb.2] at hdone
    cases hdone
  · exact ⟨hiter, hin⟩

theorem Dict.At.rank_pos {d : Dict K V} {iter : DictIterator K} {i : Nat} {b l : List (K × V)} (h : d.At iter i b l) :
    toLex (0, toLex (0, 0)) < d.rank iter.table i l := by
  have hi : 0 < (d.ht iter.table).size - i := Nat.sub_pos_of_lt h.inside
  unfold Dict.rank
  cases hside : iter.table with
  | old => exact Prod.Lex.toLex_lt_toLex.mpr (.inl Nat.one_pos)
  | new =>
    rw [hside] at hi
    exact Prod.Lex.toLex_lt_toLex.mpr (.inr ⟨rfl, Prod.Lex.toLex_lt_toLex.mpr (.inl hi)⟩)

/-! ### `dictNext` -/

/-- What the next call of `dictNext` finds: the entries ahead of the cursor. -/
structure Finds (T : DictType K) (d₀ : Dict K V) (s : IterState K V) (c : Cursor K V) (r : Nat ×ₗ Nat ×ₗ Nat)
    (d : Dict K V) : Prop where
  wf : d.Wf T
  entries : d.entries = c.behind ++ c.ahead
  iterators : d.iterators = d₀.iterators + 1
  pos : toLex (0, toLex (0, 0)) < r
  arrives : Arrives d c.ahead r (dictNext T s.d s.iter)

theorem IterState.Stands.finds (hT : T.Lawful) (hcount : d₀.iterators + 1 < 2 ^ 31) (hf : CursorRecord T d₀ s c)
    (h : s.Stands d₀ c r) (hdone : s.done = false) : ∃ d, Finds T d₀ s c r d := by
  rcases h with ⟨rfl, rfl, rfl⟩ | ⟨-, hiter, ⟨hend, -⟩ | ⟨-, i, b, l, hin⟩⟩
  · have hw : d₀.Wf T := hf.wf
    refine ⟨{ d₀ with iterators := d₀.iterators + 1 }, ⟨hw.table, hw.idle, hw.range, hw.moved, hw.distinct⟩, rfl, rfl, ?_,
      dictNext_first hw hcount⟩
    exact Prod.Lex.toLex_lt_toLex.mpr (.inl Nat.two_pos)
  · rw [hdone] at hend
    cases hend
  · refine ⟨s.d, hf.wf, ?_, hiter, ?_, ?_⟩
    · rw [hin.behind, hin.ahead]
      exact hin.place.entries
    · rw [hin.rank]
      exact hin.place.rank_pos
    · rw [hin.ahead, hin.rank]
      exact hin.place.dictNext hT hf.wf

/-- **One call of `dictNext`.** It lowers the rank. -/
theorem Finds.step {d : Dict K V} (hf : CursorRecord T d₀ s c) (h : Finds T d₀ s c r d) :
    ∃ s' r', s.step T .next = some s' ∧ Iterates T d₀ s' r' ∧ r' < r := by
  have harr := h.arrives
  cases hahead : c.ahead with
  | nil =>
    rw [hahead] at harr
    obtain ⟨iter, hnext, hstarted⟩ := harr
    refine ⟨_, toLex (0, toLex (0, 0)), by rw [IterState.step, hnext, Option.map_some], ⟨c, ?_, ?_⟩, h.pos⟩
    · refine ⟨h.wf, hf.run, ?_, hf.removed, hf.gone⟩
      exact hf.returned.trans (List.append_nil _).symm
    · exact .inr ⟨hstarted, h.iterators, .inl ⟨rfl, hahead⟩⟩
  | cons e l =>
    rw [hahead] at harr
    obtain ⟨iter, i, b, l', hnext, hat, hl, hlt⟩ := harr
    have hbehind : c.behind ++ [e] = d.behind iter.table i (b ++ [e]) := by
      have hentries := h.entries
      rw [hat.entries, hl, hahead, List.append_cons c.behind e l] at hentries
      exact (List.append_cancel_right hentries).symm
    refine ⟨_, d.rank iter.table i l', by rw [IterState.step, hnext, Option.map_some],
      ⟨{ c with behind := c.behind ++ [e], ahead := l, returned := c.returned ++ [e] }, ?_, ?_⟩, hlt⟩
    · refine ⟨h.wf, hf.run.tail (.next hahead), ?_, hf.removed, hf.gone⟩
      exact congrArg (· ++ [e]) hf.returned
    · refine .inr ⟨?_, h.iterators, .inr ⟨rfl, i, b ++ [e], l', hat, hbehind, hl.symm, rfl, ?_⟩⟩
      · rintro ⟨hindex, -⟩
        rw [hat.index] at hindex
        omega
      · intro key hkey
        cases hkey
        exact ⟨e, List.mem_append_right _ List.mem_cons_self, rfl⟩

/-! ### Calls between -/

/-- A position that the dictionary keeps is still one between two calls. -/
theorem InBucket.stands {s' : IterState K V} {c' : Cursor K V} {i : Nat} {b b' l : List (K × V)} (h : InBucket s c r i b l)
    (hopen : s.d.iterators = d₀.iterators + 1) (hk : KeepsPlace s.d s'.d s.iter i b' l) (hiter : s'.iter = s.iter)
    (hdone : s'.done = false) (hbehind : c'.behind = s'.d.behind s.iter.table i b')
    (hahead : c'.ahead = s'.d.ahead s.iter.table i l) (hlast : ∀ key, s'.last = some key → ∃ e ∈ b', e.1 = key) :
    s'.Stands d₀ c' r := by
  refine .inr ⟨?_, hk.iterators.trans hopen, .inr ⟨hdone, i, b', l, ?_⟩⟩
  · rintro ⟨hindex, -⟩
    rw [hiter, h.place.index] at hindex
    omega
  · refine ⟨?_, ?_, ?_, ?_, hlast⟩
    · rw [hiter]
      exact hk.place
    · rw [hiter]
      exact hbehind
    · rw [hiter]
      exact hahead
    · rw [hiter, hk.rank]
      exact h.rank

section

variable (hT : T.Lawful) (hopen : d₀.iterators ≠ -1) (h : Iterates T d₀ s r) (hb : s.Between)

include hT hopen h hb

/-- A lookup. -/
theorem Iterates.find (key : K) :
    ∃ s', s.step T (.find key) = some s' ∧ Iterates T d₀ s' r := by
  obtain ⟨c, hf, hs⟩ := h
  obtain ⟨hiter, -⟩ := hs.inside hb
  obtain ⟨o, ho⟩ := dictFind_frozen hT hf.wf (by omega) key
  exact ⟨s, by rw [IterState.step, ho, Option.map_some], c, hf, hs⟩

/-- An insertion, behind the iterator or ahead of it. -/
theorem Iterates.add {canResize : Bool} (hsmall : AddSmall T canResize s.d) (key : K) (val : V) :
    ∃ s', s.step T (.add canResize key val) = some s' ∧ Iterates T d₀ s' r := by
  obtain ⟨c, hf, hs⟩ := h
  obtain ⟨hiter, i, b, l, hin⟩ := hs.inside hb
  obtain ⟨d', ok, b', hadd, hw', hsub, hk, hfail, hok⟩ := hin.place.dictAdd hT hf.wf (by omega) hsmall key val
  have hlast : ∀ key, s.last = some key → ∃ e ∈ b', e.1 = key := by
    intro key hkey
    obtain ⟨e, he, hek⟩ := hin.last key hkey
    exact ⟨e, hsub he, hek⟩
  refine ⟨_, by rw [IterState.step, hadd, Option.map_some], ?_⟩
  cases ok with
  | false =>
    obtain ⟨hbehind, hahead⟩ := hfail rfl
    refine ⟨c, ⟨hw', hf.run, hf.returned, hf.removed, hf.gone⟩, hin.stands hiter hk rfl hb.2 ?_ ?_ hlast⟩
    · exact hin.behind.trans hbehind.symm
    · exact hin.ahead.trans hahead.symm
  | true =>
    obtain ⟨hnew, hins⟩ := hok rfl
    rw [hin.place.entries, ← hin.behind, ← hin.ahead] at hnew
    unfold Inserts at hins
    rw [← hin.behind, ← hin.ahead] at hins
    refine ⟨_, ⟨hw', hf.run.tail (.insert hnew hins), hf.returned, hf.removed, ?_⟩,
      hin.stands hiter hk rfl hb.2 rfl rfl hlast⟩
    exact congrArg (List.filter fun k => !T.keyCompare key k) hf.gone

/-- The entry returned last goes. -/
theorem Iterates.delete (hlast : s.last.isSome = true) : ∃ s', s.step T .delete = some s' ∧ Iterates T d₀ s' r := by
  obtain ⟨c, hf, hs⟩ := h
  obtain ⟨hiter, i, b, l, hin⟩ := hs.inside hb
  obtain ⟨key, hkey⟩ := Option.isSome_iff_exists.mp hlast
  obtain ⟨e, he, rfl⟩ := hin.last key hkey
  obtain ⟨d', b', hdel, hw', hk, hbehind, hahead⟩ := hin.place.dictDelete hT hf.wf (by omega) he
  rw [← hin.behind] at hbehind
  refine ⟨_, by rw [IterState.step, hkey, Option.bind_some, hdel, Option.map_some], ?_⟩
  refine ⟨_, ⟨hw', hf.run.tail (.remove hbehind), hf.returned, ?_, ?_⟩, hin.stands hiter hk rfl hb.2 rfl ?_ ?_⟩
  · exact congrArg (e.1 :: ·) hf.removed
  · exact congrArg (e.1 :: ·) hf.gone
  · exact hin.ahead.trans hahead.symm
  · intro key hnone
    cases hnone

end

/-- **One call.** It has a result, and only `dictNext` changes what is left of the iteration. -/
theorem Iterates.step (hT : T.Lawful) (hopen : d₀.iterators ≠ -1) (hcount : d₀.iterators + 1 < 2 ^ 31) (h : Iterates T d₀ s r)
    {ev : IterEvent K V} (hev : ev.Allowed s) (hsmall : ev.Small T s.d) :
    ∃ s' r', s.step T ev = some s' ∧ Iterates T d₀ s' r' ∧ r' ≤ r ∧ (ev = .next → r' < r) := by
  cases ev with
  | next =>
    obtain ⟨c, hf, hs⟩ := h
    obtain ⟨d, hfinds⟩ := hs.finds hT hcount hf hev
    obtain ⟨s', r', hstep, ht, hlt⟩ := hfinds.step hf
    exact ⟨s', r', hstep, ht, hlt.le, fun _ => hlt⟩
  | find key =>
    obtain ⟨s', hstep, ht⟩ := h.find hT hopen hev key
    exact ⟨s', r, hstep, ht, le_rfl, fun hne => by cases hne⟩
  | add canResize key val =>
    obtain ⟨s', hstep, ht⟩ := h.add hT hopen hev hsmall key val
    exact ⟨s', r, hstep, ht, le_rfl, fun hne => by cases hne⟩
  | delete =>
    obtain ⟨s', hstep, ht⟩ := h.delete hT hopen hev.1 hev.2
    exact ⟨s', r, hstep, ht, le_rfl, fun hne => by cases hne⟩

/-- **Every state of an iteration.** -/
theorem Iterates.of_run (hT : T.Lawful) (hw : d₀.Wf T) (hopen : d₀.iterators ≠ -1) (hcount : d₀.iterators + 1 < 2 ^ 31)
    (hr : IterRun T d₀ s) : ∃ r, Iterates T d₀ s r := by
  refine hr.invariant (P := fun s => ∃ r, Iterates T d₀ s r) ?_ ⟨_, .start hw⟩
  rintro s ev s' ⟨hev, hsmall⟩ hstep ⟨r, ht⟩
  obtain ⟨s₁, r₁, hs₁, ht₁, -⟩ := ht.step hT hopen hcount hev hsmall
  cases hstep.symm.trans hs₁
  exact ⟨r₁, ht₁⟩

/-! ## Whole iterations -/

/-- Each entry that is not deleted is returned once at most, and once at the end. -/
theorem Iterates.once (hT : T.Lawful) (hw : d₀.Wf T) (h : Iterates T d₀ s r) {e : K × V} (he : e ∈ d₀.entries)
    (hkept : ∀ k ∈ s.removed, T.keyCompare e.1 k = false) :
    Cursor.count T.keyCompare e.1 s.returned ≤ 1 ∧
      (s.done = true → e ∈ s.returned ∧ Cursor.count T.keyCompare e.1 s.returned = 1) := by
  obtain ⟨c, hf, hs⟩ := h
  have hc := Cursor.run_once hT.keyEq hw.distinct he hf.run (by rw [hf.removed]; exact hkept)
  obtain ⟨hthere, -, honce⟩ := hc
  rw [hf.returned] at hthere honce
  refine ⟨by omega, fun hdone => ?_⟩
  rcases hs with ⟨rfl, -, -⟩ | ⟨-, -, ⟨-, hahead⟩ | ⟨hrunning, -⟩⟩
  · cases hdone
  · rw [hahead] at hthere honce
    exact ⟨hthere.resolve_right List.not_mem_nil, honce⟩
  · rw [hrunning] at hdone
    cases hdone

/-- `dictNext` returns no entry that was deleted. -/
theorem Iterates.not_gone (hT : T.Lawful) (hw : d₀.Wf T) (hcount : d₀.iterators + 1 < 2 ^ 31) (h : Iterates T d₀ s r)
    (hdone : s.done = false) {d' : Dict K V} {iter' : DictIterator K} {e : K × V}
    (hnext : dictNext T s.d s.iter = some (d', iter', some e)) : ∀ k ∈ s.gone, T.keyCompare k e.1 = false := by
  obtain ⟨c, hf, hs⟩ := h
  obtain ⟨d, hfinds⟩ := hs.finds hT hcount hf hdone
  have harr := hfinds.arrives
  rw [hnext] at harr
  have hmem : e ∈ c.ahead := by
    cases hahead : c.ahead with
    | nil =>
      rw [hahead] at harr
      obtain ⟨_, hnone, -⟩ := harr
      cases hnone
    | cons a l =>
      rw [hahead] at harr
      obtain ⟨_, _, _, _, hsome, -⟩ := harr
      cases hsome
      exact List.mem_cons_self
  intro k hk
  rw [← hf.gone] at hk
  exact (Cursor.run_sound hT.keyEq hw.distinct hf.run).gone k hk e (List.mem_append_right _ hmem)

theorem Iterates.release (h : Iterates T d₀ s r) : (dictReleaseIterator s.d s.iter).iterators = d₀.iterators := by
  obtain ⟨c, -, hs⟩ := h
  rcases hs with ⟨rfl, -, -⟩ | ⟨hstarted, hiter, -⟩
  · rfl
  · unfold DictIterator.Started at hstarted
    rw [dictReleaseIterator, if_pos hstarted]
    show s.d.iterators - 1 = _
    omega

/-- **A safe iteration returns each element once.** Let a dictionary have been built with tables of 2³⁰ buckets at most and
    let fewer than 2³¹ - 1 safe iterators be open on it, and not -1. Then in every state of an iteration whose insertions keep
    the tables that small each further call has a result; an entry of the dictionary at the start that was not deleted was
    returned once at most, and once if the iteration has ended; `dictNext` returns no key that was deleted and not added
    again; and `dictReleaseIterator` puts the counter of iterators back. No such iteration calls `dictNext` for ever. -/
theorem safe_iteration (T : DictType K) (hT : T.Lawful) (d : Dict K V) (m : K → Option V) (hr : DictRun T d m)
    (hopen : d.iterators ≠ -1) (hcount : d.iterators + 1 < 2 ^ 31) :
    (∀ s, IterRun T d s →
      (∀ ev : IterEvent K V, ev.Allowed s → ev.Small T s.d → (s.step T ev).isSome = true) ∧
      (∀ e ∈ d.entries, (∀ k ∈ s.removed, T.keyCompare e.1 k = false) →
        Cursor.count T.keyCompare e.1 s.returned ≤ 1 ∧
          (s.done = true → e ∈ s.returned ∧ Cursor.count T.keyCompare e.1 s.returned = 1)) ∧
      (∀ d' iter' e, s.done = false → dictNext T s.d s.iter = some (d', iter', some e) →
        ∀ k ∈ s.gone, T.keyCompare k e.1 = false) ∧
      (dictReleaseIterator s.d s.iter).iterators = d.iterators) ∧
    ∀ (run : Nat → IterState K V) (ev : Nat → IterEvent K V), run 0 = .start d →
      (∀ n, (ev n).Allowed (run n) ∧ (ev n).Small T (run n).d ∧ (run n).step T (ev n) = some (run (n + 1))) →
      ∃ N, ∀ n ≥ N, ev n ≠ .next := by
  obtain ⟨hw, -⟩ := hr.inv hT
  constructor
  · intro s hrun
    obtain ⟨r, ht⟩ := Iterates.of_run hT hw hopen hcount hrun
    refine ⟨fun ev hev hsmall => ?_, fun e he hkept => ht.once hT hw he hkept, fun d' iter' e hdone hnext => ?_, ht.release⟩
    · obtain ⟨s', r', hstep, -⟩ := ht.step hT hopen hcount hev hsmall
      rw [hstep]
      rfl
    · exact ht.not_gone hT hw hcount hdone hnext
  · intro run ev hstart hsteps
    refine falls_finitely (P := Iterates T d) (fun n r ht => ?_) _ 0 (hstart ▸ Iterates.start hw)
    obtain ⟨hev, hsmall, hstep⟩ := hsteps n
    obtain ⟨s', r', hs', ht', hle, hlt⟩ := ht.step hT hopen hcount hev hsmall
    cases hstep.symm.trans hs'
    exact ⟨r', hle, ht', hlt⟩

end

/-- The hypotheses at work: four entries, an insertion that starts an expansion after the second one was returned, and the
    deletion of that one. The iteration goes on through both tables. -/
theorem safe_iteration_expands :
    ∃ (d : Dict UInt32 Nat) (m : UInt32 → Option Nat) (s : IterState UInt32 Nat),
      DictRun wordKeys d m ∧ IterRun wordKeys d s ∧
      (s.d.ht1.size, s.done, s.removed, s.returned.map Prod.fst) = (8, true, [1], [4, 1, 2, 3, 5]) ∧
      (∀ e ∈ d.entries, (∀ k ∈ s.removed, wordKeys.keyCompare e.1 k = false) →
        Cursor.count wordKeys.keyCompare e.1 s.returned = 1) ∧
      (dictReleaseIterator s.d s.iter).iterators = d.iterators := by
  obtain ⟨⟨d, m⟩, hr, hd⟩ := run_of_exec (dictStep wordKeys) (fun s op => op.Small wordKeys s.1)
    ((dictCreate, fun _ => none) : Dict UInt32 Nat × (UInt32 → Option Nat))
    [.add true 1 10, .add true 2 20, .add true 3 30, .add true 4 40]
    (fun s => decide (s.1.iterators = 0 ∧ (execIf (IterState.step wordKeys)
      (fun s ev => decide (ev.Allowed s ∧ ev.Small wordKeys s.d)) (.start s.1)
      [.next, .next, .add true 5 50, .delete, .next, .find 3, .next, .next, .next]).map
        (fun t => (t.d.ht1.size, t.done, t.removed, t.returned.map Prod.fst)) = some (8, true, [1], [4, 1, 2, 3, 5])))
    true (by decide +kernel)
  obtain ⟨hiter, hexec⟩ := of_decide_eq_true hd
  obtain ⟨s, hrun, hs⟩ := run_of_exec (IterState.step wordKeys) (fun s ev => ev.Allowed s ∧ ev.Small wordKeys s.d)
    (.start d) _ (fun t => (t.d.ht1.size, t.done, t.removed, t.returned.map Prod.fst)) _ hexec
  have hiter : d.iterators = 0 := hiter
  have hall := (safe_iteration wordKeys wordKeys_lawful d m hr (by omega) (by omega)).1 s hrun
  have hdone : s.done = true := congrArg (fun v => v.2.1) hs
  exact ⟨d, m, s, hr, hrun, hs, fun e he hkept => ((hall.2.1 e he hkept).2 hdone).2, hall.2.2.2⟩

/-- A table of 2³¹ buckets with one entry: as an `int` its size is negative, the first `dictNext` returns `NULL`, and the
    entry has not been returned. -/
theorem safe_iteration_misses :
    (dictAdd wordKeys true (dictExpand (dictCreate : Dict UInt32 Nat) (2 ^ 31)).1 7 1).bind (fun r =>
      ((IterState.start r.1).step wordKeys .next).bind fun s =>
        (dictFind wordKeys s.d 7).map fun f => (r.1.ht0.size, f.2.map Prod.snd, s.done, s.returned)) =
      some (2 ^ 31, some (7, 1), true, []) := by
  decide +kernel

end Prez
