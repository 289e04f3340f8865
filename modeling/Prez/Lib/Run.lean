import Mathlib.Logic.Relation
import Mathlib.Order.WellFounded

/-!
# `Lib.Run` — runs of a partial step function

A system is a function that takes a state and an action to the next state, if there is one. A run is a
sequence of such steps whose actions all meet a condition, which may look at the state before the step.
Invariants are proved with `RunBy.invariant`; runs of concrete actions are found by executing them
(`run_of_exec`).
-/

namespace Lib

variable {σ α : Type*} {step : σ → α → Option σ} {ok : σ → α → Prop}

/-- A step whose action meets a condition. -/
def StepBy (step : σ → α → Option σ) (ok : σ → α → Prop) (s s' : σ) : Prop := ∃ a, ok s a ∧ step s a = some s'

/-- A run of steps that all meet a condition. -/
abbrev RunBy (step : σ → α → Option σ) (ok : σ → α → Prop) : σ → σ → Prop :=
  Relation.ReflTransGen (StepBy step ok)

/-- What every step keeps, every run keeps. -/
theorem RunBy.invariant {P : σ → Prop} (hstep : ∀ s a s', ok s a → step s a = some s' → P s → P s') {s s' : σ}
    (hr : RunBy step ok s s') (hs : P s) : P s' := by
  induction hr with
  | refl => exact hs
  | tail _ h ih =>
    obtain ⟨a, ha, h⟩ := h
    exact hstep _ a _ ha h ih

theorem RunBy.weaken {ok' : σ → α → Prop} (hok : ∀ s a, ok s a → ok' s a) {s s' : σ} (hr : RunBy step ok s s') :
    RunBy step ok' s s' :=
  Relation.ReflTransGen.mono (fun s _ ⟨a, ha, h⟩ => ⟨a, hok s a ha, h⟩) _ _ hr

/-- The state after a list of actions that all pass a test. -/
def execIf (step : σ → α → Option σ) (test : σ → α → Bool) : σ → List α → Option σ
  | s, [] => some s
  | s, a :: as => if test s a then (step s a).bind fun s => execIf step test s as else none

theorem execIf_run {test : σ → α → Bool} (htest : ∀ s a, test s a = true → ok s a) :
    ∀ {as : List α} {s s' : σ}, execIf step test s as = some s' → RunBy step ok s s' := by
  intro as
  induction as with
  | nil =>
    intro s s' h
    cases h
    exact .refl
  | cons a as ih =>
    intro s s' h
    rw [execIf] at h
    split at h
    · rename_i ht
      obtain ⟨s₁, h₁, h⟩ := Option.bind_eq_some_iff.mp h
      exact .head ⟨a, htest s a ht, h₁⟩ (ih h)
    · cases h

/-- A run that passes the tests ends in a state with the value found by executing it. -/
theorem run_of_exec (step : σ → α → Option σ) (ok : σ → α → Prop) [∀ s a, Decidable (ok s a)] (s : σ)
    (as : List α) {β : Type*} (f : σ → β) (v : β)
    (h : (execIf step (fun s a => decide (ok s a)) s as).map f = some v) : ∃ s', RunBy step ok s s' ∧ f s' = v := by
  obtain ⟨s', hs', hv⟩ := Option.map_eq_some_iff.mp h
  exact ⟨s', execIf_run (fun _ _ => of_decide_eq_true) hs', hv⟩

/-- What every step of a loop that may stop keeps, the loop keeps. -/
theorem foldlM_invariant {ε : Type*} {f : σ → α → Except ε σ} {P : σ → Prop} {l : List α}
    (hf : ∀ a ∈ l, ∀ s s', P s → f s a = .ok s' → P s') :
    ∀ {s s' : σ}, P s → l.foldlM f s = .ok s' → P s' := by
  induction l with
  | nil =>
    intro s s' hs h
    cases h
    exact hs
  | cons a l ih =>
    intro s s' hs h
    rw [List.foldlM_cons] at h
    cases ha : f s a with
    | error e =>
      rw [ha] at h
      cases h
    | ok s₁ =>
      rw [ha] at h
      exact ih (fun b hb => hf b (List.mem_cons_of_mem _ hb)) (hf a List.mem_cons_self s s₁ hs ha) h

/-- The same for a loop without an error value. -/
theorem foldlM_some_invariant {f : σ → α → Option σ} {P : σ → Prop} {l : List α}
    (hf : ∀ a ∈ l, ∀ s s', P s → f s a = some s' → P s') :
    ∀ {s s' : σ}, P s → l.foldlM f s = some s' → P s' := by
  induction l with
  | nil =>
    intro s s' hs h
    cases h
    exact hs
  | cons a l ih =>
    intro s s' hs h
    rw [List.foldlM_cons] at h
    obtain ⟨s₁, ha, h⟩ := Option.bind_eq_some_iff.mp h
    exact ih (fun b hb => hf b (List.mem_cons_of_mem _ hb)) (hf a List.mem_cons_self s s₁ hs ha) h

/-- A rank that never rises along an infinite run falls finitely often. The rank may depend on more than the state. -/
theorem falls_finitely {ρ : Type*} [Preorder ρ] [WellFoundedLT ρ] {run : Nat → σ} {falls : Nat → Prop} {P : σ → ρ → Prop}
    (hstep : ∀ n r, P (run n) r → ∃ r' ≤ r, P (run (n + 1)) r' ∧ (falls n → r' < r)) :
    ∀ (r : ρ) (m : Nat), P (run m) r → ∃ N, ∀ n ≥ N, ¬ falls n := by
  intro r
  induction r using WellFoundedLT.induction with
  | ind r ih =>
    intro m hm
    have hreach : ∀ n ≥ m, ∃ r' ≤ r, P (run n) r' := by
      intro n hn
      induction n, hn using Nat.le_induction with
      | base => exact ⟨r, le_rfl, hm⟩
      | succ n _ ihn =>
        obtain ⟨r₁, hr₁, hP⟩ := ihn
        obtain ⟨r₂, hr₂, hP₂, -⟩ := hstep n r₁ hP
        exact ⟨r₂, hr₂.trans hr₁, hP₂⟩
    by_cases hfall : ∃ n ≥ m, falls n
    · obtain ⟨n, hn, hfalls⟩ := hfall
      obtain ⟨r₁, hr₁, hP⟩ := hreach n hn
      obtain ⟨r₂, -, hP₂, hlt⟩ := hstep n r₁ hP
      exact ih r₂ ((hlt hfalls).trans_le hr₁) (n + 1) hP₂
    · exact ⟨m, fun n hn hfalls => hfall ⟨n, hn, hfalls⟩⟩

/-! ## Two runs -/

/-- Results that are related stay related when both are mapped. -/
theorem rel_map {γ δ ε ζ : Type*} {R : γ → δ → Prop} {S : ε → ζ → Prop} {f : γ → ε} {g : δ → ζ} {x : Option γ}
    {y : Option δ} (h : Option.Rel R x y) (hfg : ∀ a b, R a b → S (f a) (g b)) : Option.Rel S (x.map f) (y.map g) := by
  cases h with
  | none => exact .none
  | some h => exact .some (hfg _ _ h)

/-- What a run shows: the output of each step, until one has no result. -/
def trace {β : Type*} (step : σ → α → Option (σ × β)) : σ → List α → List (Option β)
  | _, [] => []
  | s, a :: as =>
    match step s a with
    | none => [none]
    | some (s, b) => some b :: trace step s as

/-- States that show the same at every step, and stay related, show the same in every run. -/
theorem trace_eq {β : Type*} {step : σ → α → Option (σ × β)} {R : σ → σ → Prop}
    (hstep : ∀ s t a, R s t → Option.Rel (fun x y => R x.1 y.1 ∧ x.2 = y.2) (step s a) (step t a)) :
    ∀ (as : List α) {s t : σ}, R s t → trace step s as = trace step t as := by
  intro as
  induction as with
  | nil => exact fun _ => rfl
  | cons a as ih =>
    intro s t h
    have hrel := hstep s t a h
    rw [trace, trace]
    generalize step s a = x at hrel ⊢
    generalize step t a = y at hrel ⊢
    cases hrel with
    | none => rfl
    | some hxy =>
      dsimp only
      rw [hxy.2, ih hxy.1]

end Lib
