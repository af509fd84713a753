import Mathlib.Logic.Function.Basic
import Mathlib.Data.List.Basic

/-! Finite runs of a step relation, with a condition on every step, and the invariant rule.
`good s e` is asked of the state `s` that event `e` leaves, so a run says which inputs were
allowed where, and `fun _ _ => True` gives the unrestricted runs. -/
namespace Transition

variable {σ ι : Type*}

/-- The states reached from an initial state by steps that all meet `good`. -/
inductive Reach (init : σ → Prop) (step : σ → ι → σ → Prop) (good : σ → ι → Prop) : σ → Prop
  | start {s : σ} : init s → Reach init step good s
  | next {s s' : σ} {e : ι} : Reach init step good s → good s e → step s e s' →
      Reach init step good s'

variable {init : σ → Prop} {step : σ → ι → σ → Prop} {good : σ → ι → Prop}

/-- A property of the initial states kept by every allowed step holds in every state reached. -/
theorem Reach.invariant {I : σ → Prop} (h₀ : ∀ s, init s → I s)
    (hstep : ∀ s e s', I s → good s e → step s e s' → I s') {s : σ}
    (h : Reach init step good s) : I s := by
  induction h with
  | start hi => exact h₀ _ hi
  | next _ hg hs ih => exact hstep _ _ _ ih hg hs

/-- Allowing more steps reaches at least the same states. -/
theorem Reach.mono {good' : σ → ι → Prop} (hgood : ∀ s e, good s e → good' s e) {s : σ}
    (h : Reach init step good s) : Reach init step good' s := by
  induction h with
  | start hi => exact .start hi
  | next _ hg hs ih => exact .next ih (hgood _ _ hg) hs

/-- A run of a step function, all of whose steps are allowed. -/
theorem Reach.foldlM {f : σ → ι → Option σ} {s s' : σ}
    (h : Reach init (fun s e s' => f s e = some s') good s) {es : List ι}
    (hgood : ∀ s, ∀ e ∈ es, good s e) (hs : es.foldlM f s = some s') :
    Reach init (fun s e s' => f s e = some s') good s' := by
  induction es generalizing s with
  | nil =>
    cases hs
    exact h
  | cons e es ih =>
    rw [List.foldlM_cons] at hs
    obtain ⟨t, ht, hs⟩ := Option.bind_eq_some_iff.mp hs
    exact ih (h.next (hgood s e (by simp)) ht) (fun t x hx => hgood t x (by simp [hx])) hs

/-- A run of a step function that checks each step before it is taken. -/
theorem Reach.guarded {f : σ → ι → Option σ} {ok : σ → ι → Bool} {s s' : σ}
    (h : Reach init (fun s e s' => f s e = some s') (fun s e => ok s e = true) s) {es : List ι}
    (hs : es.foldlM (fun s e => if ok s e then f s e else none) s = some s') :
    Reach init (fun s e s' => f s e = some s') (fun s e => ok s e = true) s' := by
  induction es generalizing s with
  | nil =>
    cases hs
    exact h
  | cons e es ih =>
    rw [List.foldlM_cons] at hs
    obtain ⟨t, ht, hs⟩ := Option.bind_eq_some_iff.mp hs
    split at ht
    · next hok => exact ih (h.next hok ht) hs
    · cases ht

end Transition
