import Gsgpu.Lib.Prog

/-! Computations on a part of the state, and computations that keep an account beside it. `Shows`
says that a computation does to the part what one on the part alone does, so that nothing the
account adds has an effect on it. -/
namespace Prog

variable {φ ε σ τ α β : Type}

/-- A part of the state. -/
structure Part (τ σ : Type) where
  get : τ → σ
  set : σ → τ → τ
  get_set : ∀ s t, get (set s t) = s

/-- Run a computation on a part of the state. -/
def zoom (l : Part τ σ) (x : Prog φ ε σ α) : Prog φ ε τ α := fun t =>
  match x (l.get t) with
  | .error f => .error f
  | .ok (r, s) => .ok (r, l.set s t)

@[simp] theorem wp_zoom {F : Prop} (l : Part τ σ) (x : Prog φ ε σ α)
    {Q : Except ε α → τ → Prop} {t : τ} :
    wp F (zoom l x) Q t = wp F x (fun r s => Q r (l.set s t)) (l.get t) := by
  unfold wp zoom
  cases x (l.get t) <;> rfl

theorem bind_assoc {γ : Type} (x : Prog φ ε σ α) (f : α → Prog φ ε σ β) (g : β → Prog φ ε σ γ) :
    x >>= f >>= g = x >>= fun a => f a >>= g := by
  funext s
  rw [bind_apply, bind_apply, bind_apply]
  rcases x s with _ | ⟨_ | a, s'⟩ <;> rfl

/-- `x` does to the part what `y` does. -/
def Shows (l : Part τ σ) (x : Prog φ ε τ α) (y : Prog φ ε σ α) : Prop :=
  ∀ t, (x t).map (fun p => (p.1, l.get p.2)) = y (l.get t)

namespace Shows

variable {l : Part τ σ} {x : Prog φ ε τ α} {y : Prog φ ε σ α}

theorem zoom (y : Prog φ ε σ α) : Shows l (Prog.zoom l y) y := by
  intro t
  unfold Prog.zoom
  cases h : y (l.get t) with
  | error f => simp [Except.map]
  | ok p => simp [Except.map, l.get_set]

theorem pure (a : α) : Shows (φ := φ) (ε := ε) l (Pure.pure a) (Pure.pure a) := fun _ => rfl

theorem fail (e : ε) : Shows (φ := φ) (α := α) l (Prog.fail e) (Prog.fail e) := fun _ => rfl

theorem require (c : Bool) (e : ε) : Shows (φ := φ) l (Prog.require c e) (Prog.require c e) := by
  cases c
  · exact fail e
  · exact pure ()

theorem outcome (r : Except ε α) : Shows (φ := φ) l (Prog.outcome r) (Prog.outcome r) := by
  cases r with
  | error e => exact fail e
  | ok a => exact pure a

theorem bind (h : Shows l x y) {f : α → Prog φ ε τ β} {g : α → Prog φ ε σ β}
    (hf : ∀ a, Shows l (f a) (g a)) : Shows l (x >>= f) (y >>= g) := by
  intro t
  have hx := h t
  rw [bind_apply, bind_apply, ← hx]
  rcases x t with _ | ⟨_ | a, t'⟩
  · rfl
  · rfl
  · exact hf a t'

/-- What is done to the account alone does not show. -/
theorem silent {f : τ → τ} (hf : ∀ t, l.get (f t) = l.get t) (h : Shows l x y) :
    Shows l (Prog.modify f >>= fun _ => x) y := by
  intro t
  have := h (f t)
  rw [hf] at this
  exact this

theorem then_silent {x : Prog φ ε τ Unit} {y : Prog φ ε σ Unit} {f : τ → τ}
    (hf : ∀ t, l.get (f t) = l.get t) (h : Shows l x y) :
    Shows l (x >>= fun _ => Prog.modify f) y := by
  have hy : y = y >>= fun _ => Pure.pure () := by
    funext s
    rcases h : y s with _ | ⟨_ | a, s'⟩ <;> simp only [Bind.bind, h] <;> rfl
  have hpure : Shows (φ := φ) (ε := ε) l (Prog.modify f) (Pure.pure ()) := by
    intro t
    simp only [Prog.modify, Except.map, hf]
    rfl
  rw [hy]
  exact h.bind fun _ => hpure

theorem ite {c : Prop} [Decidable c] {x' : Prog φ ε τ α} {y' : Prog φ ε σ α} (h : Shows l x y)
    (h' : Shows l x' y') : Shows l (if c then x else x') (if c then y else y') := by
  split
  · exact h
  · exact h'

theorem onError {f : τ → τ} {g : σ → σ} (hf : ∀ t, l.get (f t) = g (l.get t)) (h : Shows l x y) :
    Shows l (Prog.onError f x) (Prog.onError g y) := by
  intro t
  have hx := h t
  unfold Prog.onError
  rw [← hx]
  rcases x t with _ | ⟨_ | a, t'⟩
  · rfl
  · simp only [Except.map, hf]
  · rfl

/-- Errors are given back with the account settled. -/
theorem onError_silent {f : τ → τ} (hf : ∀ t, l.get (f t) = l.get t) (h : Shows l x y) :
    Shows l (Prog.onError f x) y := by
  intro t
  have hx := h t
  unfold Prog.onError
  rw [← hx]
  rcases x t with _ | ⟨_ | a, t'⟩
  · rfl
  · simp only [Except.map, hf]
  · rfl

theorem ensuring {fini : Prog φ ε τ Unit} {fini' : Prog φ ε σ Unit} (h : Shows l x y)
    (hfini : Shows l fini fini') : Shows l (Prog.ensuring x fini) (Prog.ensuring y fini') := by
  intro t
  have hx := h t
  unfold Prog.ensuring
  rw [← hx]
  rcases x t with _ | ⟨r, t'⟩
  · rfl
  · have hf := hfini t'
    simp only [Except.map] at hf ⊢
    rw [← hf]
    cases fini t' <;> rfl

theorem ensuring_silent {f : τ → τ} (hf : ∀ t, l.get (f t) = l.get t) (h : Shows l x y) :
    Shows l (Prog.ensuring x (Prog.modify f)) y := by
  intro t
  have hx := h t
  unfold Prog.ensuring
  rw [← hx]
  rcases x t with _ | ⟨r, t'⟩
  · rfl
  · simp only [Except.map, Prog.modify, hf]

/-- What holds of the computation on the part. -/
theorem wp {F : Prop} (h : Shows l x y) {Q : Except ε α → σ → Prop} {t : τ}
    (hy : Prog.wp F y Q (l.get t)) : Prog.wp F x (fun r t' => Q r (l.get t')) t := by
  have hx := h t
  unfold Prog.wp at hy ⊢
  rw [← hx] at hy
  cases hxt : x t with
  | error f =>
    rw [hxt] at hy
    exact hy
  | ok p =>
    rw [hxt] at hy
    exact hy

end Shows

end Prog
