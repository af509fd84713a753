import Mathlib.Logic.Basic
import Mathlib.Data.Nat.Notation

/-! Imperative code over a state, with error returns and faults. A function of C code leaves the
state as it is when it returns an error, so a caller can clean up; a fault is an access the code
has no right to make, after which nothing is promised. `wp` gives the rules of pre- and
postconditions. -/

/-- A computation over `σ` that returns a value or an error `ε`, or faults with `φ`. -/
def Prog (φ ε σ α : Type) : Type := σ → Except φ (Except ε α × σ)

namespace Prog

variable {φ ε σ α β : Type}

instance : Monad (Prog φ ε σ) where
  pure a := fun s => .ok (.ok a, s)
  bind x f := fun s =>
    match x s with
    | .error e => .error e
    | .ok (.error e, s') => .ok (.error e, s')
    | .ok (.ok a, s') => f a s'

theorem bind_apply (x : Prog φ ε σ β) (f : β → Prog φ ε σ α) (s : σ) :
    (x >>= f) s = match x s with
      | .error e => .error e
      | .ok (.error e, s') => .ok (.error e, s')
      | .ok (.ok a, s') => f a s' := rfl

/-- Return an error. -/
def fail (e : ε) : Prog φ ε σ α := fun s => .ok (.error e, s)

/-- An access the code has no right to make. -/
def fault (f : φ) : Prog φ ε σ α := fun _ => .error f

/-- Read from the state. -/
def gets (f : σ → α) : Prog φ ε σ α := fun s => .ok (.ok (f s), s)

/-- Change the state. -/
def modify (f : σ → σ) : Prog φ ε σ Unit := fun s => .ok (.ok (), f s)

/-- Return the error of an outcome, or go on with its value. -/
def outcome : Except ε α → Prog φ ε σ α
  | .error e => fail e
  | .ok a => pure a

/-- Return an error unless the condition holds. -/
def require (c : Bool) (e : ε) : Prog φ ε σ Unit := if c then pure () else fail e

/-- Dereference a pointer that may be absent. -/
def deref (f : φ) : Option α → Prog φ ε σ α
  | none => fault f
  | some a => pure a

/-- Undo part of the state when an error is returned. -/
def onError (f : σ → σ) (x : Prog φ ε σ α) : Prog φ ε σ α := fun s =>
  match x s with
  | .error e => .error e
  | .ok (.error e, s') => .ok (.error e, f s')
  | .ok (.ok a, s') => .ok (.ok a, s')

/-- Run the cleanup whatever `x` returns, and return that. -/
def ensuring (x : Prog φ ε σ α) (fini : Prog φ ε σ Unit) : Prog φ ε σ α := fun s =>
  match x s with
  | .error e => .error e
  | .ok (r, s') =>
    match fini s' with
    | .error e => .error e
    | .ok (_, s'') => .ok (r, s'')

/-- Run into the postcondition; `F` is what holds of a fault. `wp False` asks for a run without
one, `wp True` is about the runs that come to their end. -/
def wp (F : Prop) (x : Prog φ ε σ α) (Q : Except ε α → σ → Prop) (s : σ) : Prop :=
  match x s with
  | .error _ => F
  | .ok (r, s') => Q r s'

section Rules
variable {F : Prop} {Q : Except ε α → σ → Prop} {s : σ}

@[simp] theorem wp_pure (a : α) : wp F (pure a : Prog φ ε σ α) Q s = Q (.ok a) s := rfl

@[simp] theorem wp_fail (e : ε) : wp F (fail e : Prog φ ε σ α) Q s = Q (.error e) s := rfl

@[simp] theorem wp_fault (f : φ) : wp F (fault f : Prog φ ε σ α) Q s = F := rfl

@[simp] theorem wp_gets (f : σ → α) : wp F (gets f : Prog φ ε σ α) Q s = Q (.ok (f s)) s := rfl

@[simp] theorem wp_modify (f : σ → σ) {Q : Except ε Unit → σ → Prop} :
    wp F (modify f : Prog φ ε σ Unit) Q s = Q (.ok ()) (f s) := rfl

@[simp] theorem wp_bind (x : Prog φ ε σ β) (f : β → Prog φ ε σ α) :
    wp F (x >>= f) Q s = wp F x (fun r s' => match r with
      | .error e => Q (.error e) s'
      | .ok b => wp F (f b) Q s') s := by
  unfold wp
  rw [bind_apply]
  cases x s with
  | error e => rfl
  | ok p =>
    obtain ⟨r, s'⟩ := p
    cases r with
    | error e => rfl
    | ok b => rfl

theorem wp_ite {c : Prop} [Decidable c] {x y : Prog φ ε σ α} :
    wp F (if c then x else y) Q s = if c then wp F x Q s else wp F y Q s := by
  split <;> rfl

@[simp] theorem wp_outcome (r : Except ε α) : wp F (outcome r : Prog φ ε σ α) Q s = Q r s := by
  cases r <;> rfl

@[simp] theorem wp_require (c : Bool) (e : ε) {Q : Except ε Unit → σ → Prop} :
    wp F (require c e : Prog φ ε σ Unit) Q s =
      ((c = true → Q (.ok ()) s) ∧ (c = false → Q (.error e) s)) := by
  cases c <;> simp [require]

@[simp] theorem wp_deref_some (f : φ) (a : α) :
    wp F (deref f (some a) : Prog φ ε σ α) Q s = Q (.ok a) s := rfl

@[simp] theorem wp_deref_none (f : φ) :
    wp F (deref f (none : Option α) : Prog φ ε σ α) Q s = F := rfl

theorem wp_deref_of {f : φ} {o : Option α} {a : α} (h : o = some a) (hQ : Q (.ok a) s) :
    wp F (deref f o : Prog φ ε σ α) Q s := by
  rw [h]
  exact hQ

/-- A dereference whose fault is allowed for. -/
theorem wp_deref_allowed {f : φ} {o : Option α} {Q : Except ε α → σ → Prop} {s : σ}
    (h : ∀ a, o = some a → Q (.ok a) s) : wp True (deref f o : Prog φ ε σ α) Q s := by
  cases o with
  | none => trivial
  | some a => exact h a rfl

@[simp] theorem wp_onError (f : σ → σ) (x : Prog φ ε σ α) :
    wp F (onError f x) Q s = wp F x (fun r s' => match r with
      | .error e => Q (.error e) (f s')
      | .ok a => Q (.ok a) s') s := by
  unfold wp onError
  cases x s with
  | error e => rfl
  | ok p =>
    obtain ⟨r, s'⟩ := p
    cases r <;> rfl

@[simp] theorem wp_ensuring (x : Prog φ ε σ α) (fini : Prog φ ε σ Unit) :
    wp F (ensuring x fini) Q s = wp F x (fun r s' => wp F fini (fun _ s'' => Q r s'') s') s := by
  unfold wp ensuring
  cases x s with
  | error e => rfl
  | ok p =>
    obtain ⟨r, s'⟩ := p
    dsimp only
    cases fini s' <;> rfl

/-- The consequence rule. -/
theorem wp_mono {x : Prog φ ε σ α} {Q' : Except ε α → σ → Prop} (h : wp F x Q s)
    (hQ : ∀ r s', Q r s' → Q' r s') : wp F x Q' s := by
  unfold wp at h ⊢
  cases hx : x s with
  | error e => rw [hx] at h; exact h
  | ok p => rw [hx] at h; exact hQ _ _ h

/-- What holds of every state holds of every end. -/
theorem wp_of_forall {x : Prog φ ε σ α} (h : ∀ r s', Q r s') : wp True x Q s := by
  unfold wp
  cases x s with
  | error e => trivial
  | ok p => exact h _ _

/-- Two facts about one computation hold of its one result. -/
theorem wp_and {x : Prog φ ε σ α} {Q' : Except ε α → σ → Prop} (h : wp F x Q s)
    (h' : wp F x Q' s) : wp F x (fun r s' => Q r s' ∧ Q' r s') s := by
  unfold wp at h h' ⊢
  cases hx : x s with
  | error e => rw [hx] at h; exact h
  | ok p => rw [hx] at h h'; exact ⟨h, h'⟩

/-- A loop over a list keeps what every turn keeps. -/
theorem wp_forM_invariant {I : σ → Prop} {f : β → Prog φ ε σ Unit} {l : List β} (hs : I s)
    (hf : ∀ b ∈ l, ∀ t, I t → wp F (f b) (fun _ t' => I t') t) :
    wp F (l.forM f) (fun _ t' => I t') s := by
  induction l generalizing s with
  | nil => exact hs
  | cons b l ih =>
    show wp F (f b >>= fun _ => l.forM f) _ s
    rw [wp_bind]
    apply wp_mono (hf b (by simp) s hs)
    intro r t ht
    cases r with
    | error e => exact ht
    | ok u => exact ih ht fun b' hb' => hf b' (by simp [hb'])

/-- A loop whose turns all return 0. -/
theorem wp_forM_ok {I : σ → Prop} {f : β → Prog φ ε σ Unit} {l : List β} (hs : I s)
    (hf : ∀ b ∈ l, ∀ t, I t → wp F (f b) (fun r t' => r = .ok () ∧ I t') t) :
    wp F (l.forM f) (fun r t' => r = .ok () ∧ I t') s := by
  induction l generalizing s with
  | nil => exact ⟨rfl, hs⟩
  | cons b l ih =>
    show wp F (f b >>= fun _ => l.forM f) _ s
    rw [wp_bind]
    apply wp_mono (hf b (by simp) s hs)
    intro r t h
    rw [h.1]
    exact ih h.2 fun b' hb' => hf b' (by simp [hb'])

/-- A loop whose turns each establish their own fact, which the later turns keep. `R` is what a
turn may change. -/
theorem wp_forM_each {R : σ → σ → Prop} {P : β → σ → Prop} {f : β → Prog φ ε σ Unit} {l : List β}
    (hr : ∀ t, R t t) (ht : ∀ t t' t'', R t t' → R t' t'' → R t t'')
    (hP : ∀ b t t', R t t' → P b t → P b t')
    (hf : ∀ b ∈ l, ∀ t, R s t → wp F (f b) (fun r t' => R t t' ∧ (r = .ok () → P b t')) t) :
    wp F (l.forM f) (fun r t' => R s t' ∧ (r = .ok () → ∀ b ∈ l, P b t')) s := by
  induction l generalizing s with
  | nil => exact ⟨hr s, by simp⟩
  | cons b l ih =>
    show wp F (f b >>= fun _ => l.forM f) _ s
    rw [wp_bind]
    apply wp_mono (hf b (by simp) s (hr s))
    intro r t h
    cases r with
    | error e => exact ⟨h.1, by simp⟩
    | ok u =>
      apply wp_mono (ih fun b' hb' t' h' => hf b' (by simp [hb']) t' (ht _ _ _ h.1 h'))
      intro r' t' h'
      constructor
      · exact ht _ _ _ h.1 h'.1
      · intro hok b' hb'
        cases List.mem_cons.mp hb' with
        | inl heq => exact heq ▸ hP b t t' h'.1 (h.2 rfl)
        | inr hmem => exact h'.2 hok b' hmem

/-- A loop whose turns all return 0, and each establish their own fact. -/
theorem wp_forM_all {R : σ → σ → Prop} {P : β → σ → Prop} {f : β → Prog φ ε σ Unit} {l : List β}
    (hr : ∀ t, R t t) (ht : ∀ t t' t'', R t t' → R t' t'' → R t t'')
    (hP : ∀ b t t', R t t' → P b t → P b t')
    (hf : ∀ b ∈ l, ∀ t, R s t → wp F (f b) (fun r t' => r = .ok () ∧ R t t' ∧ P b t') t) :
    wp F (l.forM f) (fun r t' => r = .ok () ∧ R s t' ∧ ∀ b ∈ l, P b t') s := by
  have hok : wp F (l.forM f) (fun r t' => r = .ok () ∧ R s t') s := by
    apply wp_forM_ok (hr s)
    intro b hb t h
    apply wp_mono (hf b hb t h)
    exact fun r t' h' => ⟨h'.1, ht _ _ _ h h'.2.1⟩
  have heach := wp_forM_each (l := l) hr ht hP fun b hb t h =>
    wp_mono (hf b hb t h) fun r t' h' => ⟨h'.2.1, fun _ => h'.2.2⟩
  apply wp_mono (wp_and hok heach)
  exact fun r t' h => ⟨h.1.1, h.1.2, h.2.2 h.1.1⟩

/-- A loop over the first numbers that faults in its first turn. -/
theorem forM_range_error {f : ℕ → Prog φ ε σ Unit} {n : ℕ} {e : φ} (hn : 0 < n)
    (h : f 0 s = .error e) : (List.range n).forM f s = .error e := by
  obtain ⟨k, rfl⟩ := Nat.exists_eq_succ_of_ne_zero (Nat.ne_of_gt hn)
  rw [List.range_succ_eq_map]
  show (f 0 >>= fun _ => _) s = _
  rw [bind_apply, h]

/-- A loop that does not fault, does not fault in any of its turns. -/
theorem safe_turns_of_forM {I : σ → Prop} {f : β → Prog φ ε σ Unit} {l : List β}
    (h : wp False (l.forM f) (fun _ _ => True) s) (hs : I s)
    (hI : ∀ b ∈ l, ∀ t, I t → wp True (f b) (fun r t' => r = .ok () ∧ I t') t) :
    ∀ b ∈ l, ∃ t, I t ∧ wp False (f b) (fun _ _ => True) t := by
  induction l generalizing s with
  | nil => simp
  | cons b l ih =>
    have hturn := hI b (by simp) s hs
    change wp False (f b >>= fun _ => l.forM f) _ s at h
    rw [wp_bind] at h
    unfold wp at h hturn
    cases hb : f b s with
    | error e => simp [hb] at h
    | ok p =>
      obtain ⟨r, t⟩ := p
      rw [hb] at h hturn
      obtain ⟨hr, ht⟩ := hturn
      rw [hr] at h
      intro b' hb'
      cases List.mem_cons.mp hb' with
      | inl heq => exact ⟨s, hs, by rw [heq]; unfold wp; rw [hb]; trivial⟩
      | inr hmem => exact ih h ht (fun c hc => hI c (by simp [hc])) b' hmem

theorem exists_of_wp {x : Prog φ ε σ α} (h : wp False x Q s) : ∃ r s', Q r s' := by
  unfold wp at h
  cases hx : x s with
  | error e => rw [hx] at h; exact h.elim
  | ok p => rw [hx] at h; exact ⟨_, _, h⟩

end Rules

/-- The computation runs to its end from `s`: it makes no access it has no right to make. -/
def Safe (x : Prog φ ε σ α) (s : σ) : Prop := wp False x (fun _ _ => True) s

theorem safe_iff {x : Prog φ ε σ α} {s : σ} : Safe x s ↔ ∀ f, x s ≠ .error f := by
  unfold Safe wp
  cases x s with
  | error e => simp
  | ok p => simp

/-- A computation run to a known end. -/
theorem eq_ok_of_wp {x : Prog φ ε σ α} {s s' : σ} {a : α}
    (h : wp False x (fun r t => r = .ok a ∧ t = s') s) : x s = .ok (.ok a, s') := by
  unfold wp at h
  cases hx : x s with
  | error e => rw [hx] at h; exact h.elim
  | ok p =>
    rw [hx] at h
    obtain ⟨r, t⟩ := p
    rw [h.1, h.2]

theorem wp_of_eq_ok {F : Prop} {x : Prog φ ε σ α} {Q : Except ε α → σ → Prop} {s s' : σ} {a : α}
    (h : x s = .ok (.ok a, s')) : wp F x Q s = Q (.ok a) s' := by
  unfold wp
  rw [h]

/-- What every completed run leaves, in a computation that has completed. -/
theorem of_wp {x : Prog φ ε σ α} {Q : Except ε α → σ → Prop} {s s' : σ} {r : Except ε α}
    (h : wp True x Q s) (hx : x s = .ok (r, s')) : Q r s' := by
  unfold wp at h
  rw [hx] at h
  exact h

/-! ### Programs that check more -/

/-- `x` is `y` with checks of its own: it runs like `y` for as long as it does not fault. -/
def Checks (x y : Prog φ ε σ α) : Prop := ∀ s p, x s = .ok p → y s = .ok p

namespace Checks

theorem refl (x : Prog φ ε σ α) : Checks x x := fun _ _ h => h

theorem bind {x y : Prog φ ε σ β} {f g : β → Prog φ ε σ α} (h : Checks x y)
    (hf : ∀ b, Checks (f b) (g b)) : Checks (x >>= f) (y >>= g) := by
  intro s p hp
  rw [bind_apply] at hp ⊢
  cases hx : x s with
  | error e => simp [hx] at hp
  | ok q =>
    rw [h s q hx]
    obtain ⟨r, s'⟩ := q
    rw [hx] at hp
    cases r with
    | error e => exact hp
    | ok b => exact hf b s' p hp

theorem forM {f g : β → Prog φ ε σ Unit} (hf : ∀ b, Checks (f b) (g b)) (l : List β) :
    Checks (l.forM f) (l.forM g) := by
  induction l with
  | nil => exact refl _
  | cons b l ih => exact bind (hf b) fun _ => ih

/-- A check made before a computation. -/
theorem after {x : Prog φ ε σ β} {f : β → Prog φ ε σ α} {b : β} {y : Prog φ ε σ α}
    (hx : ∀ s p, x s = .ok p → p = (.ok b, s)) (hf : Checks (f b) y) : Checks (x >>= f) y := by
  intro s p hp
  rw [bind_apply] at hp
  cases h : x s with
  | error e => simp [h] at hp
  | ok q =>
    rw [h, hx s q h] at hp
    exact hf s p hp

/-- Where the checks hold, both run to the same end. -/
theorem run {x y : Prog φ ε σ α} {Q : Except ε α → σ → Prop} {s : σ} (h : Checks x y)
    (hx : wp False x Q s) : ∃ r s', x s = .ok (r, s') ∧ y s = .ok (r, s') ∧ Q r s' := by
  unfold wp at hx
  cases hp : x s with
  | error e => simp [hp] at hx
  | ok p =>
    rw [hp] at hx
    exact ⟨p.1, p.2, rfl, h s p hp, hx⟩

end Checks

end Prog
