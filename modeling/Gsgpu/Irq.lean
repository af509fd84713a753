import Gsgpu.Basic
import Gsgpu.Lib.Run

/-! Interrupt sources of the driver: each type of a source has a count of users, changed without a
lock, and a state in the hardware, programmed under `irq.lock` from the count read there. -/
namespace Gsgpu.Irq

/-- `enum gsgpu_interrupt_state`. -/
inductive IrqState
  | disable
  | enable
deriving DecidableEq

/-- `struct gsgpu_irq_src`; `set` tells that `funcs->set` is there. -/
structure IrqSrc where
  numTypes : ℕ
  enabledTypes : Option (ℕ → BitVec 32)
  set : Bool

/-- The sources with the calls under way. `table` are the registered sources in the order of the
client and source ids, `hw` is what was programmed last. `updates` are the sources and types that
some `gsgpu_irq_get` or `gsgpu_irq_put` is about to call `gsgpu_irq_update` for, and `resume` those
that `gsgpu_irq_gpu_reset_resume_helper` has still to go through. Remembered here only: how many
calls of `gsgpu_irq_get` have no `gsgpu_irq_put` yet. -/
structure State where
  irqEnabled : Bool
  src : ℕ → IrqSrc
  table : List ℕ
  hw : ℕ × ℕ → IrqState
  updates : List (ℕ × ℕ)
  resume : Option (List (ℕ × ℕ))
  gets : ℕ × ℕ → ℕ

/-- The checks that `gsgpu_irq_get`, `gsgpu_irq_put` and `gsgpu_irq_enabled` share, up to the
counters of the source. -/
def State.counters (s : State) (src type : ℕ) : Except Errno (ℕ → BitVec 32) :=
  if !s.irqEnabled then .error .enoent
  else if (s.src src).numTypes ≤ type then .error .einval
  else match (s.src src).enabledTypes, (s.src src).set with
    | some types, true => .ok types
    | _, _ => .error .einval

/-- `gsgpu_irq_enabled`. -/
def State.irqIsEnabled (s : State) (src type : ℕ) : Bool :=
  match s.counters src type with
  | .ok types => types type != 0
  | .error _ => false

def State.setCount (s : State) (src : ℕ) (types : ℕ → BitVec 32) (type : ℕ) (n : BitVec 32) :
    State :=
  { s with
    src := Function.update s.src src
      { s.src src with enabledTypes := some (Function.update types type n) } }

/-- The body of `gsgpu_irq_update` under the lock. -/
def State.irqUpdate (s : State) (x : ℕ × ℕ) : State :=
  { s with
    hw := Function.update s.hw x (if s.irqIsEnabled x.1 x.2 then .enable else .disable) }

/-- `gsgpu_irq_get` up to its `gsgpu_irq_update`. -/
def State.irqGet (s : State) (src type : ℕ) : Except Errno State := do
  let types ← s.counters src type
  let n := types type + 1
  let s' := s.setCount src types type n
  return { s' with
    updates := if n = 1 then (src, type) :: s.updates else s.updates
    gets := Function.update s.gets (src, type) (s.gets (src, type) + 1) }

/-- `gsgpu_irq_put` up to its `gsgpu_irq_update`. -/
def State.irqPut (s : State) (src type : ℕ) : Except Errno State := do
  let types ← s.counters src type
  let n := types type - 1
  let s' := s.setCount src types type n
  return { s' with
    updates := if n = 0 then (src, type) :: s.updates else s.updates
    gets := Function.update s.gets (src, type) (s.gets (src, type) - 1) }

/-- The loops of `gsgpu_irq_gpu_reset_resume_helper`. -/
def State.walk (s : State) : List (ℕ × ℕ) :=
  s.table.flatMap fun src => (List.range (s.src src).numTypes).map fun type => (src, type)

inductive Event
  | get (src type : ℕ)
  | put (src type : ℕ)
  | update (x : ℕ × ℕ)
  | reset (hw : ℕ × ℕ → IrqState)
  | resume

/-- A put follows a get that it matches. A reset leaves anything in the hardware, and from then on
the helper is to come; a failed call changes nothing. -/
def State.step (s : State) : Event → Option State
  | .get src type =>
    match s.irqGet src type with
    | .ok s' => some s'
    | .error _ => some s
  | .put src type =>
    if s.gets (src, type) = 0 then none
    else match s.irqPut src type with
      | .ok s' => some s'
      | .error _ => some s
  | .update x =>
    if x ∈ s.updates then some { s.irqUpdate x with updates := s.updates.erase x } else none
  | .reset hw =>
    match s.resume with
    | none => some { s with hw := hw, resume := some s.walk }
    | some _ => none
  | .resume =>
    match s.resume with
    | some (x :: xs) => some { s.irqUpdate x with resume := some xs }
    | some [] => some { s with resume := none }
    | none => none

/-- Interrupts are enabled and none is in use. Counters are there for registered sources only:
`gsgpu_irq_add_id` allocates them. -/
structure State.Init (s : State) : Prop where
  irqEnabled : s.irqEnabled
  counts : ∀ src types, (s.src src).enabledTypes = some types → src ∈ s.table ∧ ∀ k, types k = 0
  hw : ∀ x, s.hw x = .disable
  updates : s.updates = []
  resume : s.resume = none
  gets : ∀ x, s.gets x = 0

def State.Reachable (good : State → Event → Prop) (s : State) : Prop :=
  Transition.Reach State.Init (fun s e s' => s.step e = some s') good s

/-- Without a call under way, the hardware has the type enabled exactly when its count is
positive. -/
def State.Follows (s : State) : Prop :=
  s.updates = [] → s.resume = none → ∀ src type types, s.counters src type = .ok types →
    (s.hw (src, type) = .enable ↔ 0 < (types type).toInt)

/-- There is room for the user in the counter. -/
def Event.Fits (s : State) : Event → Prop
  | .get src type => s.gets (src, type) + 1 < 2 ^ 31
  | _ => True

variable {s s' : State} {src type : ℕ} {types : ℕ → BitVec 32}

theorem counters_eq_ok : s.counters src type = .ok types ↔
    s.irqEnabled ∧ type < (s.src src).numTypes ∧ (s.src src).enabledTypes = some types ∧
      (s.src src).set := by
  simp only [State.counters]
  split
  case isTrue h => simp_all
  case isFalse h =>
    split
    case isTrue ht => simp [Nat.not_lt.mpr ht]
    case isFalse ht =>
      split
      case h_1 types' he hset => simp_all
      case h_2 hno =>
        simp only [reduceCtorEq, false_iff, not_and]
        exact fun _ _ he hset => hno types he hset

/-- What the hardware should have for a count. -/
def wanted (n : BitVec 32) : IrqState := if n ≠ 0 then .enable else .disable

/-- Every type that is not programmed as its count asks for waits for an update, and the counters
do not wrap. -/
structure State.Inv (s : State) : Prop where
  table : ∀ src types, (s.src src).enabledTypes = some types → src ∈ s.table
  count : ∀ src types, (s.src src).enabledTypes = some types →
    ∀ k, types k = BitVec.ofNat 32 (s.gets (src, k))
  fits : ∀ x, s.gets x < 2 ^ 31
  hw : ∀ src type types, s.counters src type = .ok types →
    s.hw (src, type) = wanted (types type) ∨ (src, type) ∈ s.updates ∨
      ∃ xs, s.resume = some xs ∧ (src, type) ∈ xs

theorem State.Inv.of_init (h : s.Init) : s.Inv where
  table := fun src types he => (h.counts src types he).1
  count := fun src types he k => by
    rw [(h.counts src types he).2 k, h.gets]
    rfl
  fits := fun x => by rw [h.gets]; omega
  hw := by
    intro src type types hc
    have := (h.counts src types (counters_eq_ok.mp hc).2.2.1).2 type
    exact .inl (by simp [h.hw, wanted, this])

theorem State.Inv.follows (h : s.Inv) : s.Follows := by
  intro hu hr src type types hc
  have hn := h.count src types (counters_eq_ok.mp hc).2.2.1 type
  have hfits := h.fits (src, type)
  have hint : (types type).toInt = s.gets (src, type) := by
    rw [hn, BitVec.toInt_eq_toNat_of_lt (by simp; omega), BitVec.toNat_ofNat]
    congr 1
    omega
  have hzero : types type = 0 ↔ s.gets (src, type) = 0 := by
    rw [hn, ← BitVec.toNat_inj]
    simp
    omega
  have hhw : s.hw (src, type) = wanted (types type) := by
    simpa [hu, hr] using h.hw src type types hc
  rw [hhw, hint, wanted]
  by_cases h0 : types type = 0
  · simp [h0, hzero.mp h0]
  · simp only [ne_eq, h0, not_false_eq_true, if_true, true_iff]
    have := mt hzero.mpr h0
    omega

/-- The counter of one type and the calls before the lock change together. -/
theorem State.Inv.setCount (h : s.Inv) (hc : s.counters src type = .ok types) {n : BitVec 32}
    {g : ℕ} (hn : n = BitVec.ofNat 32 g) (hg : g < 2 ^ 31) {us : List (ℕ × ℕ)}
    (hsub : ∀ x ∈ s.updates, x ∈ us)
    (hus : wanted n = wanted (types type) ∨ (src, type) ∈ us) :
    State.Inv { s.setCount src types type n with
      updates := us
      gets := Function.update s.gets (src, type) g } := by
  obtain ⟨hen, ht, htypes, hset⟩ := counters_eq_ok.mp hc
  refine ⟨fun src' types' he => ?_, fun src' types' he k => ?_, fun x => ?_,
    fun src' type' types' hc' => ?_⟩
  · by_cases hs : src' = src
    · exact hs ▸ h.table src types htypes
    · exact h.table src' types' (by simpa [State.setCount, hs] using he)
  · by_cases hs : src' = src
    · subst hs
      simp only [State.setCount, Function.update_self, Option.some.injEq] at he
      subst he
      by_cases hk : k = type
      · subst hk
        simpa using hn
      · simpa [hk] using h.count src' types htypes k
    · have := h.count src' types' (by simpa [State.setCount, hs] using he) k
      simpa [hs] using this
  · by_cases hx : x = (src, type)
    · simpa [hx] using hg
    · simpa [hx] using h.fits x
  · obtain ⟨hen', ht', he', hset'⟩ := counters_eq_ok.mp hc'
    have hold : ∀ types₀, s.counters src' type' = .ok types₀ →
        wanted (types' type') = wanted (types₀ type') →
        s.hw (src', type') = wanted (types' type') ∨ (src', type') ∈ us ∨
          ∃ xs, s.resume = some xs ∧ (src', type') ∈ xs := by
      intro types₀ hc₀ hw
      rcases h.hw src' type' types₀ hc₀ with h₁ | h₁ | h₁
      · exact .inl (h₁.trans hw.symm)
      · exact .inr (.inl (hsub _ h₁))
      · exact .inr (.inr h₁)
    by_cases hs : src' = src
    · subst hs
      simp only [State.setCount, Function.update_self, Option.some.injEq] at he' ht' hset'
      subst he'
      have hc₀ : s.counters src' type' = .ok types := counters_eq_ok.mpr ⟨hen, ht', htypes, hset⟩
      by_cases hk : type' = type
      · subst hk
        rcases hus with hus | hus
        · exact hold types hc₀ (by simpa using hus)
        · exact .inr (.inl hus)
      · exact hold types hc₀ (by simp [hk])
    · simp only [State.setCount, Function.update_apply, hs, if_false] at he' ht' hset'
      exact hold types' (counters_eq_ok.mpr ⟨hen, ht', he', hset'⟩) rfl

theorem State.Inv.irqGet (h : s.Inv) (hfits : s.gets (src, type) + 1 < 2 ^ 31)
    (hs : s.irqGet src type = .ok s') : s'.Inv := by
  simp only [State.irqGet] at hs
  cases hc : s.counters src type with
  | error e => simp [hc] at hs
  | ok types =>
    have hn := h.count src types (counters_eq_ok.mp hc).2.2.1 type
    simp only [hc] at hs
    cases hs
    refine h.setCount hc ?_ hfits ?_ ?_
    · rw [hn, BitVec.ofNat_add]
      rfl
    · intro x hx
      split
      · exact List.mem_cons_of_mem _ hx
      · exact hx
    · -- from zero the call updates, and from elsewhere the type stays enabled
      split
      case isTrue => simp
      case isFalse h1 =>
        have h0 : types type ≠ 0 := fun h0 => h1 (by simp [h0])
        have h2 : types type + 1 ≠ 0 := by
          intro h2
          rw [hn, ← BitVec.toNat_inj] at h2
          simp at h2
          omega
        exact .inl (by rw [wanted, wanted, if_pos h2, if_pos h0])

theorem State.Inv.irqPut (h : s.Inv) (hgets : s.gets (src, type) ≠ 0)
    (hs : s.irqPut src type = .ok s') : s'.Inv := by
  simp only [State.irqPut] at hs
  cases hc : s.counters src type with
  | error e => simp [hc] at hs
  | ok types =>
    have hn := h.count src types (counters_eq_ok.mp hc).2.2.1 type
    have hfits := h.fits (src, type)
    simp only [hc] at hs
    cases hs
    refine h.setCount hc ?_ (by omega) ?_ ?_
    · rw [hn]
      obtain ⟨g, hg⟩ := Nat.exists_eq_succ_of_ne_zero hgets
      rw [hg, Nat.succ_eq_add_one, BitVec.ofNat_add]
      exact BitVec.add_sub_cancel _ _
    · intro x hx
      split
      · exact List.mem_cons_of_mem _ hx
      · exact hx
    · split
      case isTrue => simp
      case isFalse h1 =>
        have h0 : types type ≠ 0 := by
          intro h0
          rw [hn, ← BitVec.toNat_inj] at h0
          simp at h0
          omega
        exact .inl (by rw [wanted, wanted, if_pos h1, if_pos h0])

theorem irqIsEnabled_of_counters (hc : s.counters src type = .ok types) :
    s.irqIsEnabled src type = (types type != 0) := by
  simp only [State.irqIsEnabled, hc]

/-- After an update a type is as its count asks for, and the others are as before. -/
theorem hw_irqUpdate (x : ℕ × ℕ) (hc : s.counters src type = .ok types)
    (hne : (src, type) ≠ x → s.hw (src, type) = wanted (types type)) :
    (s.irqUpdate x).hw (src, type) = wanted (types type) := by
  by_cases hx : (src, type) = x
  · subst hx
    simp [State.irqUpdate, irqIsEnabled_of_counters hc, wanted]
  · simpa [State.irqUpdate, hx] using hne hx

theorem mem_walk (h : s.Inv) (hc : s.counters src type = .ok types) : (src, type) ∈ s.walk := by
  obtain ⟨-, ht, he, -⟩ := counters_eq_ok.mp hc
  simp only [State.walk, List.mem_flatMap, List.mem_map, List.mem_range]
  exact ⟨src, h.table src types he, type, ht, rfl⟩

theorem State.Inv.step (h : s.Inv) {e : Event} (hg : e.Fits s) (hs : s.step e = some s') :
    s'.Inv := by
  cases e with
  | get src type =>
    simp only [State.step] at hs
    split at hs
    case h_1 s₁ h₁ =>
      cases hs
      exact h.irqGet hg h₁
    case h_2 =>
      cases hs
      exact h
  | put src type =>
    simp only [State.step] at hs
    split at hs
    case isTrue => cases hs
    case isFalse h0 =>
      split at hs
      case h_1 s₁ h₁ =>
        cases hs
        exact h.irqPut h0 h₁
      case h_2 =>
        cases hs
        exact h
  | update x =>
    simp only [State.step] at hs
    split at hs
    case isFalse => cases hs
    case isTrue hx =>
      cases hs
      refine ⟨h.table, h.count, h.fits, fun src type types hc => ?_⟩
      by_cases heq : (src, type) = x
      · exact .inl (hw_irqUpdate x hc fun hne => absurd heq hne)
      · rcases h.hw src type types hc with h₁ | h₁ | h₁
        · exact .inl (hw_irqUpdate x hc fun _ => h₁)
        · exact .inr (.inl ((List.mem_erase_of_ne heq).mpr h₁))
        · exact .inr (.inr h₁)
  | reset hw =>
    simp only [State.step] at hs
    split at hs
    case h_2 => cases hs
    case h_1 =>
      cases hs
      refine ⟨h.table, h.count, h.fits, fun src type types hc => ?_⟩
      exact .inr (.inr ⟨_, rfl, mem_walk h hc⟩)
  | resume =>
    simp only [State.step] at hs
    split at hs
    case h_3 => cases hs
    case h_1 x xs hr =>
      cases hs
      refine ⟨h.table, h.count, h.fits, fun src type types hc => ?_⟩
      by_cases heq : (src, type) = x
      · exact .inl (hw_irqUpdate x hc fun hne => absurd heq hne)
      · rcases h.hw src type types hc with h₁ | h₁ | ⟨ys, hys, h₁⟩
        · exact .inl (hw_irqUpdate x hc fun _ => h₁)
        · exact .inr (.inl h₁)
        · cases hr.symm.trans hys
          exact .inr (.inr ⟨xs, rfl, (List.mem_cons.mp h₁).resolve_left heq⟩)
    case h_2 hr =>
      cases hs
      refine ⟨h.table, h.count, h.fits, fun src type types hc => ?_⟩
      rcases h.hw src type types hc with h₁ | h₁ | ⟨ys, hys, h₁⟩
      · exact .inl h₁
      · exact .inr (.inl h₁)
      · cases hr.symm.trans hys
        cases h₁

/-- In every run with fewer than 2^31 users of a type at a time, the hardware follows the count. -/
theorem irq_state_follows_count (h : State.Reachable (fun s e => e.Fits s) s) : s.Follows := by
  have : s.Inv := by
    refine Transition.Reach.invariant ?_ ?_ h
    · exact fun _ hi => .of_init hi
    · exact fun _ _ _ h hg hs => h.step hg hs
  exact this.follows

/-- One registered source with one type. -/
def oneSource : State where
  irqEnabled := true
  src := fun i => if i = 0 then ⟨1, some fun _ => 0, true⟩ else ⟨0, none, false⟩
  table := [0]
  hw := fun _ => .disable
  updates := []
  resume := none
  gets := fun _ => 0

theorem oneSource_init : oneSource.Init where
  irqEnabled := rfl
  counts := by
    intro src types he
    by_cases hs : src = 0
    · subst hs
      cases he
      exact ⟨by simp [oneSource], fun _ => rfl⟩
    · simp [oneSource, hs] at he
  hw := fun _ => rfl
  updates := rfl
  resume := rfl
  gets := fun _ => rfl

/-- Two callers: the put of the first comes between the get of the second and the update for it. -/
theorem irq_state_follows_count_crossed :
    ∃ s, State.Reachable (fun s e => e.Fits s) s ∧ s.hw (0, 0) = .enable ∧ s.Follows := by
  have hrun : ∃ s, State.Reachable (fun s e => e.Fits s) s ∧ s.hw (0, 0) = .enable :=
    ⟨_, .next (e := .update (0, 0)) (.next (e := .update (0, 0)) (.next (e := .update (0, 0))
      (.next (e := .get 0 0) (.next (e := .put 0 0) (.next (e := .get 0 0)
      (.start oneSource_init) (show 0 + 1 < 2 ^ 31 by decide) rfl) trivial rfl)
      (show 0 + 1 < 2 ^ 31 by decide) rfl) trivial rfl)
      trivial rfl) trivial rfl, rfl⟩
  obtain ⟨s, hs, hhw⟩ := hrun
  exact ⟨s, hs, hhw, irq_state_follows_count hs⟩

/-- After some users, and without a call under way. -/
private theorem reachable_gets (n : ℕ) (hn : n < 2 ^ 31) :
    ∃ s types, State.Reachable (fun _ _ => True) s ∧ s.updates = [] ∧ s.resume = none ∧
      s.counters 0 0 = .ok types ∧ types 0 = BitVec.ofNat 32 (n + 1) ∧
      s.hw (0, 0) = .enable := by
  induction n with
  | zero =>
    exact ⟨_, _, .next (e := .update (0, 0)) (.next (e := .get 0 0) (.start oneSource_init)
      trivial rfl) trivial rfl, rfl, rfl, rfl, rfl, rfl⟩
  | succ n ih =>
    obtain ⟨s, types, hs, hu, hr, hc, htypes, hhw⟩ := ih (by omega)
    have hne : ¬ types 0 + 1 = 1 := by
      intro h
      rw [htypes, ← BitVec.toNat_inj] at h
      simp at h
      omega
    obtain ⟨hen, ht, he, hset⟩ := counters_eq_ok.mp hc
    have hstep : s.step (.get 0 0) = some { s.setCount 0 types 0 (types 0 + 1) with
        updates := if types 0 + 1 = 1 then (0, 0) :: s.updates else s.updates
        gets := Function.update s.gets (0, 0) (s.gets (0, 0) + 1) } := by
      simp only [State.step, State.irqGet, hc]
      rfl
    refine ⟨_, Function.update types 0 (types 0 + 1), .next hs trivial hstep, ?_, hr, ?_, ?_, hhw⟩
    · simp only [hne, if_false, hu]
    · exact counters_eq_ok.mpr ⟨hen, by simpa [State.setCount] using ht, by simp [State.setCount],
        by simpa [State.setCount] using hset⟩
    · rw [Function.update_self, htypes, BitVec.ofNat_add (n + 1) 1]
      rfl

/-- With 2^31 users the count is negative, and the type still enabled. -/
theorem irq_state_ignores_negative_count :
    ¬ ∀ s, State.Reachable (fun _ _ => True) s → s.Follows := by
  intro h
  obtain ⟨s, types, hs, hu, hr, hc, htypes, hhw⟩ := reachable_gets (2 ^ 31 - 1) (by decide)
  have := (h s hs hu hr 0 0 types hc).mp hhw
  rw [htypes] at this
  revert this
  decide

end Gsgpu.Irq
