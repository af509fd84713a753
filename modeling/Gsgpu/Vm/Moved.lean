import Gsgpu.Vm.Settled

/-! The reservation locks of `gsgpu_vm_handle_moved`, and what it leaves on the moved list when an
update fails. -/
namespace Gsgpu.Vm

/-- What the loop of `gsgpu_vm_handle_moved` carries: besides the VM, the reservations it has
acquired and not released, and the `bo_va`s it has updated. -/
structure Handling where
  vm : State
  held : List Key
  updated : List Key

section Model
variable (env : UpdateEnv) (debug : Bool) (trylock : Key → Bool)

/-- The loop acquires the reservation of this `bo_va`: the BO is not a per-VM one,
`gsgpu_vm_debug` is off and the reservation is free. -/
def reserves (s : State) (k : Key) : Bool := !s.perVm k && (!debug && trylock k)

/-- The `clear` that the update of a `bo_va` is given. -/
def clears (s : State) (k : Key) : Bool := !s.perVm k && !(!debug && trylock k)

/-- The loop of `gsgpu_vm_handle_moved`, with its locks. -/
def handleMovedLocked : List Key → ℕ → Handling → Option (Result Handling)
  | [], budget, h => some ⟨true, budget, h⟩
  | k :: ks, budget, h =>
    let clear := clears debug trylock h.vm k
    let held := if reserves debug trylock h.vm k then k :: h.held else h.held
    match vmBoUpdate env h.vm k clear budget with
    | none => none
    | some ⟨false, budget, s⟩ =>
      -- the list is spliced back, and the reservation is not looked at
      let s := { s with status := { s.status with moved := (k :: ks) ++ s.status.moved } }
      some ⟨false, budget, s, held, h.updated⟩
    | some ⟨true, budget, s⟩ =>
      let held := if !clear && !s.perVm k then held.erase k else held
      handleMovedLocked ks budget ⟨s, held, k :: h.updated⟩

/-- `gsgpu_vm_handle_moved`, with its locks. -/
def vmHandleMovedLocked (s : State) (budget : ℕ) : Option (Result Handling) :=
  handleMovedLocked env debug trylock s.status.moved budget
    ⟨{ s with status := { s.status with moved := [] } }, [], []⟩

/-- The updates of these `bo_va`s, one after the other, all succeed. -/
inductive Updates : State → ℕ → List Key → State → ℕ → Prop
  | nil (s : State) (budget : ℕ) : Updates s budget [] s budget
  | cons {s s' s'' : State} {k : Key} {ks : List Key} {budget budget' budget'' : ℕ}
      (first : vmBoUpdate env s k (clears debug trylock s k) budget = some ⟨true, budget', s'⟩)
      (rest : Updates s' budget' ks s'' budget'') : Updates s budget (k :: ks) s'' budget''

/-- The update of `k` fails, and those of the `bo_va`s before it on the list succeed. -/
def FailsAt (s : State) (budget : ℕ) (pre : List Key) (k : Key) (s' : State) : Prop :=
  ∃ s₁ budget₁ budget₂, Updates env debug trylock s budget pre s₁ budget₁ ∧
    vmBoUpdate env s₁ k (clears debug trylock s₁ k) budget₁ = some ⟨false, budget₂, s'⟩

end Model

/-- When the call returns, no reservation it acquired is held, and what has not been updated is on
the moved list again. -/
structure AllOrRequeued (s : State) (h : Handling) : Prop where
  released : h.held = []
  requeued : ∀ k ∈ s.status.moved, k ∉ h.updated → k ∈ h.vm.status.moved

section Loop
variable {env : UpdateEnv} {debug : Bool} {trylock : Key → Bool} {s s' : State} {k : Key}
  {ks pre post updated : List Key} {budget : ℕ} {h : Handling} {r : Result Handling}

/-- Without the locks it is the loop of `gsgpu_vm_handle_moved`. -/
theorem handleMovedLocked_vm (ks : List Key) (budget : ℕ) (h : Handling) :
    (handleMovedLocked env debug trylock ks budget h).map
        (fun r => (⟨r.ok, r.budget, r.val.vm⟩ : Result State)) =
      handleMovedLoop env (fun k => !debug && trylock k) ks budget h.vm := by
  induction ks generalizing budget h with
  | nil => rfl
  | cons k ks ih =>
    unfold handleMovedLocked handleMovedLoop clears
    dsimp only
    cases hup : vmBoUpdate env h.vm k (!h.vm.perVm k && !(!debug && trylock k)) budget with
    | none => rfl
    | some r =>
      obtain ⟨ok, budget', s'⟩ := r
      cases ok with
      | false => rfl
      | true => exact ih _ _

theorem perVm_of_bos (hbos : s'.bos = s.bos) (k : Key) : s'.perVm k = s.perVm k := by
  unfold State.perVm
  rw [hbos]

theorem Updates.bos {s'' : State} {budget' : ℕ}
    (h : Updates env debug trylock s budget ks s'' budget') : s''.bos = s.bos := by
  induction h with
  | nil => rfl
  | cons first _ ih =>
    rw [ih]
    exact vmBoUpdate_bos first

/-- A reservation that an update went through with has been released. -/
theorem held_released (hbos : s'.bos = s.bos) :
    (if !clears debug trylock s k && !s'.perVm k then
        (if reserves debug trylock s k then [k] else []).erase k
      else if reserves debug trylock s k then [k] else []) = [] := by
  rw [perVm_of_bos hbos]
  unfold clears reserves
  cases s.perVm k <;> cases debug <;> cases trylock k <;> simp

/-- After updates that succeed the loop holds nothing. -/
theorem handleMovedLocked_append {s₁ : State} {budget₁ : ℕ}
    (hup : Updates env debug trylock s budget pre s₁ budget₁) (post updated : List Key) :
    handleMovedLocked env debug trylock (pre ++ post) budget ⟨s, [], updated⟩ =
      handleMovedLocked env debug trylock post budget₁ ⟨s₁, [], pre.reverse ++ updated⟩ := by
  induction hup generalizing updated with
  | nil => rfl
  | @cons s s' s'' k ks b b' b'' first rest ih =>
    have hstep : handleMovedLocked env debug trylock (k :: ks ++ post) b ⟨s, [], updated⟩ =
        handleMovedLocked env debug trylock (ks ++ post) b' ⟨s', [], k :: updated⟩ := by
      rw [List.cons_append, handleMovedLocked]
      simp only [first, held_released (vmBoUpdate_bos first)]
    rw [hstep, ih]
    simp

/-- The loop either updates the whole list, or the update of one `bo_va` fails. -/
theorem handleMovedLocked_cases
    (hr : handleMovedLocked env debug trylock ks budget ⟨s, [], updated⟩ = some r) :
    (∃ s', Updates env debug trylock s budget ks s' r.budget) ∨
      ∃ pre k post s', ks = pre ++ k :: post ∧ FailsAt env debug trylock s budget pre k s' := by
  induction ks generalizing s budget updated with
  | nil =>
    cases hr
    exact .inl ⟨s, .nil s budget⟩
  | cons k ks ih =>
    unfold handleMovedLocked at hr
    simp only at hr
    cases hup : vmBoUpdate env s k (clears debug trylock s k) budget with
    | none => simp [hup] at hr
    | some u =>
      obtain ⟨ok, budget', s'⟩ := u
      cases ok with
      | false => exact .inr ⟨[], k, ks, s', rfl, ⟨s, budget, budget', .nil s budget, hup⟩⟩
      | true =>
        simp only [hup, held_released (vmBoUpdate_bos hup)] at hr
        rcases ih hr with ⟨s'', hall⟩ | ⟨pre, k', post, s'', rfl, s₁, b₁, b₂, hpre, hfail⟩
        · exact .inl ⟨s'', .cons hup hall⟩
        · exact .inr ⟨k :: pre, k', post, s'', rfl, s₁, b₁, b₂, .cons hup hpre, hfail⟩

/-- What the loop leaves when an update fails. -/
theorem handleMovedLocked_fails (hf : FailsAt env debug trylock s budget pre k s')
    (hr : handleMovedLocked env debug trylock (pre ++ k :: post) budget ⟨s, [], []⟩ = some r) :
    r.val.held = (if reserves debug trylock s k then [k] else []) ∧ r.val.updated = pre.reverse ∧
      r.val.vm.status.moved = (k :: post) ++ s'.status.moved := by
  obtain ⟨s₁, b₁, b₂, hpre, hfail⟩ := hf
  have hper : reserves debug trylock s₁ k = reserves debug trylock s k := by
    unfold reserves
    rw [perVm_of_bos hpre.bos]
  rw [handleMovedLocked_append hpre, handleMovedLocked] at hr
  simp only [hfail, hper] at hr
  cases hr
  exact ⟨rfl, by simp, rfl⟩

/-- What the loop leaves when every update succeeds. -/
theorem handleMovedLocked_ok {s₁ : State} {budget₁ : ℕ}
    (hup : Updates env debug trylock s budget ks s₁ budget₁)
    (hr : handleMovedLocked env debug trylock ks budget ⟨s, [], []⟩ = some r) :
    r.val.held = [] ∧ r.val.updated = ks.reverse := by
  have happ := handleMovedLocked_append hup [] []
  rw [List.append_nil, hr, handleMovedLocked] at happ
  cases happ
  exact ⟨rfl, by simp⟩

end Loop

/-- `gsgpu_vm_handle_moved` releases what it acquired and puts back what it did not update exactly
when no update fails for a `bo_va` whose reservation it acquired. -/
theorem handleMoved_allOrRequeued_iff {env : UpdateEnv} {debug : Bool} {trylock : Key → Bool}
    {s : State} {budget : ℕ} {r : Result Handling}
    (hr : vmHandleMovedLocked env debug trylock s budget = some r) :
    AllOrRequeued s r.val ↔ ∀ pre k post s', s.status.moved = pre ++ k :: post →
      FailsAt env debug trylock { s with status := { s.status with moved := [] } } budget pre k s' →
      reserves debug trylock s k = false := by
  unfold vmHandleMovedLocked at hr
  constructor
  · intro h pre k post s' hmoved hf
    rw [hmoved] at hr
    have hheld := (handleMovedLocked_fails hf hr).1
    rw [h.released] at hheld
    by_contra hres
    rw [Bool.not_eq_false] at hres
    have hres' : reserves debug trylock
        { s with status := { s.status with moved := [] } } k = true := hres
    rw [if_pos hres'] at hheld
    cases hheld
  · intro h
    rcases handleMovedLocked_cases hr with ⟨s', hall⟩ | ⟨pre, k, post, s', hmoved, hf⟩
    · obtain ⟨hheld, hupdated⟩ := handleMovedLocked_ok hall hr
      refine ⟨hheld, fun k hk hno => ?_⟩
      rw [hupdated, List.mem_reverse] at hno
      exact absurd hk hno
    · have hres := h pre k post s' hmoved hf
      rw [hmoved] at hr
      obtain ⟨hheld, hupdated, hleft⟩ := handleMovedLocked_fails hf hr
      have hres' : reserves debug trylock
          { s with status := { s.status with moved := [] } } k = false := hres
      rw [hres', if_neg Bool.false_ne_true] at hheld
      refine ⟨hheld, fun k' hk' hno => ?_⟩
      rw [hmoved, List.mem_append] at hk'
      rw [hupdated, List.mem_reverse] at hno
      rw [hleft]
      exact List.mem_append_left _ (hk'.resolve_left hno)

/-- A VM with one BO of another reservation, moved and mapped at one page. -/
def foreignMoved : State where
  va := [⟨some 0, 1, 1, 0, 0⟩]
  boVas := fun _ => some ⟨1, true, false, [], [⟨some 0, 1, 1, 0, 0⟩]⟩
  freed := []
  status := ⟨[], [], [some 0], []⟩
  pte := fun _ => ⟨0, 0⟩
  bos := fun _ => ⟨0x4000, .tt fun _ => 0, false, fun _ => true, false, 0⟩

/-- The reservation is acquired, the only update fails, and the reservation is still held. -/
theorem foreignMoved_held : ∃ r,
    vmHandleMovedLocked ⟨1, fun _ _ => 0⟩ false (fun _ => true) foreignMoved 0 = some r ∧
      r.val.held = [some 0] ∧ ¬ AllOrRequeued foreignMoved r.val := by
  refine ⟨_, rfl, rfl, fun h => ?_⟩
  cases h.released

theorem handleMoved_allOrRequeued_foreignMoved : ∃ r,
    vmHandleMovedLocked ⟨1, fun _ _ => 0⟩ false (fun _ => true) foreignMoved 1 = some r ∧
      (AllOrRequeued foreignMoved r.val ↔
        ∀ pre k post s', foreignMoved.status.moved = pre ++ k :: post →
          FailsAt ⟨1, fun _ _ => 0⟩ false (fun _ => true)
            { foreignMoved with status := { foreignMoved.status with moved := [] } } 1 pre k s' →
          reserves false (fun _ => true) foreignMoved k = false) :=
  ⟨_, rfl, handleMoved_allOrRequeued_iff rfl⟩

end Gsgpu.Vm
