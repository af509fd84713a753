import Gsgpu.Vm.Writes

/-! Whether `gsgpu_vm_clear_freed` can be repeated after it has failed: every range must be cleared
or still be on the list. -/
namespace Gsgpu.Vm

/-- What the loop of `gsgpu_vm_clear_freed` carries: the list, the page table and its fence `f`. -/
structure Clearing where
  freed : List Mapping
  pte : ℕ → Pte
  f : Option ℕ

/-- The loop with its fence. A call that succeeds sets `f` to the fence of its job; one that writes
the tables by CPU has none and leaves it. -/
def clearFencedLoop (submitted : ℕ → Option ℕ) :
    List Mapping → ℕ → (ℕ → Pte) → Option ℕ → Result Clearing
  | [], budget, pte, f => ⟨true, budget, [], pte, f⟩
  | m :: ms, budget, pte, f =>
    if budget = 0 then ⟨false, 0, ms, pte, f⟩
    else clearFencedLoop submitted ms (budget - 1) (vmBoUpdateMapping pte none m.start m.last 0 0)
      ((submitted budget).or f)

/-- `gsgpu_vm_clear_freed` with its optional `fence`, which is a pointer to a fence or NULL. -/
def vmClearFreedFenced (submitted : ℕ → Option ℕ) (s : State) (fence : Option (Option ℕ))
    (budget : ℕ) : Result (State × Option (Option ℕ)) :=
  let r := clearFencedLoop submitted s.freed budget s.pte none
  let s' := { s with freed := r.val.freed, pte := r.val.pte }
  if r.ok then
    match fence, r.val.f with
    | some _, some f => ⟨true, r.budget, s', some (some f)⟩
    | fence, _ => ⟨true, r.budget, s', fence⟩
  else ⟨false, r.budget, s', fence⟩

/-- The range of a mapping is clear in the page table. -/
def RangeClear (pte : ℕ → Pte) (m : Mapping) : Prop := ∀ p, m.Covers p → (pte p).flags = 0

/-- A failed call has left every range cleared or on the list and has not touched the fence; a
successful one has emptied the list and cleared every range. -/
structure Restartable (s : State) (fence : Option (Option ℕ))
    (r : Result (State × Option (Option ℕ))) : Prop where
  failed : r.ok = false →
    (∀ m ∈ s.freed, RangeClear r.val.1.pte m ∨ m ∈ r.val.1.freed) ∧ r.val.2 = fence
  succeeded : r.ok = true → r.val.1.freed = [] ∧ ∀ m ∈ s.freed, RangeClear r.val.1.pte m

section Loop
variable {submitted : ℕ → Option ℕ} {freed : List Mapping} {budget : ℕ} {pte : ℕ → Pte}
  {f : Option ℕ}

/-- The fence has no part in what the loop does. -/
theorem clearFencedLoop_eq (submitted : ℕ → Option ℕ) (freed : List Mapping) (budget : ℕ)
    (pte : ℕ → Pte) (f : Option ℕ) :
    (clearFencedLoop submitted freed budget pte f).ok = (clearFreedLoop freed budget pte).ok ∧
    (clearFencedLoop submitted freed budget pte f).val.freed =
      (clearFreedLoop freed budget pte).val.1 ∧
    (clearFencedLoop submitted freed budget pte f).val.pte =
      (clearFreedLoop freed budget pte).val.2 := by
  induction freed generalizing budget pte f with
  | nil => exact ⟨rfl, rfl, rfl⟩
  | cons m ms ih =>
    unfold clearFencedLoop clearFreedLoop
    split_ifs
    · exact ⟨rfl, rfl, rfl⟩
    · exact ih _ _ _

/-- With `budget` calls that succeed, the mapping after them is the one that is lost. -/
theorem clearFreedLoop_freed (freed : List Mapping) (budget : ℕ) (pte : ℕ → Pte) :
    (clearFreedLoop freed budget pte).ok = decide (freed.length ≤ budget) ∧
      (clearFreedLoop freed budget pte).val.1 = freed.drop (budget + 1) := by
  induction freed generalizing budget pte with
  | nil => simp [clearFreedLoop]
  | cons m ms ih =>
    unfold clearFreedLoop
    split_ifs with hb
    · simp [hb]
    · obtain ⟨k, rfl⟩ := Nat.exists_eq_succ_of_ne_zero hb
      simpa using ih k _

/-- An entry is clear after the loop if it was before or a call that succeeded covers it. -/
theorem clearFreedLoop_flags (freed : List Mapping) (budget : ℕ) (pte : ℕ → Pte) (p : ℕ) :
    ((clearFreedLoop freed budget pte).val.2 p).flags = 0 ↔
      (pte p).flags = 0 ∨ ∃ m ∈ freed.take budget, m.Covers p := by
  induction freed generalizing budget pte with
  | nil => simp [clearFreedLoop]
  | cons m ms ih =>
    unfold clearFreedLoop
    split_ifs with hb
    · simp [hb]
    · obtain ⟨k, rfl⟩ := Nat.exists_eq_succ_of_ne_zero hb
      rw [Nat.succ_eq_add_one, Nat.add_sub_cancel, ih, List.take_succ_cons]
      by_cases hcov : m.Covers p
      · have hflags : (vmBoUpdateMapping pte none m.start m.last 0 0 p).flags = 0 :=
          vmBoUpdateMapping_flags hcov
        simp [hflags, hcov]
      · rw [vmBoUpdateMapping_of_not_mem hcov]
        simp [hcov]

end Loop

section Restart
variable {submitted : ℕ → Option ℕ} {s : State} {fence : Option (Option ℕ)} {budget : ℕ}

/-- What `gsgpu_vm_clear_freed` leaves, apart from the fence of a successful call. -/
theorem vmClearFreedFenced_eq (submitted : ℕ → Option ℕ) (s : State) (fence : Option (Option ℕ))
    (budget : ℕ) :
    (vmClearFreedFenced submitted s fence budget).ok = (vmClearFreed s budget).ok ∧
    (vmClearFreedFenced submitted s fence budget).val.1 = (vmClearFreed s budget).val ∧
    ((vmClearFreed s budget).ok = false →
      (vmClearFreedFenced submitted s fence budget).val.2 = fence) := by
  obtain ⟨hok, hfreed, hpte⟩ := clearFencedLoop_eq submitted s.freed budget s.pte none
  unfold vmClearFreedFenced vmClearFreed
  simp only [hok, hfreed, hpte]
  cases hcase : (clearFreedLoop s.freed budget s.pte).ok with
  | false => simp
  | true =>
    cases fence with
    | none => simp
    | some old =>
      cases (clearFencedLoop submitted s.freed budget s.pte none).val.f <;> simp

variable (s budget) in
theorem rangeClear_vmClearFreed (m : Mapping) : RangeClear (vmClearFreed s budget).val.pte m ↔
    ∀ p, m.Covers p → (s.pte p).flags = 0 ∨ ∃ m' ∈ s.freed.take budget, m'.Covers p := by
  apply forall_congr'
  intro p
  apply imp_congr_right
  intro _
  exact clearFreedLoop_flags s.freed budget s.pte p

/-- `gsgpu_vm_clear_freed` can be repeated exactly when no call for a range fails, or the range for
which one fails is on the list again or is already clear: that range has left the list. -/
theorem clearFreed_restartable_iff :
    Restartable s fence (vmClearFreedFenced submitted s fence budget) ↔
    ∀ m, s.freed[budget]? = some m → m ∈ s.freed.drop (budget + 1) ∨
      ∀ p, m.Covers p → (s.pte p).flags = 0 ∨ ∃ m' ∈ s.freed.take budget, m'.Covers p := by
  obtain ⟨hok, hval, hfence⟩ := vmClearFreedFenced_eq submitted s fence budget
  have hclear := rangeClear_vmClearFreed s budget
  have hloop := clearFreedLoop_freed s.freed budget s.pte
  have hleft : (vmClearFreed s budget).val.freed = s.freed.drop (budget + 1) := hloop.2
  have hdone : (vmClearFreed s budget).ok = decide (s.freed.length ≤ budget) := hloop.1
  have hcovered : ∀ m ∈ s.freed.take budget, RangeClear (vmClearFreed s budget).val.pte m :=
    fun m hm => (hclear m).mpr fun p hp => .inr ⟨m, hm, hp⟩
  constructor
  · intro h m hm
    have hlt : budget < s.freed.length := by
      by_contra hge
      rw [List.getElem?_eq_none (not_lt.mp hge)] at hm
      cases hm
    have hfail : (vmClearFreedFenced submitted s fence budget).ok = false := by
      rw [hok, hdone, decide_eq_false hlt.not_ge]
    have hm' := (h.failed hfail).1 m (List.mem_of_getElem? hm)
    rw [hval, hclear, hleft] at hm'
    exact hm'.symm
  · intro h
    constructor
    · intro hfail
      rw [hok] at hfail
      rw [hval, hleft]
      refine ⟨fun m hm => ?_, hfence hfail⟩
      rw [← List.take_append_drop budget s.freed] at hm
      rcases List.mem_append.mp hm with hm | hm
      · exact .inl (hcovered m hm)
      · rw [hdone, decide_eq_false_iff_not, not_le] at hfail
        rw [List.drop_eq_getElem_cons hfail] at hm
        rcases List.mem_cons.mp hm with rfl | hm
        · rw [hclear]
          exact (h _ (List.getElem?_eq_getElem hfail)).symm
        · exact .inr hm
    · intro hsucc
      rw [hok, hdone, decide_eq_true_eq] at hsucc
      rw [hval, hleft]
      constructor
      · exact List.drop_eq_nil_of_le (by omega)
      · intro m hm
        apply hcovered
        rwa [List.take_of_length_le hsucc]

end Restart

/-- A VM with one freed page, still present in its page table. -/
def oneFreed : State where
  va := []
  boVas := fun _ => none
  freed := [⟨none, 5, 5, 0, 0⟩]
  status := ⟨[], [], [], []⟩
  pte := fun _ => ⟨0, 1⟩
  bos := fun _ => ⟨0, .system, true, fun _ => true, false, 0⟩

/-- When the first call fails, the page is neither cleared nor on the list. -/
theorem oneFreed_lost :
    ¬ Restartable oneFreed none (vmClearFreedFenced (fun _ => none) oneFreed none 0) := by
  intro h
  rcases (h.failed rfl).1 ⟨none, 5, 5, 0, 0⟩ (by decide) with hclear | hmem
  · have hflags : (1 : ℕ) = 0 := hclear 5 (by decide)
    omega
  · cases hmem

end Gsgpu.Vm
