import Gsgpu.Suballoc.Regions

/-! The search of `gsgpu_sa_bo_new` for a hole ends. A turn that does not allocate goes on with
fewer regions, or with the hole back at the beginning and a region behind it. -/
namespace Gsgpu.Suballoc

open Cursor

namespace Manager

variable {m m' : Manager} {isSignaled : Fence → Bool}

/-- How far the search can still go: a region counts twice, a hole at the end of the buffer once. -/
def left (m : Manager) : ℕ :=
  2 * m.olist.length + if after SaBo.id m.olist m.hole = [] then 1 else 0

theorem left_le (m : Manager) : m.left ≤ 2 * m.olist.length + 1 := by
  unfold left
  split <;> omega

theorem left_lt_of_length (h : m'.olist.length < m.olist.length) : m'.left < m.left := by
  have hle := m'.left_le
  unfold left at hle ⊢
  omega

theorem length_removeLocked_le (m : Manager) (id : ℕ) :
    (m.removeLocked id).olist.length ≤ m.olist.length := List.length_filter_le ..

theorem length_removeLocked_lt {bo : SaBo} (hbo : bo ∈ m.olist) :
    (m.removeLocked bo.id).olist.length < m.olist.length :=
  List.length_filter_lt_length_iff_exists.mpr ⟨bo, hbo, by simp⟩

theorem tryFreeFrom_size (bos : List SaBo) (m : Manager) :
    (tryFreeFrom isSignaled bos m).size = m.size := by
  induction bos generalizing m with
  | nil => rfl
  | cons bo bos ih =>
    rw [tryFreeFrom]
    split
    · rfl
    · split
      · exact ih _
      · rfl

theorem length_tryFreeFrom_le (bos : List SaBo) (m : Manager) :
    (tryFreeFrom isSignaled bos m).olist.length ≤ m.olist.length := by
  induction bos generalizing m with
  | nil => exact le_rfl
  | cons bo bos ih =>
    rw [tryFreeFrom]
    split
    · exact le_rfl
    · split
      · exact (ih _).trans (m.length_removeLocked_le bo.id)
      · exact le_rfl

theorem after_subset {bo : SaBo} (h : bo ∈ after SaBo.id m.olist m.hole) : bo ∈ m.olist := by
  unfold after at h
  split at h
  · exact h
  · exact (List.dropWhile_sublist _).subset (List.mem_of_mem_tail h)

/-- Freeing takes regions out, or leaves everything as it is. -/
theorem left_tryFree_le (m : Manager) (isSignaled : Fence → Bool) :
    (m.tryFree isSignaled).left ≤ m.left := by
  unfold tryFree
  cases hafter : after SaBo.id m.olist m.hole with
  | nil => exact le_rfl
  | cons bo bos =>
    rw [tryFreeFrom]
    split
    · exact le_rfl
    · split
      · have hbo : bo ∈ m.olist := after_subset (by simp [hafter])
        refine (left_lt_of_length ?_).le
        exact (length_tryFreeFrom_le bos _).trans_lt (length_removeLocked_lt hbo)
      · exact le_rfl

/-- Where another hole is tried, there are fewer regions, or one behind the hole again. -/
theorem left_nextHole_lt (hne : m.olist ≠ []) (isSignaled : Fence → Bool)
    (fences : ℕ → Option Fence) (tries : ℕ → ℕ)
    (h : (m.nextHole isSignaled fences tries).1 = true) :
    (m.nextHole isSignaled fences tries).2.1.left < m.left := by
  unfold nextHole at h ⊢
  split
  · next hend =>
    unfold left
    rw [if_pos hend, if_neg (show ¬ after SaBo.id m.olist none = [] from hne)]
    exact Nat.lt_succ_self _
  · next hin =>
    rw [if_neg hin] at h
    dsimp only at h ⊢
    split
    · next hnone =>
      rw [hnone] at h
      cases h
    · next bo hbo =>
      exact left_lt_of_length (length_removeLocked_lt (m := { m with hole := _ })
        (search_bestBo hbo).1)

theorem nextHole_size (m : Manager) (isSignaled : Fence → Bool) (fences : ℕ → Option Fence) (tries : ℕ → ℕ) :
    (m.nextHole isSignaled fences tries).2.1.size = m.size := by
  unfold nextHole
  split
  · rfl
  · dsimp only
    split <;> rfl

/-- In an empty buffer there is room for all that is admitted, so a search that goes on has regions
to look at. -/
theorem olist_ne_nil_of_tryAlloc {id size align : ℕ} (hsize : size ≤ m.size)
    (hm : m.size < 2 ^ 32) (h : m.tryAlloc id size align = none) : m.olist ≠ [] := by
  intro hnil
  have hsoffset : m.holeSoffset = 0 := by
    unfold holeSoffset at?
    cases m.hole <;> simp [hnil]
  have heoffset : m.holeEoffset = m.size := by
    unfold holeEoffset after
    cases m.hole <;> simp [hnil]
  unfold tryAlloc at h
  simp only [hsoffset, heoffset, Nat.zero_mod, Nat.sub_zero, Nat.mod_self, Nat.add_zero] at h
  split at h
  · cases h
  · next hno =>
    apply hno
    unfold u32 u32Sub u32
    rw [Nat.sub_zero, Nat.add_mod_right, Nat.mod_eq_of_lt hm]
    exact (Nat.mod_le _ _).trans hsize

end Manager

/-- The steps of the call that has the lock. -/
def Event.ofCall : Event → Bool
  | .tryFree _ | .tryAlloc | .nextHole _ => true
  | _ => false

/-- The next step of a call, with the fences it sees signaled. -/
def Call.next (c : Call) (seen : Fence → Bool) : Event :=
  match c.pc with
  | .tryFree => .tryFree seen
  | .tryAlloc => .tryAlloc
  | .nextHole => .nextHole seen

/-- Steps that are taken while the call has the lock, by it and by others. -/
def State.search (s : State) : List Event → Option State
  | [] => some s
  | e :: es => if s.call = none then none else (s.step e).bind fun s' => s'.search es

/-- What a search relies on. -/
structure State.Searching (size : ℕ) (s : State) : Prop where
  size_eq : s.manager.size = size
  call : ∀ c, s.call = some c → c.size ≤ size ∧ (c.pc = .nextHole → s.manager.olist ≠ [])

/-- How many steps the call can still take. -/
def State.stepsLeft (s : State) : ℕ :=
  match s.call with
  | none => 0
  | some c => 3 * s.manager.left + match c.pc with
    | .tryFree => 3
    | .tryAlloc => 2
    | .nextHole => 1

namespace State

variable {size align : ℕ} {s s' : State}

theorem Searching.step (h : s.Searching size) (hsize : size < 2 ^ 32) {e : Event}
    (hstep : s.step e = some s') : s'.Searching size ∧
      (s.call ≠ none → s'.stepsLeft + (if e.ofCall then 1 else 0) ≤ s.stepsLeft) := by
  cases e with
  | new sz al allocOk =>
    simp only [State.step, State.new] at hstep
    split at hstep
    · obtain rfl := Option.some.inj hstep
      exact ⟨h, fun _ => le_rfl⟩
    · split at hstep
      · obtain rfl := Option.some.inj hstep
        exact ⟨h, fun _ => le_rfl⟩
      · next hsz =>
        split at hstep
        · obtain rfl := Option.some.inj hstep
          exact ⟨h, fun _ => le_rfl⟩
        · split at hstep
          · cases hstep
          · next hfree =>
            obtain rfl := Option.some.inj hstep
            refine ⟨⟨h.size_eq, fun c hc => ?_⟩, fun hcall => ?_⟩
            · obtain rfl := Option.some.inj hc
              rw [h.size_eq] at hsz
              exact ⟨not_lt.mp hsz, fun hpc => by cases hpc⟩
            · exact absurd (Option.isSome_iff_ne_none.mpr hcall) fun h => hfree (.inl h)
  | tryFree isSignaled =>
    simp only [State.step] at hstep
    split at hstep
    · next c hc =>
      split at hstep
      · next hpc =>
        obtain rfl := Option.some.inj hstep
        refine ⟨⟨?_, fun c' hc' => ?_⟩, fun _ => ?_⟩
        · exact (Manager.tryFreeFrom_size _ _).trans h.size_eq
        · obtain rfl := Option.some.inj hc'
          exact ⟨(h.call c hc).1, fun hpc => by cases hpc⟩
        · have hleft := s.manager.left_tryFree_le isSignaled
          simp only [State.stepsLeft, hc, hpc, Event.ofCall, if_true]
          omega
      · cases hstep
    · cases hstep
  | tryAlloc =>
    simp only [State.step] at hstep
    split at hstep
    · next c hc =>
      split at hstep
      · next hpc =>
        split at hstep
        · next m halloc =>
          obtain rfl := Option.some.inj hstep
          refine ⟨⟨?_, fun c hc => by cases hc⟩, fun _ => ?_⟩
          · unfold Manager.tryAlloc at halloc
            dsimp only at halloc
            split at halloc
            · obtain rfl := Option.some.inj halloc
              exact h.size_eq
            · cases halloc
          · simp only [State.stepsLeft, hc, hpc, Event.ofCall, if_true]
            omega
        · next halloc =>
          obtain rfl := Option.some.inj hstep
          refine ⟨⟨h.size_eq, fun c' hc' => ?_⟩, fun _ => ?_⟩
          · obtain rfl := Option.some.inj hc'
            refine ⟨(h.call c hc).1, fun _ => ?_⟩
            exact Manager.olist_ne_nil_of_tryAlloc (h.size_eq ▸ (h.call c hc).1)
              (h.size_eq ▸ hsize) halloc
          · simp only [State.stepsLeft, hc, hpc, Event.ofCall, if_true]
            omega
      · cases hstep
    · cases hstep
  | nextHole isSignaled =>
    simp only [State.step] at hstep
    split at hstep
    · next c hc =>
      split at hstep
      · next hpc =>
        have hsz := s.manager.nextHole_size isSignaled c.fences c.tries
        split at hstep
        · next m fences tries hnext =>
          obtain rfl := Option.some.inj hstep
          have hlt := Manager.left_nextHole_lt ((h.call c hc).2 hpc) isSignaled c.fences c.tries
            (by rw [hnext])
          rw [hnext] at hsz hlt
          dsimp only at hlt
          refine ⟨⟨hsz.trans h.size_eq, fun c' hc' => ?_⟩, fun _ => ?_⟩
          · obtain rfl := Option.some.inj hc'
            exact ⟨(h.call c hc).1, fun hpc => by cases hpc⟩
          · simp only [State.stepsLeft, hc, hpc, Event.ofCall, if_true]
            omega
        · next m fences tries hnext =>
          obtain rfl := Option.some.inj hstep
          rw [hnext] at hsz
          refine ⟨⟨hsz.trans h.size_eq, fun c hc => by cases hc⟩, fun _ => ?_⟩
          simp only [State.stepsLeft, hc, hpc, Event.ofCall, if_true]
          omega
      · cases hstep
    · cases hstep
  | free id fence signaled =>
    simp only [State.step] at hstep
    split at hstep
    · next r hcall hr =>
      split at hstep
      · obtain rfl := Option.some.inj hstep
        refine ⟨⟨?_, fun c hc => ?_⟩, fun hne => absurd hcall hne⟩
        · rw [← h.size_eq]
          unfold Manager.free
          split <;> rfl
        · rw [hcall] at hc
          cases hc
      · cases hstep
    · cases hstep
  | signal f =>
    obtain rfl := Option.some.inj hstep
    exact ⟨⟨h.size_eq, h.call⟩, fun _ => le_rfl⟩

theorem Reachable.searching (hsize : size < 2 ^ 32) (h : s.Reachable size align) :
    s.Searching size := by
  refine Transition.Reach.invariant (I := State.Searching size) (fun s hi => ?_)
    (fun _ _ _ hs _ hstep => (hs.step hsize hstep).1) h
  obtain ⟨hm, hcall, -⟩ := hi
  refine ⟨hm ▸ rfl, ?_⟩
  rw [hcall]
  exact nofun

/-- Every step of the call uses one of those it has left. -/
theorem Searching.count_le (h : s.Searching size) (hsize : size < 2 ^ 32) {es : List Event}
    (hrun : s.search es = some s') : es.countP Event.ofCall ≤ s.stepsLeft := by
  induction es generalizing s with
  | nil => exact Nat.zero_le _
  | cons e es ih =>
    rw [State.search] at hrun
    split at hrun
    · cases hrun
    · next hcall =>
      obtain ⟨t, hstep, hrun⟩ := Option.bind_eq_some_iff.mp hrun
      obtain ⟨ht, hleft⟩ := h.step hsize hstep
      have hrest := ih ht hrun
      have := hleft hcall
      rw [List.countP_cons]
      omega

theorem stepsLeft_le (s : State) : s.stepsLeft ≤ 6 * s.manager.olist.length + 6 := by
  have := s.manager.left_le
  unfold State.stepsLeft
  split
  · omega
  · split <;> omega

end State

/-- From every state of a suballocator a search for a hole ends: the call can always take its next
step, whatever fences it sees signaled, it takes no more than six for each region and six besides
while it has the lock, and it gives the lock up only with a region, or when there is no other hole
to try. The size is an `unsigned`. -/
theorem search_terminates (size align : ℕ) (hsize : size < 2 ^ 32) {s : State}
    (h : s.Reachable size align) :
    (∀ c, s.call = some c → ∀ seen, ∃ s', s.step (c.next seen) = some s') ∧
    (∀ es s', s.search es = some s' →
      es.countP Event.ofCall ≤ 6 * s.manager.olist.length + 6) ∧
    ∀ c e s', s.call = some c → s.step e = some s' → s'.call = none →
      s.manager.tryAlloc s.nextId c.size c.align = some s'.manager ∨
        ∃ seen, (s.manager.nextHole seen c.fences c.tries).1 = false := by
  have hsearch := h.searching hsize
  refine ⟨?_, ?_, ?_⟩
  · intro c hc seen
    unfold Call.next State.step
    cases hpc : c.pc with
    | tryFree => simp [hc, hpc]
    | tryAlloc =>
      simp only [hc, hpc, if_true]
      split <;> exact ⟨_, rfl⟩
    | nextHole =>
      simp only [hc, hpc, if_true]
      split <;> exact ⟨_, rfl⟩
  · intro es s' hrun
    exact (hsearch.count_le hsize hrun).trans s.stepsLeft_le
  · intro c e s' hc hstep hend
    cases e with
    | new sz al allocOk =>
      simp only [State.step, State.new, hc, Option.isSome_some, true_or, if_true] at hstep
      split at hstep
      · simp [← Option.some.inj hstep, hc] at hend
      · split at hstep
        · simp [← Option.some.inj hstep, hc] at hend
        · split at hstep
          · simp [← Option.some.inj hstep, hc] at hend
          · cases hstep
    | tryFree seen =>
      simp only [State.step, hc] at hstep
      split at hstep
      · obtain rfl := Option.some.inj hstep
        cases hend
      · cases hstep
    | tryAlloc =>
      simp only [State.step, hc] at hstep
      split at hstep
      · split at hstep
        · next m halloc =>
          obtain rfl := Option.some.inj hstep
          exact .inl halloc
        · obtain rfl := Option.some.inj hstep
          cases hend
      · cases hstep
    | nextHole seen =>
      simp only [State.step, hc] at hstep
      split at hstep
      · split at hstep
        · obtain rfl := Option.some.inj hstep
          cases hend
        · next hnext => exact .inr ⟨seen, by rw [hnext]⟩
      · cases hstep
    | free id fence signaled => simp [State.step, hc] at hstep
    | signal f =>
      obtain rfl := Option.some.inj hstep
      simp [hc] at hend

/-- The pool of indirect buffers, with a call that has just taken the lock. -/
theorem search_terminates_ibPool : ∃ s : State, s.call.isSome ∧
    (∀ c, s.call = some c → ∀ seen, ∃ s', s.step (c.next seen) = some s') ∧
    (∀ es s', s.search es = some s' →
      es.countP Event.ofCall ≤ 6 * s.manager.olist.length + 6) ∧
    ∀ c e s', s.call = some c → s.step e = some s' → s'.call = none →
      s.manager.tryAlloc s.nextId c.size c.align = some s'.manager ∨
        ∃ seen, (s.manager.nextHole seen c.fences c.tries).1 = false := by
  have h₀ : ibPool.Reachable (16 * 64 * 1024) gpuPageSize := .start ⟨rfl, rfl, fun _ => rfl⟩
  obtain ⟨s₁, hs₁, hcall⟩ : ∃ s₁, ibPool.step (.new 1000 256 true) = some s₁ ∧ s₁.call.isSome :=
    ⟨_, rfl, rfl⟩
  have h₁ : s₁.Reachable (16 * 64 * 1024) gpuPageSize :=
    .next h₀ (e := .new 1000 256 true) trivial hs₁
  exact ⟨s₁, hcall, search_terminates (16 * 64 * 1024) gpuPageSize (by decide) h₁⟩

end Gsgpu.Suballoc
