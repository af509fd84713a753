import Gsgpu.Mn.Nodes
import Gsgpu.Lib.Run

/-! The MMU notifier of a process: invalidations hold the read side of its lock from
`invalidate_range_start` to `invalidate_range_end`, however many there are at a time, and the
registry changes under the write side only. -/
namespace Gsgpu.Mn

/-- Where a call of `gsgpu_mn_invalidate_range_start_gfx` for `[start, stop)` is, up to the return
of its `gsgpu_mn_invalidate_range_end`; `active` is between the two, with the BOs that
`gsgpu_ttm_tt_affect_userptr` was called for. -/
inductive Phase
  | idle
  | enter (start stop : ℕ) (blockable : Bool)
  | locked (start stop : ℕ) (blockable : Bool)
  | downRead (start stop : ℕ) (blockable : Bool)
  | unlock (start stop : ℕ) (blockable : Bool)
  | walk (start stop : ℕ) (blockable : Bool)
  | readUnlock
  | active (start stop : ℕ) (called : List ℕ)
  | upRead
deriving DecidableEq

/-- `writer` and `readers` are the two sides of `amn->lock`; `readLock` is the call that has the
mutex. There are never 2^32 calls at a time for the counter to wrap. -/
structure State where
  reg : Registry
  writer : Bool
  readers : ℕ
  readLock : Option ℕ
  recursion : ℕ
  call : ℕ → Phase

def State.setCall (s : State) (i : ℕ) (p : Phase) : State :=
  { s with call := Function.update s.call i p }

/-- `gsgpu_mn_read_unlock` up to `up_read_non_owner`. -/
def State.readUnlock (s : State) (i : ℕ) : State :=
  { s.setCall i (if s.recursion - 1 = 0 then .upRead else .idle) with
    recursion := s.recursion - 1 }

/-- The end of the notification is exclusive, that of the interval inclusive. -/
def inclusive (stop : ℕ) : ℕ := (stop + 2 ^ 64 - 1) % 2 ^ 64

/-- The next step of a call; `fuel` bounds the walks through the lists. -/
def State.advance (s : State) (i fuel : ℕ) : Option State :=
  match s.call i with
  | .idle | .active _ _ _ => none
  | .enter start stop blockable =>
    if s.readLock = none then
      some { s.setCall i (.locked start stop blockable) with readLock := some i }
    else if blockable then none
    else some (s.setCall i .idle)
  | .locked start stop blockable =>
    some { s.setCall i (if s.recursion + 1 = 1 then .downRead start stop blockable
        else .unlock start stop blockable) with
      recursion := s.recursion + 1 }
  | .downRead start stop blockable =>
    if s.writer then none
    else some { s.setCall i (.unlock start stop blockable) with readers := s.readers + 1 }
  | .unlock start stop blockable =>
    some { s.setCall i (.walk start stop blockable) with readLock := none }
  | .walk start stop true => do
    let called ← s.reg.invalidated fuel start (inclusive stop)
    return s.setCall i (.active start stop called)
  | .walk start stop false =>
    if (s.reg.iterFirst start (inclusive stop)).isSome then some (s.setCall i .readUnlock)
    else some (s.setCall i (.active start stop []))
  | .readUnlock => some (s.readUnlock i)
  | .upRead => some { s.setCall i .idle with readers := s.readers - 1 }

inductive Event
  | register (b addr size : ℕ) (newNode : Option ℕ)
  | unregister (b : ℕ)
  | lock
  | unlock
  | rangeStart (i start stop : ℕ) (blockable : Bool)
  | advance (i fuel : ℕ)
  | rangeEnd (i : ℕ)

/-- A BO is registered when it is created, with addresses that do not wrap, and new memory is not
that of a node. Register and unregister have the write side of the lock while they change
anything. -/
def State.step (s : State) : Event → Option State
  | .register b addr size newNode =>
    if s.writer = false ∧ s.readers = 0 ∧ s.reg.mn b = false ∧ 0 < size ∧ addr + size ≤ 2 ^ 64 ∧
        ∀ m ∈ newNode, m ∉ s.reg.nodes then
      some { s with reg := s.reg.register b addr size newNode }
    else none
  | .unregister b =>
    if s.writer = false ∧ s.readers = 0 then do
      let reg ← s.reg.unregister b
      return { s with reg := reg }
    else none
  | .lock => if s.writer = false ∧ s.readers = 0 then some { s with writer := true } else none
  | .unlock => if s.writer then some { s with writer := false } else none
  | .rangeStart i start stop blockable =>
    if s.call i = .idle then some (s.setCall i (.enter start stop blockable)) else none
  | .advance i fuel => s.advance i fuel
  | .rangeEnd i =>
    match s.call i with
    | .active _ _ _ => some (s.readUnlock i)
    | _ => none

/-- `gsgpu_mn_get` has made the notifier. -/
structure State.Init (s : State) : Prop where
  objects : s.reg.objects = []
  nodes : s.reg.nodes = ∅
  mn : ∀ b, s.reg.mn b = false
  clean : s.reg.clean
  writer : s.writer = false
  readers : s.readers = 0
  readLock : s.readLock = none
  recursion : s.recursion = 0
  call : ∀ i, s.call i = .idle

def State.Reachable (s : State) : Prop :=
  Transition.Reach State.Init (fun s e s' => s.step e = some s') (fun _ _ => True) s

/-- The nodes are apart from each other and each lists some BOs in its range; every registered BO
is in one list, and nothing that is still in use was freed. -/
def Registry.Complete (s : Registry) : Prop := ∃ bos : ℕ → List ℕ,
  (∀ n ∈ s.objects, s.links.Circle (.node n) ((bos n).map .bo) ∧ bos n ≠ [] ∧ n ∈ s.nodes) ∧
  (∀ m ∈ s.objects, ∀ n ∈ s.objects, m ≠ n → ¬ (s.it m).Meets (s.it n).start (s.it n).last) ∧
  (∀ b, s.mn b = true → ∃! n, n ∈ s.objects ∧ b ∈ bos n) ∧
  (∀ n ∈ s.objects, ∀ b ∈ bos n, s.mn b = true ∧
    (s.it n).start ≤ (s.range b).start ∧ (s.range b).last ≤ (s.it n).last) ∧
  s.clean

/-- An invalidation that has returned has called `gsgpu_ttm_tt_affect_userptr` once for every
registered BO that it meets. -/
def State.Notified (s : State) : Prop :=
  ∀ i start stop called, s.call i = .active start stop called → start < stop → stop < 2 ^ 64 →
    ∀ b, s.reg.mn b = true → (s.reg.range b).Meets start (stop - 1) → called.count b = 1

/-- The read side is held while an invalidation is between its start and its end, and when no call
is inside of these it is not held otherwise. -/
def State.HeldExactly (s : State) : Prop :=
  (∀ i start stop called, s.call i = .active start stop called → 0 < s.readers) ∧
    ((∀ i, s.call i = .idle ∨ ∃ start stop called, s.call i = .active start stop called) →
      0 < s.readers → ∃ i start stop called, s.call i = .active start stop called)

/-- Neither unregistering a BO nor the walk of an invalidation goes wrong. -/
def State.Proceeds (s : State) : Prop :=
  (∀ b, (s.reg.unregister b).isSome) ∧
    ∀ i start stop, s.call i = .walk start stop true → ∃ fuel, (s.advance i fuel).isSome

/-- The calls that `recursion` counts. -/
def Phase.counted : Phase → Bool
  | .downRead _ _ _ | .unlock _ _ _ | .walk _ _ _ | .readUnlock | .active _ _ _ => true
  | _ => false

def Phase.inMutex : Phase → Bool
  | .locked _ _ _ | .downRead _ _ _ | .unlock _ _ _ => true
  | _ => false

def Phase.isDown : Phase → Bool
  | .downRead _ _ _ => true
  | _ => false

/-- The counter counts the calls in `S`, and the calls in `T` have still to give up the read side,
besides the one hold that those in `S` share. -/
structure State.Counts (s : State) (S T : Finset ℕ) : Prop where
  counted : ∀ i, (s.call i).counted = true ↔ i ∈ S
  leaving : ∀ i, s.call i = .upRead ↔ i ∈ T
  recursion : s.recursion = S.card
  mutex : ∀ i, (s.call i).inMutex = true ↔ s.readLock = some i
  down : ∀ i, (s.call i).isDown = true → S = {i} ∧ s.readers = T.card
  unused : S = ∅ → s.readers = T.card
  shared : S ≠ ∅ → (∀ i, (s.call i).isDown = false) → s.readers = T.card + 1

variable {s s' : State} {S T : Finset ℕ} {i : ℕ} {p q : Phase}

/-- A call goes to another phase. -/
theorem State.Counts.update (h : s.Counts S T) (hq : s.call i = q)
    (hcall : s'.call = Function.update s.call i p) {S' T' : Finset ℕ}
    (hS : S' = if p.counted then insert i S else S.erase i)
    (hT : T' = if p = .upRead then insert i T else T.erase i) (hrec : s'.recursion = S'.card)
    (hmutex : p.inMutex = q.inMutex ∧ s'.readLock = s.readLock ∨
      p.inMutex = true ∧ s.readLock = none ∧ s'.readLock = some i ∨
      p.inMutex = false ∧ q.inMutex = true ∧ s'.readLock = none)
    (hdown : p.isDown = true → S' = {i} ∧ s'.readers = T'.card)
    (hother : ∀ j, j ≠ i → (s.call j).isDown = true → S' = {j} ∧ s'.readers = T'.card)
    (hnone : S' = ∅ → s'.readers = T'.card)
    (hshared : S' ≠ ∅ → p.isDown = false → (∀ j, j ≠ i → (s.call j).isDown = false) →
      s'.readers = T'.card + 1) : s'.Counts S' T' := by
  have hself : s'.call i = p := by rw [hcall, Function.update_self]
  have hne : ∀ j, j ≠ i → s'.call j = s.call j := fun j hj => by
    rw [hcall, Function.update_of_ne hj]
  refine ⟨fun j => ?_, fun j => ?_, hrec, fun j => ?_, fun j hj => ?_, hnone, fun hS' hj => ?_⟩
  · by_cases hji : j = i
    · rw [hji, hself, hS]
      split_ifs <;> simp_all
    · rw [hne j hji, h.counted j, hS]
      split_ifs <;> simp [hji]
  · by_cases hji : j = i
    · rw [hji, hself, hT]
      split_ifs <;> simp_all
    · rw [hne j hji, h.leaving j, hT]
      split_ifs <;> simp [hji]
  · by_cases hji : j = i
    · rw [hji, hself]
      rcases hmutex with ⟨hsame, hlock⟩ | ⟨hin, -, hlock⟩ | ⟨hout, -, hlock⟩
      · rw [hsame, hlock, ← hq]
        exact h.mutex i
      · simp [hin, hlock]
      · simp [hout, hlock]
    · rw [hne j hji, h.mutex j]
      rcases hmutex with ⟨-, hlock⟩ | ⟨-, hfree, hlock⟩ | ⟨-, hheld, hlock⟩
      · rw [hlock]
      · simp [hfree, hlock, Ne.symm hji]
      · rw [← hq, h.mutex i] at hheld
        simp [hheld, hlock, Ne.symm hji]
  · by_cases hji : j = i
    · rw [hji] at hj ⊢
      rw [hself] at hj
      exact hdown hj
    · rw [hne j hji] at hj
      exact hother j hji hj
  · refine hshared hS' (by rw [← hself]; exact hj i) fun j hji => ?_
    rw [← hne j hji]
    exact hj j

/-- A step that changes neither what is counted nor the read side. -/
theorem State.Counts.still (h : s.Counts S T) (hq : s.call i = q)
    (hcall : s'.call = Function.update s.call i p) (hcounted : p.counted = q.counted)
    (hup : p ≠ .upRead ∧ q ≠ .upRead) (hdown : p.isDown = false ∧ q.isDown = false)
    (hsame : s'.recursion = s.recursion ∧ s'.readers = s.readers)
    (hmutex : p.inMutex = q.inMutex ∧ s'.readLock = s.readLock ∨
      p.inMutex = true ∧ s.readLock = none ∧ s'.readLock = some i ∨
      p.inMutex = false ∧ q.inMutex = true ∧ s'.readLock = none) : s'.Counts S T := by
  have hiS : p.counted = true ↔ i ∈ S := by rw [hcounted, ← hq, h.counted i]
  have hiT : i ∉ T := fun hi => hup.2 (hq ▸ (h.leaving i).mpr hi)
  refine h.update hq hcall ?_ ?_ (hsame.1.trans h.recursion) hmutex (by simp [hdown.1]) ?_ ?_ ?_
  · split_ifs with hp
    · rw [Finset.insert_eq_of_mem (hiS.mp hp)]
    · rw [Finset.erase_eq_of_notMem fun hi => hp (hiS.mpr hi)]
  · rw [if_neg hup.1, Finset.erase_eq_of_notMem hiT]
  · intro j _ hj
    rw [hsame.2]
    exact h.down j hj
  · rw [hsame.2]
    exact h.unused
  · intro hS _ hj
    rw [hsame.2]
    refine h.shared hS fun j => ?_
    by_cases hji : j = i
    · rw [hji, hq, hdown.2]
    · exact hj j hji

/-- `gsgpu_mn_read_unlock`: the last one has still to give up the read side. -/
theorem State.Counts.readUnlock (h : s.Counts S T) (hq : s.call i = q) (hc : q.counted = true)
    (hm : q.inMutex = false) (hd : q.isDown = false) :
    ∃ S' T', (s.readUnlock i).Counts S' T' := by
  have hiS : i ∈ S := (h.counted i).mp (by rw [hq, hc])
  have hcard : (S.erase i).card = S.card - 1 := Finset.card_erase_of_mem hiS
  have hiT : i ∉ T := fun hi => by
    have := (h.leaving i).mpr hi
    rw [hq] at this
    rw [this] at hc
    cases hc
  have hnodown : ∀ j, (s.call j).isDown = false := by
    intro j
    by_contra hj
    have hS := (h.down j (by simpa using hj)).1
    rw [hS, Finset.mem_singleton] at hiS
    rw [← hiS, hq, hd] at hj
    exact hj rfl
  have hreaders := h.shared (Finset.ne_empty_of_mem hiS) hnodown
  by_cases hlast : s.recursion - 1 = 0
  · have hempty : S.erase i = ∅ := by
      rw [← Finset.card_eq_zero, hcard, ← h.recursion, hlast]
    refine ⟨_, _, h.update (p := .upRead) hq ?_ rfl rfl ?_ (.inl ⟨hm.symm, rfl⟩) nofun ?_ ?_ ?_⟩
    · simp [State.readUnlock, State.setCall, hlast]
    · simp [Phase.counted, hcard, State.readUnlock, h.recursion]
    · intro j _ hj
      simp [hnodown j] at hj
    · intro _
      simp [hiT, State.readUnlock, State.setCall, hreaders]
    · intro hne
      simp [Phase.counted, hempty] at hne
  · have hne : S.erase i ≠ ∅ := by
      rw [← Finset.card_pos.trans Finset.nonempty_iff_ne_empty, hcard, ← h.recursion]
      omega
    refine ⟨_, _, h.update (p := .idle) hq ?_ rfl rfl ?_ (.inl ⟨hm.symm, rfl⟩) nofun ?_ ?_ ?_⟩
    · simp [State.readUnlock, State.setCall, hlast]
    · simp [Phase.counted, hcard, State.readUnlock, h.recursion]
    · intro j _ hj
      simp [hnodown j] at hj
    · intro hempty
      simp only [Phase.counted, Bool.false_eq_true, if_false] at hempty
      exact absurd hempty hne
    · intro _ _ _
      simp [hiT, State.readUnlock, State.setCall, hreaders]

/-- The first call takes the read side, later ones share it. -/
theorem State.Counts.count (h : s.Counts S T) {start stop : ℕ} {blockable : Bool}
    (hq : s.call i = .locked start stop blockable) :
    ∃ S' T', State.Counts { s.setCall i (if s.recursion + 1 = 1 then .downRead start stop blockable
        else .unlock start stop blockable) with recursion := s.recursion + 1 } S' T' := by
  have hiS : i ∉ S := fun hi => by
    have := (h.counted i).mpr hi
    rw [hq] at this
    cases this
  have hiT : i ∉ T := fun hi => by
    have := (h.leaving i).mpr hi
    rw [hq] at this
    cases this
  have hmine : s.readLock = some i := (h.mutex i).mp (by rw [hq]; rfl)
  have hnodown : ∀ j, (s.call j).isDown = false := by
    intro j
    by_contra hj
    have hmutex : (s.call j).inMutex = true := by
      generalize s.call j = x at hj
      cases x <;> simp_all [Phase.isDown, Phase.inMutex]
    rw [h.mutex j, hmine] at hmutex
    cases hmutex
    rw [hq] at hj
    exact hj rfl
  by_cases hfirst : s.recursion + 1 = 1
  · have hempty : S = ∅ := by
      rw [← Finset.card_eq_zero, ← h.recursion]
      omega
    refine ⟨_, _, h.update (p := .downRead start stop blockable) hq ?_ rfl rfl ?_ (.inl ⟨rfl, rfl⟩)
      ?_ ?_ ?_ nofun⟩
    · simp [State.setCall, hfirst]
    · simp [Phase.counted, h.recursion, hempty]
    · intro _
      simp [Phase.counted, hempty, Finset.erase_eq_of_notMem hiT, State.setCall, h.unused hempty]
    · intro j _ hj
      simp [hnodown j] at hj
    · intro hS
      simp [Phase.counted] at hS
  · have hne : S ≠ ∅ := by
      rintro rfl
      exact hfirst (by rw [h.recursion]; rfl)
    refine ⟨_, _, h.update (p := .unlock start stop blockable) hq ?_ rfl rfl ?_ (.inl ⟨rfl, rfl⟩)
      nofun ?_ ?_ ?_⟩
    · simp only [State.setCall, if_neg hfirst]
    · simp [Phase.counted, h.recursion, hiS]
    · intro j _ hj
      simp [hnodown j] at hj
    · intro hS
      simp [Phase.counted] at hS
    · intro _ _ _
      simp [Finset.erase_eq_of_notMem hiT, State.setCall, h.shared hne hnodown]

theorem State.Counts.advance (h : s.Counts S T) {fuel : ℕ} (hs : s.advance i fuel = some s') :
    ∃ S' T', s'.Counts S' T' := by
  unfold State.advance at hs
  cases hq : s.call i with
  | idle => simp [hq] at hs
  | active => simp [hq] at hs
  | enter start stop blockable =>
    simp only [hq] at hs
    split_ifs at hs with hfree
    · cases hs
      exact ⟨S, T, h.still hq rfl rfl ⟨nofun, nofun⟩ ⟨rfl, rfl⟩ ⟨rfl, rfl⟩
        (.inr (.inl ⟨rfl, hfree, rfl⟩))⟩
    · cases hs
      exact ⟨S, T, h.still hq rfl rfl ⟨nofun, nofun⟩ ⟨rfl, rfl⟩ ⟨rfl, rfl⟩ (.inl ⟨rfl, rfl⟩)⟩
  | locked start stop blockable =>
    simp only [hq] at hs
    cases hs
    exact h.count hq
  | downRead start stop blockable =>
    obtain ⟨hS, hreaders⟩ := h.down i (by rw [hq]; rfl)
    have hiT : i ∉ T := fun hi => by
      have := (h.leaving i).mpr hi
      rw [hq] at this
      cases this
    simp only [hq] at hs
    split_ifs at hs
    cases hs
    refine ⟨_, _, h.update (p := .unlock start stop blockable) hq rfl rfl rfl ?_ (.inl ⟨rfl, rfl⟩)
      nofun ?_ ?_ ?_⟩
    · simp [Phase.counted, hS, State.setCall, h.recursion]
    · intro j hj hdown
      have := (h.down j hdown).1
      rw [hS, Finset.singleton_inj] at this
      exact absurd this.symm hj
    · intro hempty
      simp [Phase.counted] at hempty
    · intro _ _ _
      simp [Finset.erase_eq_of_notMem hiT, hreaders]
  | unlock start stop blockable =>
    simp only [hq] at hs
    cases hs
    exact ⟨S, T, h.still hq rfl rfl ⟨nofun, nofun⟩ ⟨rfl, rfl⟩ ⟨rfl, rfl⟩ (.inr (.inr ⟨rfl, rfl, rfl⟩))⟩
  | walk start stop blockable =>
    cases blockable with
    | true =>
      simp only [hq] at hs
      obtain ⟨called, -, hs⟩ := Option.bind_eq_some_iff.mp hs
      cases hs
      exact ⟨S, T, h.still hq rfl rfl ⟨nofun, nofun⟩ ⟨rfl, rfl⟩ ⟨rfl, rfl⟩ (.inl ⟨rfl, rfl⟩)⟩
    | false =>
      simp only [hq] at hs
      split_ifs at hs
      all_goals
        cases hs
        exact ⟨S, T, h.still hq rfl rfl ⟨nofun, nofun⟩ ⟨rfl, rfl⟩ ⟨rfl, rfl⟩ (.inl ⟨rfl, rfl⟩)⟩
  | readUnlock =>
    simp only [hq] at hs
    cases hs
    exact h.readUnlock hq rfl rfl rfl
  | upRead =>
    have hiT : i ∈ T := (h.leaving i).mp hq
    have hiS : i ∉ S := fun hi => by
      have := (h.counted i).mpr hi
      rw [hq] at this
      cases this
    have hcard := Finset.card_erase_add_one hiT
    simp only [hq] at hs
    cases hs
    refine ⟨_, _, h.update (p := .idle) hq rfl rfl rfl ?_ (.inl ⟨rfl, rfl⟩) nofun ?_ ?_ ?_⟩ <;>
      simp only [Phase.counted, Bool.false_eq_true, if_false, Finset.erase_eq_of_notMem hiS,
        reduceCtorEq, State.setCall]
    · exact h.recursion
    · intro j _ hj
      obtain ⟨hS, hreaders⟩ := h.down j hj
      exact ⟨hS, by omega⟩
    · intro hempty
      have := h.unused hempty
      omega
    · intro hne _ hj
      have := h.shared hne fun j => by
        by_cases hji : j = i
        · rw [hji, hq]
          rfl
        · exact hj j hji
      omega

/-- While a call is between its start and its end, somebody holds the read side. -/
theorem State.Counts.readers_pos (h : s.Counts S T) {start stop : ℕ} {called : List ℕ}
    (hi : s.call i = .active start stop called) : 0 < s.readers := by
  have hiS : i ∈ S := (h.counted i).mp (by rw [hi]; rfl)
  have hnodown : ∀ j, (s.call j).isDown = false := by
    intro j
    by_contra hj
    have hS := (h.down j (by simpa using hj)).1
    rw [hS, Finset.mem_singleton] at hiS
    rw [← hiS, hi] at hj
    exact hj rfl
  rw [h.shared (Finset.ne_empty_of_mem hiS) hnodown]
  exact Nat.succ_pos _

theorem State.Counts.heldExactly (h : s.Counts S T) : s.HeldExactly := by
  refine ⟨fun i start stop called hi => h.readers_pos hi, fun hquiet hpos => ?_⟩
  have hT : T = ∅ := by
    rw [Finset.eq_empty_iff_forall_notMem]
    intro i hi
    have hup := (h.leaving i).mpr hi
    rcases hquiet i with hi | ⟨_, _, _, hi⟩ <;> simp [hup] at hi
  by_contra hno
  have hS : S = ∅ := by
    rw [Finset.eq_empty_iff_forall_notMem]
    intro i hi
    have hcounted := (h.counted i).mpr hi
    rcases hquiet i with hi | ⟨start, stop, called, hi⟩
    · rw [hi] at hcounted
      cases hcounted
    · exact hno ⟨i, start, stop, called, hi⟩
  rw [h.unused hS, hT] at hpos
  exact absurd hpos (lt_irrefl 0)

structure State.Inv (s : State) : Prop where
  reg : ∃ bos, s.reg.Inv bos
  counts : ∃ S T, s.Counts S T
  notified : s.Notified

theorem inclusive_eq {stop : ℕ} (hpos : 0 < stop) (hlt : stop < 2 ^ 64) :
    inclusive stop = stop - 1 := by
  unfold inclusive
  omega

/-- If no node meets the interval, no registered BO does. -/
theorem Registry.Inv.not_meets {r : Registry} {bos : Addr → List ℕ} (h : r.Inv bos)
    {start last b : ℕ} (hnone : (r.iterFirst start last).isSome = false) (hb : r.mn b = true) :
    ¬ (r.range b).Meets start last := by
  intro hmeets
  obtain ⟨_, ⟨n, hn, rfl⟩, hin⟩ := (h.held.listed b).mp hb
  have hcont := h.tree.contains n hn b hin
  rw [Option.isSome_eq_false_iff, Option.isNone_iff_eq_none, Registry.iterFirst,
    List.find?_eq_none] at hnone
  exact hnone n hn (by simpa using ⟨hcont.1.trans hmeets.1, hmeets.2.trans hcont.2⟩)

/-- The registry stays as it is while a call goes to another phase; if it returns, it has called
for all. -/
theorem State.Notified.setCall (h : s.Notified) (hreg : s'.reg = s.reg)
    (hcall : s'.call = Function.update s.call i p)
    (hp : ∀ start stop called, p = .active start stop called → start < stop → stop < 2 ^ 64 →
      ∀ b, s.reg.mn b = true → (s.reg.range b).Meets start (stop - 1) → called.count b = 1) :
    s'.Notified := by
  intro j start stop called hj
  rw [hreg]
  rw [hcall] at hj
  by_cases hji : j = i
  · rw [hji, Function.update_self] at hj
    exact hp start stop called hj
  · rw [Function.update_of_ne hji] at hj
    exact h j start stop called hj

theorem State.Notified.readUnlock (h : s.Notified) : (s.readUnlock i).Notified := by
  refine h.setCall rfl rfl fun start stop called hp => ?_
  split_ifs at hp

theorem State.Inv.advance (h : s.Inv) {fuel : ℕ} (hs : s.advance i fuel = some s') : s'.Inv := by
  obtain ⟨bos, hreg⟩ := h.reg
  obtain ⟨S, T, hcounts⟩ := h.counts
  have hcounts' := hcounts.advance hs
  suffices hrest : s'.reg = s.reg ∧ s'.Notified from ⟨⟨bos, hrest.1 ▸ hreg⟩, hcounts', hrest.2⟩
  unfold State.advance at hs
  cases hq : s.call i with
  | idle => simp [hq] at hs
  | active => simp [hq] at hs
  | enter start stop blockable =>
    simp only [hq] at hs
    split_ifs at hs <;> cases hs
    · exact ⟨rfl, h.notified.setCall rfl rfl (by simp)⟩
    · exact ⟨rfl, h.notified.setCall rfl rfl (by simp)⟩
  | locked start stop blockable =>
    simp only [hq] at hs
    cases hs
    refine ⟨rfl, h.notified.setCall rfl rfl fun start stop called hp => ?_⟩
    split_ifs at hp
  | downRead start stop blockable =>
    simp only [hq] at hs
    split_ifs at hs
    cases hs
    exact ⟨rfl, h.notified.setCall rfl rfl (by simp)⟩
  | unlock start stop blockable =>
    simp only [hq] at hs
    cases hs
    exact ⟨rfl, h.notified.setCall rfl rfl (by simp)⟩
  | walk start stop blockable =>
    cases blockable with
    | true =>
      simp only [hq] at hs
      obtain ⟨called, hcalled, hs⟩ := Option.bind_eq_some_iff.mp hs
      cases hs
      refine ⟨rfl, h.notified.setCall rfl rfl ?_⟩
      rintro _ _ _ ⟨⟩ hlt hle b hb hmeets
      rw [inclusive_eq (by omega) hle] at hcalled
      exact hreg.count_invalidated hcalled hb hmeets
    | false =>
      simp only [hq] at hs
      split_ifs at hs with hsome <;> cases hs
      · exact ⟨rfl, h.notified.setCall rfl rfl (by simp)⟩
      · refine ⟨rfl, h.notified.setCall rfl rfl ?_⟩
        rintro _ _ _ ⟨⟩ hlt hle b hb hmeets
        rw [inclusive_eq (by omega) hle] at hsome
        exact absurd hmeets (hreg.not_meets (by simpa using hsome) hb)
  | readUnlock =>
    simp only [hq] at hs
    cases hs
    exact ⟨rfl, h.notified.readUnlock⟩
  | upRead =>
    simp only [hq] at hs
    cases hs
    exact ⟨rfl, h.notified.setCall rfl rfl (by simp)⟩

/-- The registry changes while no call is between its start and its end. -/
theorem State.Inv.setReg (h : s.Inv) (hreaders : s.readers = 0) {r : Registry}
    (hr : ∃ bos, r.Inv bos) : State.Inv { s with reg := r } := by
  obtain ⟨S, T, hc⟩ := h.counts
  refine ⟨hr, ⟨S, T, hc.counted, hc.leaving, hc.recursion, hc.mutex, hc.down, hc.unused, hc.shared⟩,
    ?_⟩
  intro i start stop called hi
  have := hc.readers_pos hi
  omega

theorem State.Inv.step (h : s.Inv) {e : Event} (hs : s.step e = some s') : s'.Inv := by
  obtain ⟨bos, hreg⟩ := h.reg
  obtain ⟨S, T, hc⟩ := h.counts
  cases e with
  | register b addr size newNode =>
    simp only [State.step] at hs
    split at hs <;> cases hs
    case isTrue.refl hg =>
      obtain ⟨-, hreaders, hb, hsize, -, hnew⟩ := hg
      exact h.setReg hreaders (hreg.register hb hsize fun m hm => hnew m hm)
  | unregister b =>
    simp only [State.step] at hs
    split at hs
    case isFalse => cases hs
    case isTrue hg =>
      obtain ⟨r, bos', hr, hinv⟩ := hreg.unregister (b := b)
      rw [hr] at hs
      cases hs
      exact h.setReg hg.2 ⟨bos', hinv⟩
  | lock =>
    simp only [State.step] at hs
    split at hs <;> cases hs
    exact ⟨h.reg, ⟨S, T, hc.counted, hc.leaving, hc.recursion, hc.mutex, hc.down, hc.unused,
      hc.shared⟩, h.notified⟩
  | unlock =>
    simp only [State.step] at hs
    split at hs <;> cases hs
    exact ⟨h.reg, ⟨S, T, hc.counted, hc.leaving, hc.recursion, hc.mutex, hc.down, hc.unused,
      hc.shared⟩, h.notified⟩
  | rangeStart i start stop blockable =>
    simp only [State.step] at hs
    split at hs <;> cases hs
    case isTrue.refl hq =>
      exact ⟨h.reg, ⟨S, T, hc.still hq rfl rfl ⟨by simp, by simp⟩ ⟨rfl, rfl⟩ ⟨rfl, rfl⟩
        (.inl ⟨rfl, rfl⟩)⟩, h.notified.setCall rfl rfl (by simp)⟩
  | advance i fuel => exact h.advance hs
  | rangeEnd i =>
    simp only [State.step] at hs
    cases hq : s.call i with
    | active start stop called =>
      simp only [hq] at hs
      cases hs
      exact ⟨h.reg, hc.readUnlock hq rfl rfl rfl, h.notified.readUnlock⟩
    | _ => simp [hq] at hs

theorem State.Inv.initial (h : s.Init) : s.Inv := by
  refine ⟨⟨fun _ => [], ⟨?_, ?_, ?_, ?_, ?_, h.clean⟩, ⟨?_, ?_, ?_, ?_⟩, ?_⟩,
    ⟨∅, ∅, ?_, ?_, ?_, ?_, ?_, ?_, ?_⟩, ?_⟩
  all_goals simp [Registry.heads, State.Notified, h.objects, h.mn, h.nodes, h.call, h.readers,
    h.recursion, h.readLock, Phase.counted, Phase.inMutex, Phase.isDown]

theorem Registry.Inv.complete {r : Registry} {bos : Addr → List ℕ} (h : r.Inv bos) :
    r.Complete := by
  refine ⟨fun n => bos (.node n), fun n hn => ⟨h.held.circle _ (by simpa using hn),
    h.tree.nonempty n hn, (h.nodes n).mpr hn⟩, h.tree.disjoint, fun b hb => ?_,
    fun n hn b hin => ⟨(h.held.listed b).mpr ⟨.node n, by simpa using hn, hin⟩,
      h.tree.contains n hn b hin⟩, h.tree.clean⟩
  obtain ⟨_, ⟨n, hn, rfl⟩, hin⟩ := (h.held.listed b).mp hb
  refine ⟨n, ⟨hn, hin⟩, fun m hm => ?_⟩
  have := h.held.unique (.node m) (by simpa using hm.1) (.node n) (by simpa using hn) b hm.2 hin
  simpa using this

theorem State.Inv.proceeds (h : s.Inv) : s.Proceeds := by
  obtain ⟨bos, hreg⟩ := h.reg
  refine ⟨fun b => ?_, fun i start stop hi => ?_⟩
  · obtain ⟨r, -, hr, -⟩ := hreg.unregister (b := b)
    simp [hr]
  · obtain ⟨called, ⟨fuel, hfuel⟩, -⟩ := hreg.invalidated start (inclusive stop)
    exact ⟨fuel, by simp [State.advance, hi, hfuel fuel le_rfl]⟩

/-- Whatever BOs are registered and unregistered, and however invalidations overlap, the nodes are
complete, every invalidation reaches all BOs that it meets, and the read side of the lock is held
as long as there are invalidations. -/
theorem registration_complete (h : s.Reachable) :
    s.reg.Complete ∧ s.Notified ∧ s.Proceeds ∧ s.HeldExactly := by
  have hinv : s.Inv := Transition.Reach.invariant (fun _ hi => .initial hi)
    (fun _ _ _ h _ hs => h.step hs) h
  obtain ⟨bos, hreg⟩ := hinv.reg
  obtain ⟨S, T, hcounts⟩ := hinv.counts
  exact ⟨hreg.complete, hinv.notified, hinv.proceeds, hcounts.heldExactly⟩

/-- No BOs. -/
def fresh : State where
  reg := ⟨⟨id, id⟩, fun _ => ⟨0, 0⟩, [], ∅, fun _ => false, fun _ => ⟨0, 0⟩, True⟩
  writer := false
  readers := 0
  readLock := none
  recursion := 0
  call := fun _ => .idle

theorem fresh_init : fresh.Init :=
  ⟨rfl, rfl, fun _ => rfl, trivial, rfl, rfl, rfl, rfl, fun _ => rfl⟩

/-- Two BOs apart, a third one that meets both of them, and an invalidation of one byte of it. -/
def mergedRun : List Event :=
  [.register 0 0 4 (some 0), .register 1 8 4 (some 1), .register 2 2 8 (some 2),
    .rangeStart 0 5 6 true, .advance 0 8, .advance 0 8, .advance 0 8, .advance 0 8, .advance 0 8]

theorem registration_complete_merged :
    ∃ s : State, s.Reachable ∧ s.reg.objects = [1] ∧ s.call 0 = .active 5 6 [2, 1, 0] ∧ s.reg.Complete := by
  have hrun : ∃ s, mergedRun.foldlM State.step fresh = some s ∧ s.reg.objects = [1] ∧
      s.call 0 = .active 5 6 [2, 1, 0] := ⟨_, rfl, rfl, rfl⟩
  obtain ⟨s, hs, hobjects, hcall⟩ := hrun
  have hreach : s.Reachable :=
    Transition.Reach.foldlM (.start fresh_init) (fun _ _ _ => trivial) hs
  exact ⟨s, hreach, hobjects, hcall, (registration_complete hreach).1⟩

end Gsgpu.Mn
