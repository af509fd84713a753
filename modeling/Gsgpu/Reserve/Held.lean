import Gsgpu.Reserve.Machine

/-! Which locks a call has at each point: those of the entries before the next one, each once. -/
namespace Gsgpu.Reserve

namespace Phase

/-- The entries whose locks a call has. -/
def held : Phase → List ℕ
  | .lock before _ => before
  | .writers e before _ => before ++ [e]
  | .share e waited before _ => if waited then [e] else before ++ [e]
  | .back ret e left _ _ => if ret = .nomem then left ++ [e] else left
  | .failed ret e => if ret = .nomem then [e] else []
  | .reserved list | .release _ list => list
  | .idle | .slow .. | .finished => []

/-- Of these, the ones that need no slot any more. -/
def ready : Phase → List ℕ
  | .lock before _ | .writers _ before _ => before
  | .share _ waited before _ => if waited then [] else before
  | .reserved list | .release _ list => list
  | _ => []

/-- Of these, the ones whose `cpu_writers` were looked at, and perhaps the first. -/
def checked : Phase → List ℕ
  | .lock before _ | .writers _ before _ => before
  | .share e waited before _ => if waited then [e] else before ++ [e]
  | .reserved list | .release _ list => list
  | _ => []

/-- Of these, the ones whose BOs are off their LRU lists. -/
def offLru : Phase → List ℕ
  | .reserved list | .release _ list => list
  | _ => []

/-- The list of the call, as long as it is one. -/
def entries : Phase → Option (List ℕ)
  | .lock before rest => some (before ++ rest)
  | .writers e before rest | .share e _ before rest | .back _ e _ before rest
  | .slow e before rest => some (before ++ e :: rest)
  | .reserved list => some list
  | _ => none

end Phase

/-- What holds of a call that it alone can change. -/
structure Holds (w : Buffers) (st : State) (i : ℕ) : Prop where
  owned : ∀ l, st.owner l = some (.call i) ↔ l ∈ ((st.call i).phase.held).map w.lock
  nodup : (((st.call i).phase.held).map w.lock).Nodup
  slots : ∀ e ∈ (st.call i).phase.ready, w.shared e → st.slot (w.lock e)
  off : ∀ e ∈ (st.call i).phase.offLru, st.lru (w.bo e) = false
  writers : ∀ e ∈ (st.call i).phase.checked.tail, st.cpuWriters (w.bo e) = 0
  entries : ∀ v, (st.call i).phase.entries = some v →
    (v ++ (st.call i).dups).Perm (st.call i).list ∧
      ∀ d ∈ (st.call i).dups, w.lock d ∈ v.map w.lock
  stamp : ∀ s, (st.call i).ticket = some s → s < st.next

/-- What a step of `o` leaves to all calls but itself. -/
structure Frame (w : Buffers) (o : Owner) (st st' : State) : Prop where
  call : ∀ k, o ≠ .call k → st'.call k = st.call k
  owner : ∀ k, o ≠ .call k → ∀ l, st'.owner l = some (.call k) ↔ st.owner l = some (.call k)
  slot : ∀ k, o ≠ .call k → ∀ l, st.owner l = some (.call k) → st'.slot l = st.slot l
  lru : ∀ k, o ≠ .call k → ∀ b, st.owner (w.resv b) = some (.call k) → st'.lru b = st.lru b
  writers : ∀ k, o ≠ .call k → ∀ b, st.owner (w.resv b) = some (.call k) →
    st'.cpuWriters b ≤ st.cpuWriters b
  next : st.next ≤ st'.next

variable {w : Buffers} {st st' : State} {i : ℕ}

theorem Phase.mem_held_of_ready {p : Phase} {e : ℕ} (h : e ∈ p.ready) : e ∈ p.held := by
  cases p with
  | share x waited before rest => cases waited <;> simp_all [ready, held]
  | _ => simp_all [ready, held]

theorem Phase.mem_held_of_checked {p : Phase} {e : ℕ} (h : e ∈ p.checked) : e ∈ p.held := by
  cases p with
  | share x waited before rest => cases waited <;> simp_all [checked, held]
  | _ => simp_all [checked, held]

theorem Phase.mem_held_of_offLru {p : Phase} {e : ℕ} (h : e ∈ p.offLru) : e ∈ p.held := by
  cases p <;> simp_all [offLru, held]

theorem Holds.owns (h : Holds w st i) {e : ℕ} (he : e ∈ (st.call i).phase.held) :
    st.owner (w.lock e) = some (.call i) :=
  (h.owned _).mpr (List.mem_map_of_mem he)

theorem Holds.frame (h : Holds w st i) {o : Owner} (hf : Frame w o st st') (ho : o ≠ .call i) :
    Holds w st' i := by
  have hcall := hf.call i ho
  constructor
  case owned =>
    intro l
    rw [hf.owner i ho, hcall]
    exact h.owned l
  case nodup => exact hcall ▸ h.nodup
  case slots =>
    intro e he hshared
    rw [hcall] at he
    rw [hf.slot i ho _ (h.owns (Phase.mem_held_of_ready he))]
    exact h.slots e he hshared
  case off =>
    intro e he
    rw [hcall] at he
    rw [hf.lru i ho _ (h.owns (Phase.mem_held_of_offLru he))]
    exact h.off e he
  case writers =>
    intro e he
    rw [hcall] at he
    have hle := hf.writers i ho _ (h.owns (Phase.mem_held_of_checked (List.mem_of_mem_tail he)))
    rw [h.writers e he] at hle
    exact Nat.le_zero.mp hle
  case entries => exact hcall ▸ h.entries
  case stamp =>
    intro s hs
    rw [hcall] at hs
    exact Nat.lt_of_lt_of_le (h.stamp s hs) hf.next

namespace State

theorem boReserve_none {l : ℕ} {signal : Bool} (h : st.boReserve i l signal = some none) :
    st.owner l = none := by
  unfold boReserve at h
  grind

theorem boReserve_already {l : ℕ} {signal : Bool}
    (h : st.boReserve i l signal = some (some .already)) : st.owner l = some (.call i) := by
  unfold boReserve at h
  grind

theorem boReserve_ne_nomem {l : ℕ} {signal : Bool} :
    st.boReserve i l signal ≠ some (some .nomem) := by
  unfold boReserve
  grind

end State

namespace Frame

variable {o : Owner}

theorem refl (st : State) : Frame w o st st :=
  ⟨fun _ _ => rfl, fun _ _ _ => Iff.rfl, fun _ _ _ _ => rfl, fun _ _ _ _ => rfl,
    fun _ _ _ _ => Nat.le_refl _, Nat.le_refl _⟩

theorem trans {st'' : State} (h : Frame w o st st') (h' : Frame w o st' st'') :
    Frame w o st st'' where
  call k hk := (h'.call k hk).trans (h.call k hk)
  owner k hk l := (h'.owner k hk l).trans (h.owner k hk l)
  slot k hk l hl := (h'.slot k hk l ((h.owner k hk l).mpr hl)).trans (h.slot k hk l hl)
  lru k hk b hb := (h'.lru k hk b ((h.owner k hk _).mpr hb)).trans (h.lru k hk b hb)
  writers k hk b hb :=
    Nat.le_trans (h'.writers k hk b ((h.owner k hk _).mpr hb)) (h.writers k hk b hb)
  next := Nat.le_trans h.next h'.next

theorem setCall (st : State) (i : ℕ) (c : Call) : Frame w (.call i) st (st.setCall i c) where
  call k hk := by
    have hne : k ≠ i := fun heq => hk (heq ▸ rfl)
    exact Function.update_of_ne hne ..
  owner _ _ _ := Iff.rfl
  slot _ _ _ _ := rfl
  lru _ _ _ _ := rfl
  writers _ _ _ _ := Nat.le_refl _
  next := Nat.le_refl _

/-- A lock that is free or one's own, of which one takes or gives up the ownership. -/
theorem setOwner {l : ℕ} (hl : st.owner l = none ∨ st.owner l = some o) {o' : Option Owner}
    (ho : o' = none ∨ o' = some o) : Frame w o st (st.setOwner l o') where
  call _ _ := rfl
  owner k hk m := by
    by_cases hm : m = l
    · subst hm
      simp only [State.setOwner, Function.update_self]
      grind
    · simp [State.setOwner, Function.update_of_ne hm]
  slot _ _ _ _ := rfl
  lru _ _ _ _ := rfl
  writers _ _ _ _ := Nat.le_refl _
  next := Nat.le_refl _

/-- What is done to a reservation object of one's own. -/
theorem setSlot {l : ℕ} (hl : st.owner l = some o) (x : Bool) :
    Frame w o st { st with slot := Function.update st.slot l x } where
  call _ _ := rfl
  owner _ _ _ := Iff.rfl
  slot k hk m hm := by
    have hne : m ≠ l := fun heq => hk (Option.some.inj (hl.symm.trans (heq ▸ hm)))
    exact Function.update_of_ne hne ..
  lru _ _ _ _ := rfl
  writers _ _ _ _ := Nat.le_refl _
  next := Nat.le_refl _

/-- BOs that one has reserved are taken off their LRU lists or put there. -/
theorem setLru {lru : ℕ → Bool} (hlru : ∀ b, lru b ≠ st.lru b → st.owner (w.resv b) = some o) :
    Frame w o st { st with lru := lru } where
  call _ _ := rfl
  owner _ _ _ := Iff.rfl
  slot _ _ _ _ := rfl
  lru k hk b hb := by
    by_contra hne
    exact hk (Option.some.inj ((hlru b hne).symm.trans hb))
  writers _ _ _ _ := Nat.le_refl _
  next := Nat.le_refl _

/-- The number of CPU writers grows only of a BO that nobody has reserved. -/
theorem setWriters {writers : ℕ → ℕ}
    (hw : ∀ b, st.cpuWriters b < writers b → st.owner (w.resv b) = none) :
    Frame w o st { st with cpuWriters := writers } where
  call _ _ := rfl
  owner _ _ _ := Iff.rfl
  slot _ _ _ _ := rfl
  lru _ _ _ _ := rfl
  writers k hk b hb := by
    apply Nat.le_of_not_lt
    intro hlt
    rw [hw b hlt] at hb
    cases hb
  next := Nat.le_refl _

/-- `reservation_object_add_shared_fence` and `reservation_object_add_excl_fence`. -/
theorem addFence {l : ℕ} (hl : st.owner l = some o) (i : ℕ) (shared : Bool) :
    Frame w o st (st.addFence i l shared) := by
  cases shared with
  | false => constructor <;> simp [State.addFence]
  | true =>
    have hslot := setSlot (w := w) hl false
    exact ⟨hslot.call, hslot.owner, hslot.slot, hslot.lru, hslot.writers, hslot.next⟩

/-- `ttm_bo_add_to_lru`. -/
theorem addToLru {b : ℕ} (hb : st.owner (w.resv b) = some o) (noEvict : Bool) :
    Frame w o st (st.addToLru b noEvict) := by
  unfold State.addToLru
  split
  · exact refl st
  · apply setLru
    intro b' hb'
    by_cases hbb : b' = b
    · rwa [hbb]
    · exact absurd (Function.update_of_ne hbb ..) hb'

end Frame

namespace State

@[simp] theorem call_setPhase (st : State) (i : ℕ) (phase : Phase) :
    (st.setPhase i phase).call i = { st.call i with phase := phase } := Function.update_self ..

@[simp] theorem call_setOwner (st : State) (l : ℕ) (o : Option Owner) :
    (st.setOwner l o).call = st.call := rfl

theorem frame_setPhase (st : State) (i : ℕ) (phase : Phase) :
    Frame w (.call i) st (st.setPhase i phase) := Frame.setCall ..

/-- A step changes for the other calls only what they may have changed under them. -/
theorem step_frame (h : ∀ k, Holds w st k) {ev : Event} (hstep : st.step w ev = some st') :
    Frame w ev.mover st st' := by
  cases ev with
  | reserve i ticket intr dups list =>
    simp only [step, reserve] at hstep
    split at hstep
    · split at hstep
      · cases hstep
        exact Frame.setCall ..
      · split at hstep
        · cases hstep
          have hcall := Frame.setCall (w := w) st i
            ⟨some st.next, intr, dups, list, [], .lock [] list⟩
          exact ⟨hcall.call, hcall.owner, hcall.slot, hcall.lru, hcall.writers, Nat.le_succ _⟩
        · cases hstep
          exact Frame.setCall ..
    · cases hstep
  | lock i signal =>
    simp only [step, lock] at hstep
    split at hstep
    · next e rest hphase =>
      obtain ⟨ret, hret, rfl⟩ := Option.map_eq_some_iff.mp hstep
      cases ret with
      | none =>
        apply (Frame.setOwner (.inl (boReserve_none hret)) (.inr rfl)).trans
        exact frame_setPhase ..
      | some ret =>
        dsimp only
        split
        · exact Frame.setCall ..
        · exact frame_setPhase ..
    · cases hstep
  | writers i =>
    simp only [step, writers] at hstep
    split at hstep
    · next e before rest hphase =>
      split at hstep
      · cases hstep
        have howner := (h i).owns (e := e) (by simp [hphase, Phase.held])
        exact (Frame.setOwner (.inr howner) (.inl rfl)).trans (frame_setPhase ..)
      · split at hstep <;> cases hstep <;> exact frame_setPhase ..
    · cases hstep
  | share i ok =>
    simp only [step, share] at hstep
    split at hstep
    · next e waited before rest hphase =>
      have howner := (h i).owns (e := e) (by cases waited <;> simp [hphase, Phase.held])
      split at hstep
      · cases hstep
        exact (Frame.setSlot howner true).trans (frame_setPhase ..)
      · split at hstep <;> cases hstep <;> exact frame_setPhase ..
    · cases hstep
  | back i =>
    simp only [step, back] at hstep
    split at hstep
    · next ret e left before rest hphase =>
      split at hstep
      · next x hx =>
        cases hstep
        have howner : st.owner (w.lock x) = some (.call i) := by
          apply (h i).owns
          have hmem := List.mem_of_getLast? hx
          simp only [hphase, Phase.held]
          split
          · exact List.mem_append_left _ hmem
          · exact hmem
        exact (Frame.setOwner (.inr howner) (.inl rfl)).trans (frame_setPhase ..)
      · split at hstep <;> cases hstep <;> exact frame_setPhase ..
    · cases hstep
  | slow i signal =>
    simp only [step, slow] at hstep
    split at hstep
    · next e before rest hphase =>
      split at hstep
      · next hfree =>
        cases hstep
        apply (Frame.setOwner (.inl (Option.isNone_iff_eq_none.mp hfree)) (.inr rfl)).trans
        exact frame_setPhase ..
      · split at hstep <;> cases hstep
        exact frame_setPhase ..
    · cases hstep
  | finish i =>
    simp only [step, finish] at hstep
    split at hstep
    · next before hphase =>
      cases hstep
      apply Frame.trans (Frame.setLru _) (frame_setPhase ..)
      intro b hb
      have hmem : b ∈ before.map w.bo := by
        by_contra hmem
        simp [hmem] at hb
      obtain ⟨e, he, rfl⟩ := List.mem_map.mp hmem
      exact (h i).owns (by simpa [hphase, Phase.held] using he)
    · cases hstep
  | leave i fence =>
    simp only [step, leave] at hstep
    split at hstep
    · cases hstep
      exact frame_setPhase ..
    · cases hstep
  | unlock i noEvict =>
    simp only [step, unlock] at hstep
    split at hstep
    · next fence e todo hphase =>
      cases hstep
      have howner := (h i).owns (e := e) (by simp [hphase, Phase.held])
      have hfence : Frame w (.call i) st
          (if fence then st.addFence i (w.lock e) (w.shared e) else st) := by
        split
        · exact Frame.addFence howner ..
        · exact Frame.refl st
      apply (hfence.trans (Frame.addToLru _ noEvict)).trans
      · apply (Frame.setOwner (.inr _) (.inl rfl)).trans (frame_setPhase ..)
        unfold addToLru
        split <;> split <;> exact howner
      · split <;> exact howner
    · cases hstep
      exact frame_setPhase ..
    · cases hstep
  | grab b =>
    simp only [step, grab] at hstep
    split at hstep
    · next hfree =>
      cases hstep
      apply Frame.setWriters
      intro b' hb'
      by_cases hbb : b' = b
      · subst hbb
        exact Option.isNone_iff_eq_none.mp hfree
      · simp [Function.update_of_ne hbb] at hb'
    · cases hstep
  | drop b =>
    simp only [step, drop] at hstep
    split at hstep
    · cases hstep
      apply Frame.setWriters
      intro b' hb'
      by_cases hbb : b' = b
      · subst hbb
        rw [Function.update_self] at hb'
        omega
      · simp [Function.update_of_ne hbb] at hb'
    · cases hstep
  | take l =>
    simp only [step, take] at hstep
    split at hstep
    · next hfree =>
      cases hstep
      exact Frame.setOwner (.inl (Option.isNone_iff_eq_none.mp hfree)) (.inr rfl)
    · cases hstep
  | put l slot =>
    simp only [step, put] at hstep
    split at hstep
    · next howner =>
      cases hstep
      apply (Frame.setSlot howner slot).trans
      apply Frame.setOwner
      · exact .inr howner
      · exact .inl rfl
    · cases hstep
  | touch b lru =>
    simp only [step, touch] at hstep
    split at hstep
    · next howner =>
      cases hstep
      apply Frame.setLru
      intro b' hb'
      by_cases hbb : b' = b
      · rwa [hbb]
      · exact absurd (Function.update_of_ne hbb ..) hb'
    · cases hstep

end State

namespace State

variable (st : State) (p : Phase)

@[simp] theorem owner_setPhase : (st.setPhase i p).owner = st.owner := rfl
@[simp] theorem slot_setPhase : (st.setPhase i p).slot = st.slot := rfl
@[simp] theorem lru_setPhase : (st.setPhase i p).lru = st.lru := rfl
@[simp] theorem cpuWriters_setPhase : (st.setPhase i p).cpuWriters = st.cpuWriters := rfl
@[simp] theorem next_setPhase : (st.setPhase i p).next = st.next := rfl

variable (l b : ℕ) (x : Bool)

@[simp] theorem owner_addFence : (st.addFence i l x).owner = st.owner := rfl
@[simp] theorem lru_addFence : (st.addFence i l x).lru = st.lru := rfl
@[simp] theorem cpuWriters_addFence : (st.addFence i l x).cpuWriters = st.cpuWriters := rfl
@[simp] theorem call_addFence : (st.addFence i l x).call = st.call := rfl
@[simp] theorem next_addFence : (st.addFence i l x).next = st.next := rfl

theorem slot_addFence {m : ℕ} (hm : m ≠ l) : (st.addFence i l x).slot m = st.slot m := by
  cases x with
  | false => rfl
  | true => exact Function.update_of_ne hm ..

@[simp] theorem owner_addToLru : (st.addToLru b x).owner = st.owner := by cases x <;> rfl
@[simp] theorem slot_addToLru : (st.addToLru b x).slot = st.slot := by cases x <;> rfl
@[simp] theorem cpuWriters_addToLru : (st.addToLru b x).cpuWriters = st.cpuWriters := by
  cases x <;> rfl
@[simp] theorem call_addToLru : (st.addToLru b x).call = st.call := by cases x <;> rfl
@[simp] theorem next_addToLru : (st.addToLru b x).next = st.next := by cases x <;> rfl

theorem lru_addToLru {c : ℕ} (hc : c ≠ b) : (st.addToLru b x).lru c = st.lru c := by
  cases x with
  | false => exact Function.update_of_ne hc ..
  | true => rfl

end State

namespace Holds

variable {p : Phase}

/-- The list may be in another order. -/
theorem entries_perm (h : Holds w st i) {v v' : List ℕ}
    (hv' : (st.call i).phase.entries = some v') (hperm : v.Perm v') :
    (v ++ (st.call i).dups).Perm (st.call i).list ∧
      ∀ d ∈ (st.call i).dups, w.lock d ∈ v.map w.lock := by
  obtain ⟨hlist, hdups⟩ := h.entries v' hv'
  exact ⟨(hperm.append_right _).trans hlist, fun d hd => (hperm.map _).mem_iff.mpr (hdups d hd)⟩

/-- A slot is reserved. -/
theorem reserveSlot (h : Holds w st i) (l : ℕ) :
    Holds w { st with slot := Function.update st.slot l true } i := by
  obtain ⟨owned, nodup, slots, off, writers, entries, stamp⟩ := h
  refine ⟨owned, nodup, ?_, off, writers, entries, stamp⟩
  intro e he hshared
  by_cases hl : w.lock e = l
  · simp [hl]
  · simpa [Function.update_of_ne hl] using slots e he hshared

/-- The locks of a call stay as they are. -/
theorem keep (h : Holds w st i) (hheld : p.held = (st.call i).phase.held)
    (hready : ∀ e ∈ p.ready, e ∈ (st.call i).phase.ready ∨ (w.shared e → st.slot (w.lock e)))
    (hoff : ∀ e ∈ p.offLru, e ∈ (st.call i).phase.offLru)
    (hchecked : ∀ e ∈ p.checked.tail,
      e ∈ (st.call i).phase.checked.tail ∨ st.cpuWriters (w.bo e) = 0)
    (hentries : ∀ v, p.entries = some v → ∃ v', (st.call i).phase.entries = some v' ∧ v.Perm v') :
    Holds w (st.setPhase i p) i := by
  constructor
  case owned => simpa [hheld] using h.owned
  case nodup => simpa [hheld] using h.nodup
  case slots =>
    intro e he hshared
    rw [State.call_setPhase] at he
    obtain he | hslot := hready e he
    · exact h.slots e he hshared
    · exact hslot hshared
  case off =>
    intro e he
    rw [State.call_setPhase] at he
    exact h.off e (hoff e he)
  case writers =>
    intro e he
    rw [State.call_setPhase] at he
    obtain he | hzero := hchecked e he
    · exact h.writers e he
    · exact hzero
  case entries =>
    intro v hv
    rw [State.call_setPhase] at hv ⊢
    obtain ⟨v', hv', hperm⟩ := hentries v hv
    exact h.entries_perm hv' hperm
  case stamp => simpa using h.stamp

/-- A free lock is taken, of an entry of the list. -/
theorem acquire (h : Holds w st i) {e : ℕ} (hfree : st.owner (w.lock e) = none)
    (hheld : p.held = (st.call i).phase.held ++ [e])
    (hready : ∀ x ∈ p.ready, x ∈ (st.call i).phase.ready ∨ (w.shared x → st.slot (w.lock x)))
    (hoff : p.offLru = []) (hchecked : p.checked.tail = (st.call i).phase.checked.tail)
    (hentries : ∀ v, p.entries = some v → ∃ v', (st.call i).phase.entries = some v' ∧ v.Perm v') :
    Holds w ((st.setOwner (w.lock e) (some (.call i))).setPhase i p) i := by
  have hnot : w.lock e ∉ (st.call i).phase.held.map w.lock := by
    rw [← h.owned, hfree]
    simp
  constructor
  case owned =>
    intro l
    simp only [State.owner_setPhase, State.call_setPhase, hheld, List.map_append, List.mem_append]
    by_cases hl : l = w.lock e
    · simp [hl, State.setOwner]
    · simp [State.setOwner, h.owned, hl]
  case nodup =>
    simp only [State.call_setPhase, hheld, List.map_append]
    exact List.nodup_append.mpr ⟨h.nodup, by simp, by grind⟩
  case slots =>
    intro x hx hshared
    rw [State.call_setPhase] at hx
    obtain hx | hslot := hready x hx
    · exact h.slots x hx hshared
    · exact hslot hshared
  case off => simp [hoff]
  case writers =>
    intro x hx
    rw [State.call_setPhase, hchecked] at hx
    exact h.writers x hx
  case entries =>
    intro v hv
    rw [State.call_setPhase] at hv ⊢
    obtain ⟨v', hv', hperm⟩ := hentries v hv
    exact h.entries_perm hv' hperm
  case stamp => simpa [State.setOwner] using h.stamp

/-- A lock is dropped. -/
theorem release (h : Holds w st i) {e : ℕ} (hheld : (st.call i).phase.held.Perm (e :: p.held))
    (hst : ∀ m, st'.owner m = if m = w.lock e then none else st.owner m)
    (hcall : st'.call i = { st.call i with phase := p }) (hnext : st'.next = st.next)
    (hslot : ∀ x ∈ p.ready, w.shared x → st'.slot (w.lock x))
    (hoff : ∀ x ∈ p.offLru, st'.lru (w.bo x) = false)
    (hchecked : ∀ x ∈ p.checked.tail, st'.cpuWriters (w.bo x) = 0)
    (hentries : ∀ v, p.entries = some v → (st.call i).phase.entries = some v) :
    Holds w st' i := by
  have hmap := hheld.map w.lock
  have hnodup := hmap.nodup_iff.mp h.nodup
  rw [List.map_cons, List.nodup_cons] at hnodup
  constructor
  case owned =>
    intro l
    rw [hst, hcall]
    by_cases hl : l = w.lock e
    · simpa [hl] using hnodup.1
    · rw [if_neg hl, h.owned, hmap.mem_iff, List.map_cons, List.mem_cons]
      simp [hl]
  case nodup => exact hcall ▸ hnodup.2
  case slots => exact hcall ▸ hslot
  case off => exact hcall ▸ hoff
  case writers => exact hcall ▸ hchecked
  case entries =>
    intro v hv
    rw [hcall] at hv ⊢
    exact h.entries v (hentries v hv)
  case stamp => simpa [hcall, hnext] using h.stamp

end Holds
end Gsgpu.Reserve
