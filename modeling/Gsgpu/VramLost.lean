import Gsgpu.Basic
import Mathlib.Algebra.Group.Pi.Basic
import Mathlib.Algebra.Order.Group.Int
import Mathlib.Algebra.Ring.Int.Defs
import Mathlib.Data.Nat.Find

/-! `gsgpu_device_handle_vram_lost`: after a reset the buffers in VRAM are copied back from their
shadows. While the copy of one buffer runs, the next one is submitted. -/
namespace Gsgpu.VramLost

/-- A buffer of the shadow list, and what the steps of its recovery come to. -/
structure Bo where
  shadow : Bool
  inVram : Bool
  reserve : Except Errno Unit
  validate : Except Errno Unit
  reserveShared : Except Errno Unit
  copyBuffer : Except Errno Unit

/-- `gsgpu_bo_restore_from_shadow`; the fence of a copy that has been submitted is the one of the
`i`-th buffer. -/
def boRestoreFromShadow (bo : Bo) (i : ℕ) : Except Errno Unit × Option ℕ :=
  if !bo.shadow then (.error .einval, none)
  else
    match bo.reserveShared with
    | .error e => (.error e, none)
    | .ok _ =>
      match bo.copyBuffer with
      | .error e => (.error e, none)
      | .ok _ => (.ok (), some i)

/-- `gsgpu_device_recover_vram_from_shadow`. -/
def recoverVramFromShadow (bo : Bo) (i : ℕ) : Except Errno Unit × Option ℕ :=
  if !bo.shadow then (.ok (), none)
  else
    match bo.reserve with
    | .error e => (.error e, none)
    | .ok _ =>
      -- a buffer that has been evicted is not recovered
      if bo.inVram then
        match bo.validate with
        | .error e => (.error e, none)
        | .ok _ => boRestoreFromShadow bo i
      else (.ok (), none)

/-- The variables of the function. Remembered here only: the copies that have been submitted, those
whose fence has been waited for until it signaled, and the references to fences. -/
structure State where
  r : ℤ
  fence : Option ℕ
  submitted : List ℕ
  signaled : List ℕ
  refs : ℕ → ℤ

def State.start : State := ⟨1, none, [], [], 0⟩

/-- The result of the recovery is not looked at, only the fence it leaves in `next`. -/
def State.submit (s : State) (next : Option ℕ) : State :=
  match next with
  | none => s
  | some k => { s with submitted := k :: s.submitted, refs := s.refs + Pi.single k 1 }

/-- `dma_fence_wait_timeout`: `wait k` is what is left of the time, or not positive. -/
def State.waitFence (wait : ℕ → ℤ) (s : State) (k : ℕ) : State :=
  { s with r := wait k, signaled := if 0 < wait k then k :: s.signaled else s.signaled }

/-- `dma_fence_put`, which takes a null pointer. -/
def State.put (s : State) (fence : Option ℕ) : State :=
  match fence with
  | none => s
  | some k => { s with refs := s.refs - Pi.single k 1 }

/-- The loop over the shadow list, from the `i`-th buffer on. -/
def recoverLoop (wait : ℕ → ℤ) : ℕ → List Bo → State → State
  | _, [], s => s
  | i, bo :: bos, s =>
    let next := (recoverVramFromShadow bo i).2
    let s := s.submit next
    match s.fence with
    | none => recoverLoop wait (i + 1) bos { s with fence := next }
    | some k =>
      let s := s.waitFence wait k
      if s.r < 1 then { s.put (some k) with fence := next }
      else recoverLoop wait (i + 1) bos { s.put (some k) with fence := next }

/-- The fence that is left after the loop. -/
def waitLast (wait : ℕ → ℤ) (s : State) : State :=
  match s.fence with
  | none => s
  | some k => (s.waitFence wait k).put (some k)

/-- `gsgpu_device_handle_vram_lost`, with the variables at its end. -/
def handleVramLost (wait : ℕ → ℤ) (bos : List Bo) : ℕ × State :=
  let s := waitLast wait (recoverLoop wait 0 bos .start)
  (if 0 < s.r then 0 else 1, s)

/-- The buffer has lost its contents. -/
def Bo.Lost (bo : Bo) : Prop := bo.shadow = true ∧ bo.inVram = true

/-- Every step of the recovery of the buffer succeeds, so that its copy is submitted. -/
def Bo.submits (bo : Bo) : Bool :=
  bo.shadow && bo.reserve.isOk && bo.inVram && bo.validate.isOk && bo.reserveShared.isOk &&
    bo.copyBuffer.isOk

/-- 0 is returned only if every buffer that has lost its contents has been copied back, else 1, and
no reference to a fence is left. -/
def Truthful (wait : ℕ → ℤ) (bos : List Bo) : Prop :=
  let out := handleVramLost wait bos
  (out.1 = 0 → ∀ k bo, bos[k]? = some bo → bo.Lost →
    k ∈ out.2.submitted ∧ k ∈ out.2.signaled) ∧
  (out.1 = 0 ∨ out.1 = 1) ∧ out.2.refs = 0

theorem recover_fence (bo : Bo) (i : ℕ) :
    (recoverVramFromShadow bo i).2 = if bo.submits then some i else none := by
  obtain ⟨shadow, inVram, reserve, validate, reserveShared, copyBuffer⟩ := bo
  cases shadow <;> cases inVram <;> cases reserve <;> cases validate <;> cases reserveShared <;>
    cases copyBuffer <;> rfl

theorem recover_fence_eq {bo : Bo} {i j : ℕ} (h : (recoverVramFromShadow bo i).2 = some j) :
    j = i := by
  rw [recover_fence] at h
  split at h
  · exact (Option.some.inj h).symm
  · cases h

theorem Bo.lost_of_submits {bo : Bo} (h : bo.submits = true) : bo.Lost := by
  simp only [Bo.submits, Bool.and_eq_true] at h
  exact ⟨h.1.1.1.1.1, h.1.1.1.2⟩

/-- The copies whose fences are waited for, if nothing goes wrong: the one that runs, and those of
the buffers from the `i`-th on. -/
def Ahead (fence : Option ℕ) (i : ℕ) (bos : List Bo) (k : ℕ) : Prop :=
  fence = some k ∨ ∃ j bo, bos[j]? = some bo ∧ bo.submits = true ∧ k = i + j

theorem ahead_nil {fence : Option ℕ} {i k : ℕ} : Ahead fence i [] k ↔ fence = some k := by
  simp [Ahead]

/-- The first buffer of the rest is the next whose copy runs. -/
theorem ahead_cons {fence : Option ℕ} {i k : ℕ} {bo : Bo} {bos : List Bo} :
    Ahead fence i (bo :: bos) k ↔
      fence = some k ∨ Ahead (recoverVramFromShadow bo i).2 (i + 1) bos k := by
  unfold Ahead
  refine or_congr_right ?_
  rw [recover_fence]
  constructor
  · rintro ⟨j, b, hb, hsub, rfl⟩
    cases j with
    | zero =>
      obtain rfl := Option.some.inj hb
      exact .inl (by simp [hsub])
    | succ j => exact .inr ⟨j, b, hb, hsub, by omega⟩
  · rintro (hk | ⟨j, b, hb, hsub, rfl⟩)
    · split at hk
      · next hsub => exact ⟨0, bo, rfl, hsub, (Option.some.inj hk).symm⟩
      · cases hk
    · exact ⟨j + 1, b, hb, hsub, by omega⟩

theorem Ahead.lt {fence : Option ℕ} {i k : ℕ} {bos : List Bo}
    (hfence : ∀ k, fence = some k → k + 1 = i) (h : Ahead fence i bos k) : k + 1 = i ∨ i ≤ k := by
  rcases h with h | ⟨j, -, -, -, rfl⟩
  · exact .inl (hfence k h)
  · exact .inr (Nat.le_add_right i j)

section Loop
variable {wait : ℕ → ℤ} {i k : ℕ} {bo : Bo} {bos : List Bo} {s : State}

@[simp] theorem submit_fence (s : State) (next : Option ℕ) : (s.submit next).fence = s.fence := by
  cases next <;> rfl

@[simp] theorem submit_r (s : State) (next : Option ℕ) : (s.submit next).r = s.r := by
  cases next <;> rfl

/-- A turn with no copy running. -/
theorem recoverLoop_idle (hf : s.fence = none) : recoverLoop wait i (bo :: bos) s =
    recoverLoop wait (i + 1) bos { s.submit (recoverVramFromShadow bo i).2 with
      fence := (recoverVramFromShadow bo i).2 } := by
  rw [recoverLoop]
  simp only [submit_fence, hf]

/-- The state after the wait for the copy of buffer `k`, with the next one running. -/
def State.advance (s : State) (wait : ℕ → ℤ) (k : ℕ) (next : Option ℕ) : State :=
  { ((s.submit next).waitFence wait k).put (some k) with fence := next }

/-- A turn that waits for the copy that runs. -/
theorem recoverLoop_busy (hf : s.fence = some k) : recoverLoop wait i (bo :: bos) s =
    if 0 < wait k then recoverLoop wait (i + 1) bos (s.advance wait k (recoverVramFromShadow bo i).2)
    else s.advance wait k (recoverVramFromShadow bo i).2 := by
  rw [recoverLoop]
  simp only [submit_fence, hf]
  by_cases hwait : 0 < wait k
  · rw [if_pos hwait, if_neg (by simp [State.waitFence]; omega)]
    rfl
  · rw [if_neg hwait, if_pos (by simp [State.waitFence]; omega)]
    rfl

/-- The reference to the fence of the copy that runs. -/
def fenceRef (fence : Option ℕ) : ℕ → ℤ := fence.elim 0 fun k => Pi.single k 1

@[simp] theorem submit_refs (s : State) (next : Option ℕ) :
    (s.submit next).refs = s.refs + fenceRef next := by
  cases next <;> simp [State.submit, fenceRef]

@[simp] theorem submit_signaled (s : State) (next : Option ℕ) :
    (s.submit next).signaled = s.signaled := by
  cases next <;> rfl

theorem mem_submitted {next : Option ℕ} (s : State) (h : next = some k) :
    k ∈ (s.submit next).submitted := by
  rw [h]
  exact List.mem_cons_self

theorem submitted_subset (s : State) (next : Option ℕ) :
    ∀ k ∈ s.submitted, k ∈ (s.submit next).submitted := by
  cases next with
  | none => exact fun k hk => hk
  | some j => exact fun k hk => List.mem_cons_of_mem j hk

/-- What the loop and the last wait come to, from the `i`-th buffer on. -/
structure Outcome (wait : ℕ → ℤ) (i : ℕ) (bos : List Bo) (s out : State) : Prop where
  refs : out.refs = s.refs - fenceRef s.fence
  submitted : ∀ k ∈ s.submitted, k ∈ out.submitted
  kept : ∀ k ∈ s.signaled, k ∈ out.signaled
  signaled : ∀ k ∈ out.signaled, k ∈ s.signaled ∨ Ahead s.fence i bos k ∧ 0 < wait k
  all : 0 < s.r → (∀ k, Ahead s.fence i bos k → 0 < wait k) →
    0 < out.r ∧ ∀ k, Ahead s.fence i bos k → k ∈ out.submitted ∧ k ∈ out.signaled
  first : ∀ k, Ahead s.fence i bos k → wait k ≤ 0 → (∀ j < k, Ahead s.fence i bos j → 0 < wait j) →
    (0 < out.r ↔ Ahead s.fence i bos (k + 1) ∧ 0 < wait (k + 1))

variable (wait i s) in
theorem waitLast_outcome (hfence : ∀ k, s.fence = some k → k ∈ s.submitted) :
    Outcome wait i [] s (waitLast wait s) := by
  unfold waitLast
  cases hf : s.fence with
  | none =>
    refine ⟨?_, fun _ h => h, fun _ h => h, fun _ h => .inl h, fun hr _ => ⟨hr, ?_⟩, ?_⟩
    · simp [hf, fenceRef]
    · intro k hk
      simp [hf, ahead_nil] at hk
    · intro k hk
      simp [hf, ahead_nil] at hk
  | some k =>
    have hahead : ∀ j, Ahead s.fence i [] j ↔ k = j := by simp [ahead_nil, hf]
    refine ⟨?_, fun _ h => h, ?_, ?_, ?_, ?_⟩
    · simp [State.put, State.waitFence, hf, fenceRef]
    · intro j hj
      simp only [State.put, State.waitFence]
      split
      · exact List.mem_cons_of_mem k hj
      · exact hj
    · intro j hj
      simp only [State.put, State.waitFence] at hj
      split at hj
      · next hwait =>
        rcases List.mem_cons.mp hj with rfl | hj
        · exact .inr ⟨(hahead j).mpr rfl, hwait⟩
        · exact .inl hj
      · exact .inl hj
    · intro _ hall
      have hwait := hall k ((hahead k).mpr rfl)
      refine ⟨hwait, fun j hj => ?_⟩
      obtain rfl := (hahead j).mp hj
      exact ⟨hfence k hf, by simp [State.put, State.waitFence, hwait]⟩
    · intro j hj hwait _
      obtain rfl := (hahead j).mp hj
      refine iff_of_false (Int.not_lt.mpr hwait) ?_
      rintro ⟨hnext, -⟩
      have := (hahead (k + 1)).mp hnext
      omega

theorem mem_advance_signaled {s : State} {next : Option ℕ} {j : ℕ} :
    j ∈ (s.advance wait k next).signaled ↔ j ∈ s.signaled ∨ j = k ∧ 0 < wait k := by
  simp only [State.advance, State.put, State.waitFence, submit_signaled]
  split
  · next h => simp [h, or_comm]
  · next h => simp [h]

theorem advance_refs (s : State) (next : Option ℕ) :
    (s.advance wait k next).refs = s.refs + fenceRef next - Pi.single k 1 := by
  simp [State.advance, State.put, State.waitFence]

/-- The copy that runs is waited for in vain: only the next one still is, which then decides. -/
theorem break_outcome (hf : s.fence = some k) (hk : k + 1 = i) (hwait : wait k ≤ 0) :
    Outcome wait i (bo :: bos) s
      (waitLast wait (s.advance wait k (recoverVramFromShadow bo i).2)) := by
  have hcons : ∀ j, Ahead s.fence i (bo :: bos) j ↔
      k = j ∨ Ahead (recoverVramFromShadow bo i).2 (i + 1) bos j := by
    intro j
    rw [ahead_cons, hf, Option.some.injEq]
  have hnext : ∀ j, (recoverVramFromShadow bo i).2 = some j → j = i := fun _ => recover_fence_eq
  generalize (recoverVramFromShadow bo i).2 = next at hcons hnext
  have hlast := waitLast_outcome wait (i + 1) (s.advance wait k next)
    fun j hj => mem_submitted s hj
  have hlt : ∀ j, Ahead next (i + 1) bos j → i ≤ j := by
    intro j hj
    have := hj.lt fun j hj => by rw [hnext j hj]
    omega
  refine ⟨?_, ?_, ?_, ?_, ?_, ?_⟩
  · rw [hlast.refs, advance_refs, hf]
    show s.refs + fenceRef next - Pi.single k 1 - fenceRef next = s.refs - Pi.single k 1
    rw [sub_right_comm, add_sub_cancel_right]
  · exact fun j hj => hlast.submitted j (submitted_subset s next j hj)
  · exact fun j hj => hlast.kept j (mem_advance_signaled.mpr (.inl hj))
  · intro j hj
    rcases hlast.signaled j hj with hj | ⟨hj, hw⟩
    · rcases mem_advance_signaled.mp hj with hj | ⟨rfl, hw⟩
      · exact .inl hj
      · omega
    · exact .inr ⟨(hcons j).mpr (.inr (.inl (ahead_nil.mp hj))), hw⟩
  · intro _ hall
    have := hall k ((hcons k).mpr (.inl rfl))
    omega
  · intro j hj hwj hfirst
    have hjk : j = k := by
      rcases (hcons j).mp hj with rfl | hj
      · rfl
      · have hij := hlt j hj
        have := hfirst k (by omega) ((hcons k).mpr (.inl rfl))
        omega
    subst hjk
    have hsucc : Ahead s.fence i (bo :: bos) (j + 1) ↔ next = some (j + 1) := by
      rw [hcons]
      constructor
      · rintro (heq | heq | ⟨l, b, hb, hsub, heq⟩)
        · omega
        · exact heq
        · omega
      · exact fun heq => .inr (.inl heq)
    rw [hsucc]
    cases hn : next with
    | none =>
      refine iff_of_false ?_ (by simp)
      simpa [waitLast, State.advance, State.put, State.waitFence] using hwait
    | some l =>
      obtain rfl := hnext l hn
      simp [waitLast, State.advance, State.put, State.waitFence, hk]

theorem recoverLoop_outcome (hfence : ∀ k, s.fence = some k → k + 1 = i ∧ k ∈ s.submitted) :
    Outcome wait i bos s (waitLast wait (recoverLoop wait i bos s)) := by
  induction bos generalizing i s with
  | nil =>
    exact waitLast_outcome wait i s fun k hk => (hfence k hk).2
  | cons bo bos ih =>
    have hnext : ∀ j, (recoverVramFromShadow bo i).2 = some j → j = i := fun _ => recover_fence_eq
    cases hf : s.fence with
    | none =>
      rw [recoverLoop_idle hf]
      have hrest := ih (i := i + 1) (s := { s.submit (recoverVramFromShadow bo i).2 with
        fence := (recoverVramFromShadow bo i).2 }) fun j hj =>
          ⟨by rw [hnext j hj], mem_submitted s hj⟩
      have hcons : ∀ j, Ahead s.fence i (bo :: bos) j ↔
          Ahead (recoverVramFromShadow bo i).2 (i + 1) bos j := by
        intro j
        simp [ahead_cons, hf]
      refine ⟨?_, ?_, ?_, ?_, ?_, ?_⟩
      · rw [hrest.refs, hf]
        simp [fenceRef]
      · exact fun j hj => hrest.submitted j (submitted_subset s _ j hj)
      · exact fun j hj => hrest.kept j (by simpa using hj)
      · intro j hj
        rw [hcons]
        simpa using hrest.signaled j hj
      · simp only [hcons]
        exact fun hr => hrest.all (by simpa using hr)
      · simp only [hcons]
        exact hrest.first
    | some k =>
      obtain ⟨hk, hsub⟩ := hfence k hf
      rw [recoverLoop_busy hf]
      split
      · next hwait =>
        have hrest := ih (i := i + 1) (s := s.advance wait k (recoverVramFromShadow bo i).2)
          fun j hj => ⟨by rw [hnext j hj], mem_submitted s hj⟩
        have hcons : ∀ j, Ahead s.fence i (bo :: bos) j ↔
            k = j ∨ Ahead (recoverVramFromShadow bo i).2 (i + 1) bos j := by
          intro j
          rw [ahead_cons, hf, Option.some.injEq]
        refine ⟨?_, ?_, ?_, ?_, ?_, ?_⟩
        · rw [hrest.refs, advance_refs, hf]
          show s.refs + fenceRef _ - Pi.single k 1 - fenceRef (recoverVramFromShadow bo i).2 =
            s.refs - Pi.single k 1
          rw [sub_right_comm, add_sub_cancel_right]
        · exact fun j hj => hrest.submitted j (submitted_subset s _ j hj)
        · exact fun j hj => hrest.kept j (mem_advance_signaled.mpr (.inl hj))
        · intro j hj
          rcases hrest.signaled j hj with hj | ⟨hj, hw⟩
          · rcases mem_advance_signaled.mp hj with hj | ⟨rfl, hw⟩
            · exact .inl hj
            · exact .inr ⟨(hcons j).mpr (.inl rfl), hw⟩
          · exact .inr ⟨(hcons j).mpr (.inr hj), hw⟩
        · intro hr hall
          obtain ⟨hout, hdone⟩ := hrest.all hwait fun j hj => hall j ((hcons j).mpr (.inr hj))
          refine ⟨hout, fun j hj => ?_⟩
          rcases (hcons j).mp hj with rfl | hj
          · exact ⟨hrest.submitted k (submitted_subset s _ k hsub),
              hrest.kept k (mem_advance_signaled.mpr (.inr ⟨rfl, hwait⟩))⟩
          · exact hdone j hj
        · intro j hj hwj hfirst
          rcases (hcons j).mp hj with rfl | hahead
          · omega
          · have hlt := hahead.lt fun j hj => by rw [hnext j hj]
            rw [hrest.first j hahead hwj fun l hl hal => hfirst l hl ((hcons l).mpr (.inr hal)),
              hcons]
            have hne : k ≠ j + 1 := by omega
            simp [hne, State.advance]
      · next hwait => exact break_outcome hf hk (Int.not_lt.mp hwait)

end Loop

/-- The copy of the `k`-th buffer is submitted if its turn comes. -/
def Submits (bos : List Bo) (k : ℕ) : Prop := ∃ bo, bos[k]? = some bo ∧ bo.submits = true

/-- If every copy signals in time, none has been missed; and behind the first that does not, there is
not one submitted at once that does. -/
def Noticed (wait : ℕ → ℤ) (bos : List Bo) : Prop :=
  ((∀ k, Submits bos k → 0 < wait k) →
    ∀ bo ∈ bos, bo.Lost → bo.submits = true) ∧
  ∀ k, Submits bos k → wait k ≤ 0 → (∀ j < k, Submits bos j → 0 < wait j) →
    ¬ (Submits bos (k + 1) ∧ 0 < wait (k + 1))

theorem ahead_start {bos : List Bo} {k : ℕ} : Ahead none 0 bos k ↔ Submits bos k := by
  unfold Ahead Submits
  constructor
  · rintro (h | ⟨j, bo, hbo, hsub, rfl⟩)
    · cases h
    · exact ⟨bo, by simpa using hbo, hsub⟩
  · rintro ⟨bo, hbo, hsub⟩
    exact .inr ⟨k, bo, hbo, hsub, (Nat.zero_add k).symm⟩

/-- The result is true to what has happened exactly when no failed recovery and no wait in vain goes
unnoticed. -/
theorem handleVramLost_truthful_iff (wait : ℕ → ℤ) (bos : List Bo) :
    Truthful wait bos ↔ Noticed wait bos := by
  have hout : Outcome wait 0 bos .start (handleVramLost wait bos).2 :=
    recoverLoop_outcome fun k hk => by cases hk
  have hzero : (handleVramLost wait bos).1 = 0 ↔ 0 < (handleVramLost wait bos).2.r := by
    simp [handleVramLost]
  have hsignaled : ∀ k ∈ (handleVramLost wait bos).2.signaled, Submits bos k ∧ 0 < wait k := by
    intro k hk
    rcases hout.signaled k hk with hk | ⟨hk, hw⟩
    · cases hk
    · exact ⟨ahead_start.mp hk, hw⟩
  have hall := hout.all Int.one_pos
  have hfirst := hout.first
  simp only [State.start, ahead_start] at hall hfirst
  constructor
  · intro h
    refine ⟨fun hwaits bo hmem hlost => ?_, fun k hk hwait hbefore hnext => ?_⟩
    · obtain ⟨k, hbo⟩ := List.mem_iff_getElem?.mp hmem
      have hdone := (h.1 (hzero.mpr (hall hwaits).1) k bo hbo hlost).2
      obtain ⟨⟨b, hb, hsub⟩, -⟩ := hsignaled k hdone
      obtain rfl := Option.some.inj (hbo.symm.trans hb)
      exact hsub
    · obtain ⟨bo, hbo, hsub⟩ := hk
      have hret := hzero.mpr ((hfirst k ⟨bo, hbo, hsub⟩ hwait hbefore).mpr hnext)
      have := (hsignaled k (h.1 hret k bo hbo (Bo.lost_of_submits hsub)).2).2
      omega
  · intro h
    refine ⟨fun hret k bo hbo hlost => ?_, ?_, ?_⟩
    · by_cases hwaits : ∀ k, Submits bos k → 0 < wait k
      · exact (hall hwaits).2 k ⟨bo, hbo, h.1 hwaits bo (List.mem_of_getElem? hbo) hlost⟩
      · -- the result is that of the wait behind the first one in vain
        have hex : ∃ k, Submits bos k ∧ wait k ≤ 0 := by
          simpa only [not_forall, Int.not_lt, exists_prop] using hwaits
        classical
        have hbefore : ∀ j < Nat.find hex, Submits bos j → 0 < wait j := fun j hj hsub =>
          Int.not_le.mp fun hle => Nat.find_min hex hj ⟨hsub, hle⟩
        obtain ⟨hsub, hwait⟩ := Nat.find_spec hex
        exact absurd ((hfirst _ hsub hwait hbefore).mp (hzero.mp hret)) (h.2 _ hsub hwait hbefore)
    · unfold handleVramLost
      dsimp only
      split
      · exact .inl rfl
      · exact .inr rfl
    · rw [hout.refs]
      simp [State.start, fenceRef]

/-- The shadow of the only buffer cannot be validated: nothing is copied, and 0 is returned. -/
theorem handleVramLost_ignores_failure : ¬ ∀ wait bos, Truthful wait bos := by
  intro h
  have hdone := (h (fun _ => 1) [⟨true, true, .ok (), .error .enomem, .ok (), .ok ()⟩]).1 rfl 0 _ rfl
    ⟨rfl, rfl⟩
  exact absurd hdone.1 (by decide)

end Gsgpu.VramLost
