import Gsgpu.Basic
import Gsgpu.Lib.Run
import Gsgpu.Lib.Window
import Mathlib.Tactic.ByContra

/-! Submission handles. A context keeps, for each ring, the fences of the last
`gsgpu_sched_jobs` submissions in slots chosen by the low bits of a 64-bit sequence number,
which is also the handle user space gets. `ctx->lock` is held over a whole submission, so the
wait for the slot and its reuse are not torn apart by another submission of the context. -/
namespace Gsgpu.Context

/-- `GSGPU_MAX_RINGS`. -/
def maxRings : ℕ := 21

instance : NeZero maxRings := ⟨by decide⟩

/-- `gsgpu_sched_jobs`, which `gsgpu_device_check_arguments` makes a power of two; it is an
`int`. -/
structure SchedJobs where
  order : ℕ
  order_le : order ≤ 30

/-- The number of jobs. -/
def SchedJobs.val (jobs : SchedJobs) : ℕ := 2 ^ jobs.order

/-- The sequence numbers and fences of `struct gsgpu_ctx`. One array holds the fences of all
rings, `gsgpu_sched_jobs` for each. -/
structure Ctx (F : Type) where
  sequence : Fin maxRings → ℕ
  fences : ℕ → Option F

variable {F : Type}

/-- `gsgpu_ctx_init`. -/
def Ctx.init : Ctx F := ⟨fun _ => 1, fun _ => none⟩

/-- Where `rings[ring].fences[idx]` is in the array of all fences. -/
def slot (jobs : SchedJobs) (ring : Fin maxRings) (idx : ℕ) : ℕ := jobs.val * ring + idx

/-- `gsgpu_ctx_add_fence`, with the handle it stores; `none` is the `BUG_ON`. -/
def addFence (jobs : SchedJobs) (signaled : F → Bool) (ctx : Ctx F) (ring : Fin maxRings)
    (fence : F) : Option (ℕ × Ctx F) :=
  let seq := ctx.sequence ring
  let idx := seq &&& (jobs.val - 1)
  let reuse := match ctx.fences (slot jobs ring idx) with
    | some other => signaled other
    | none => true
  if reuse then
    some (seq, { sequence := Function.update ctx.sequence ring ((seq + 1) % 2 ^ 64)
                 fences := Function.update ctx.fences (slot jobs ring idx) (some fence) })
  else none

/-- `gsgpu_ctx_get_fence` on a 64-bit handle; `ok none` is the NULL fence. -/
def getFence (jobs : SchedJobs) (ctx : Ctx F) (ring : Fin maxRings) (seq : ℕ) :
    Except Errno (Option F) :=
  let seq := if seq = 2 ^ 64 - 1 then (ctx.sequence ring + (2 ^ 64 - 1)) % 2 ^ 64 else seq
  if seq ≥ ctx.sequence ring then .error .einval
  else if (seq + jobs.val) % 2 ^ 64 < ctx.sequence ring then .ok none
  else .ok (ctx.fences (slot jobs ring (seq &&& (jobs.val - 1))))

/-- `gsgpu_ctx_wait_prev_fence`; `wait` is `dma_fence_wait`. -/
def waitPrevFence (jobs : SchedJobs) (wait : F → Except Errno Unit) (ctx : Ctx F)
    (ring : Fin maxRings) : Except Errno Unit :=
  match ctx.fences (slot jobs ring (ctx.sequence ring &&& (jobs.val - 1))) with
  | some other => wait other
  | none => .ok ()

section Slots

variable (jobs : SchedJobs)

theorem SchedJobs.val_pos : 0 < jobs.val := Nat.two_pow_pos _

theorem SchedJobs.val_dvd : jobs.val ∣ 2 ^ 64 :=
  Nat.pow_dvd_pow 2 (le_trans jobs.order_le (by omega))

/-- The low bits of a 64-bit counter choose the slot. -/
theorem SchedJobs.and_val_sub_one (n : ℕ) : n % 2 ^ 64 &&& (jobs.val - 1) = n % jobs.val := by
  rw [SchedJobs.val, Nat.and_two_pow_sub_one_eq_mod]
  exact Nat.mod_mod_of_dvd n jobs.val_dvd

/-- The rings share no slot. -/
theorem slot_inj {r₁ r₂ : Fin maxRings} {i₁ i₂ : ℕ} (h₁ : i₁ < jobs.val) (h₂ : i₂ < jobs.val)
    (h : slot jobs r₁ i₁ = slot jobs r₂ i₂) : r₁ = r₂ ∧ i₁ = i₂ := by
  have hr : (r₁ : ℕ) = r₂ := by
    have := congrArg (· / jobs.val) h
    simpa [slot, Nat.mul_add_div jobs.val_pos, Nat.div_eq_of_lt h₁, Nat.div_eq_of_lt h₂] using this
  refine ⟨Fin.ext hr, ?_⟩
  simp only [slot, hr] at h
  omega

end Slots

/-- How far the submission that holds `ctx->lock` is. -/
inductive Holder
  | free
  | locked
  /-- `gsgpu_cs_ib_fill` has waited for the slot of the ring. -/
  | waited (ring : Fin maxRings)

/-- A context among its fences. `submitted` and `handles` remember what was submitted on each
ring and the handles that were returned; no function of the source reads them. -/
structure State (F : Type) where
  ctx : Ctx F
  holder : Holder
  signaled : F → Bool
  bug : Bool
  submitted : Fin maxRings → List F
  handles : Fin maxRings → List ℕ

/-- What can happen to a context. A query changes nothing, so it is no event: what it returns
in a state is `getFence`. -/
inductive Event (F : Type)
  /-- `gsgpu_cs_parser_init` takes `ctx->lock`. -/
  | lock
  /-- `gsgpu_ctx_wait_prev_fence` returns; `wait` is what `dma_fence_wait` returned. -/
  | waitPrevFence (ring : Fin maxRings) (wait : F → Except Errno Unit)
  /-- `gsgpu_cs_submit` adds the fence of the job. -/
  | addFence (fence : F)
  /-- `gsgpu_cs_parser_fini` drops the lock, after a submission or an error. -/
  | unlock
  | signal (fence : F)

/-- A successful `dma_fence_wait` returns when the fence has signaled. -/
def WaitsFor (signaled : F → Bool) (wait : F → Except Errno Unit) : Prop :=
  ∀ fence, wait fence = .ok () → signaled fence = true

/-- The state after an event; an event that cannot happen in the state changes nothing. -/
def State.step [DecidableEq F] (jobs : SchedJobs) (s : State F) : Event F → State F
  | .lock =>
    match s.holder with
    | .free => { s with holder := .locked }
    | _ => s
  | .waitPrevFence ring wait =>
    match s.holder with
    | .locked =>
      match waitPrevFence jobs wait s.ctx ring with
      | .ok () => { s with holder := .waited ring }
      | .error _ => s
    | _ => s
  | .addFence fence =>
    match s.holder with
    | .waited ring =>
      match addFence jobs s.signaled s.ctx ring fence with
      | some (handle, ctx) =>
        { s with
          ctx := ctx
          -- the lock is dropped in `gsgpu_cs_parser_fini`
          holder := .locked
          submitted := Function.update s.submitted ring (s.submitted ring ++ [fence])
          handles := Function.update s.handles ring (s.handles ring ++ [handle]) }
      | none => { s with bug := true }
    | _ => s
  | .unlock => { s with holder := .free }
  | .signal fence => { s with signaled := Function.update s.signaled fence true }

/-- A new context, whatever the fences of other contexts have done. -/
def State.Init (s : State F) : Prop :=
  s.ctx = Ctx.init ∧ s.holder = .free ∧ s.bug = false ∧ (∀ r, s.submitted r = []) ∧
    ∀ r, s.handles r = []

/-- The waits of a run are those of `dma_fence_wait`. -/
def Event.Allowed (s : State F) : Event F → Prop
  | .waitPrevFence _ wait => WaitsFor s.signaled wait
  | _ => True

/-- The states of a context, over all interleavings of submissions and signaling. -/
def State.Reachable [DecidableEq F] (jobs : SchedJobs) (s : State F) : Prop :=
  Transition.Reach State.Init (fun s e s' => s.step jobs e = s') (fun s e => e.Allowed s) s

/-- What every state of a context has. -/
structure State.Inv (jobs : SchedJobs) (s : State F) : Prop where
  bug : s.bug = false
  sequence : ∀ r, s.ctx.sequence r = ((s.submitted r).length + 1) % 2 ^ 64
  window : ∀ r, Window.Holds jobs.val (fun j => s.ctx.fences (slot jobs r j)) (s.submitted r)
  handles : ∀ r, s.handles r = (List.range (s.submitted r).length).map fun i => (i + 1) % 2 ^ 64
  /-- A submission that left the window has signaled. -/
  old : ∀ r i f, (s.submitted r)[i]? = some f → i + jobs.val < (s.submitted r).length →
    s.signaled f = true
  /-- A submission that has waited finds its slot reusable. -/
  waited : ∀ r, s.holder = .waited r → ∀ f,
    s.ctx.fences (slot jobs r (((s.submitted r).length + 1) % jobs.val)) = some f →
      s.signaled f = true

namespace State

variable {jobs : SchedJobs} {s : State F}

theorem Init.inv (h : s.Init) : s.Inv jobs := by
  obtain ⟨hctx, hfree, hbug, hsub, hhan⟩ := h
  refine ⟨hbug, ?_, ?_, ?_, ?_, ?_⟩
  · intro r
    simp [hctx, hsub, Ctx.init]
  · intro r
    rw [hsub]
    exact .empty fun j _ => by simp [hctx, Ctx.init]
  · intro r
    simp [hhan, hsub]
  · intro r i f hi
    simp [hsub] at hi
  · intro r hr
    simp [hfree] at hr

/-- The slot a ring uses next. -/
theorem Inv.next_slot (h : s.Inv jobs) (r : Fin maxRings) :
    s.ctx.sequence r &&& (jobs.val - 1) = ((s.submitted r).length + 1) % jobs.val := by
  rw [h.sequence r, jobs.and_val_sub_one]

/-- An event that moves only the lock. -/
private theorem Inv.setHolder (h : s.Inv jobs) {holder : Holder}
    (hw : ∀ r, holder = .waited r → ∀ f,
      s.ctx.fences (slot jobs r (((s.submitted r).length + 1) % jobs.val)) = some f →
        s.signaled f = true) : ({ s with holder := holder } : State F).Inv jobs where
  bug := h.bug
  sequence := h.sequence
  window := h.window
  handles := h.handles
  old := h.old
  waited := hw

/-- What `gsgpu_ctx_add_fence` does for a submission that has waited. -/
theorem Inv.addFence_eq (h : s.Inv jobs) {ring : Fin maxRings} (hh : s.holder = .waited ring)
    (fence : F) :
    Context.addFence jobs s.signaled s.ctx ring fence =
      some (((s.submitted ring).length + 1) % 2 ^ 64,
        { sequence := Function.update s.ctx.sequence ring
            (((s.submitted ring).length + 2) % 2 ^ 64)
          fences := Function.update s.ctx.fences
            (slot jobs ring (((s.submitted ring).length + 1) % jobs.val)) (some fence) }) := by
  have hseq : (((s.submitted ring).length + 1) % 2 ^ 64 + 1) % 2 ^ 64 =
      ((s.submitted ring).length + 2) % 2 ^ 64 := by omega
  have hreuse : (match s.ctx.fences (slot jobs ring (((s.submitted ring).length + 1) % jobs.val))
      with | some other => s.signaled other | none => true) = true := by
    split
    · next other ho => exact h.waited ring hh other ho
    · rfl
  simp only [Context.addFence, h.sequence ring, jobs.and_val_sub_one, hreuse, if_true, hseq]

/-- Writing a slot of a ring, as its own fences see it. -/
private theorem update_slot_self (fences : ℕ → Option F) (r : Fin maxRings) {i j : ℕ}
    (hi : i < jobs.val) (hj : j < jobs.val) (fence : F) :
    Function.update fences (slot jobs r i) (some fence) (slot jobs r j) =
      Function.update (fun k => fences (slot jobs r k)) i (some fence) j := by
  by_cases hji : j = i
  · subst hji
    rw [Function.update_self, Function.update_self]
  · have hne : slot jobs r j ≠ slot jobs r i := fun heq => hji (slot_inj jobs hj hi heq).2
    rw [Function.update_of_ne hne, Function.update_of_ne hji]

/-- Writing a slot of a ring leaves the fences of the others. -/
private theorem update_slot_other (fences : ℕ → Option F) {ring r : Fin maxRings} (hr : r ≠ ring)
    {i j : ℕ} (hi : i < jobs.val) (hj : j < jobs.val) (fence : F) :
    Function.update fences (slot jobs ring i) (some fence) (slot jobs r j) =
      fences (slot jobs r j) := by
  have hne : slot jobs r j ≠ slot jobs ring i := fun heq => hr (slot_inj jobs hj hi heq).1
  rw [Function.update_of_ne hne]

/-- What the fences of a ring hold after a submission on some ring. -/
private theorem Inv.window_addFence (h : s.Inv jobs) (ring r : Fin maxRings) (fence : F) :
    Window.Holds jobs.val
      (fun j => Function.update s.ctx.fences
        (slot jobs ring (((s.submitted ring).length + 1) % jobs.val)) (some fence)
        (slot jobs r j))
      (Function.update s.submitted ring (s.submitted ring ++ [fence]) r) := by
  have hpos := jobs.val_pos
  have hn : ((s.submitted ring).length + 1) % jobs.val < jobs.val := Nat.mod_lt _ hpos
  by_cases hr : r = ring
  · subst hr
    rw [Function.update_self]
    exact ((h.window r).push hpos fence).congr hpos
      fun j hj => update_slot_self s.ctx.fences r hn hj fence
  · rw [Function.update_of_ne hr]
    exact (h.window r).congr hpos
      fun j hj => update_slot_other s.ctx.fences hr hn hj fence

/-- A submission pushes one fence out of the window, the one it found in its slot. -/
private theorem Inv.old_addFence (h : s.Inv jobs) {ring : Fin maxRings}
    (hh : s.holder = .waited ring) (fence : F) (r : Fin maxRings) (i : ℕ) (f : F)
    (hi : (Function.update s.submitted ring (s.submitted ring ++ [fence]) r)[i]? = some f)
    (hlt : i + jobs.val <
      (Function.update s.submitted ring (s.submitted ring ++ [fence]) r).length) :
    s.signaled f = true := by
  by_cases hr : r = ring
  · subst hr
    rw [Function.update_self] at hi hlt
    have hpos := jobs.val_pos
    rw [List.length_append, List.length_singleton] at hlt
    rw [List.getElem?_append_left (by omega)] at hi
    rcases Nat.lt_or_ge (i + jobs.val) (s.submitted r).length with hold | hnew
    · exact h.old r i f hi hold
    · have hlen : (s.submitted r).length = i + jobs.val := by omega
      have hslot := (h.window r).recent i f hi (by omega)
      refine h.waited r hh f ?_
      rw [hlen, Nat.add_right_comm, Nat.add_mod_right]
      exact hslot
  · rw [Function.update_of_ne hr] at hi hlt
    exact h.old r i f hi hlt

variable [DecidableEq F]

theorem Inv.signal (h : s.Inv jobs) (fence : F) : (s.step jobs (.signal fence)).Inv jobs := by
  -- signaling only adds to the fences that have signaled
  have hmono : ∀ f, s.signaled f = true → Function.update s.signaled fence true f = true := by
    intro f hf
    by_cases hff : f = fence
    · rw [hff, Function.update_self]
    · rw [Function.update_of_ne hff, hf]
  exact
    { bug := h.bug
      sequence := h.sequence
      window := h.window
      handles := h.handles
      old := fun r i f hi hlt => hmono f (h.old r i f hi hlt)
      waited := fun r hr f hf => hmono f (h.waited r hr f hf) }

theorem Inv.waitPrevFence (h : s.Inv jobs) (ring : Fin maxRings) {wait : F → Except Errno Unit}
    (hwait : WaitsFor s.signaled wait) : (s.step jobs (.waitPrevFence ring wait)).Inv jobs := by
  simp only [step]
  cases hh : s.holder with
  | free => exact h
  | waited r => exact h
  | locked =>
    cases hr : Context.waitPrevFence jobs wait s.ctx ring with
    | error e => exact h
    | ok u =>
      refine h.setHolder ?_
      intro r hrr f hf
      cases hrr
      simp only [Context.waitPrevFence, h.next_slot, hf] at hr
      exact hwait f hr

theorem Inv.addFence (h : s.Inv jobs) (fence : F) : (s.step jobs (.addFence fence)).Inv jobs := by
  cases hh : s.holder with
  | free => simpa only [step, hh] using h
  | locked => simpa only [step, hh] using h
  | waited ring =>
    simp only [step, hh, h.addFence_eq hh fence]
    refine ⟨h.bug, ?_, ?_, ?_, ?_, ?_⟩
    · intro r
      by_cases hr : r = ring
      · subst hr
        simp [Nat.add_assoc]
      · simp [Function.update_of_ne hr, h.sequence r]
    · exact fun r => h.window_addFence ring r fence
    · intro r
      by_cases hr : r = ring
      · subst hr
        simp [List.range_succ, h.handles r]
      · simp [Function.update_of_ne hr, h.handles r]
    · exact fun r i f hi hlt => h.old_addFence hh fence r i f hi hlt
    · intro r hr
      simp at hr

theorem Inv.step (h : s.Inv jobs) (e : Event F) (he : e.Allowed s) : (s.step jobs e).Inv jobs := by
  cases e with
  | lock =>
    simp only [State.step]
    cases hh : s.holder with
    | free => exact h.setHolder (by simp)
    | locked => exact h
    | waited r => exact h
  | waitPrevFence ring wait => exact h.waitPrevFence ring he
  | addFence fence => exact h.addFence fence
  | unlock => exact h.setHolder (by simp)
  | signal fence => exact h.signal fence

theorem Reachable.inv (h : s.Reachable jobs) : s.Inv jobs :=
  Transition.Reach.invariant (fun _ hi => hi.inv)
    (fun _ e _ hs hg heq => heq ▸ hs.step e hg) h

theorem Reachable.step (h : s.Reachable jobs) (e : Event F) (he : e.Allowed s) :
    (s.step jobs e).Reachable jobs :=
  .next h he rfl

/-- When all fences of a ring have signaled, a submission on it goes through. -/
theorem Reachable.submit (h : s.Reachable jobs) (hfree : s.holder = .free) {r : Fin maxRings}
    (hdone : ∀ f ∈ s.submitted r, s.signaled f = true) (fence : F) :
    ∃ s' : State F, s'.Reachable jobs ∧ s'.holder = .free ∧
      s'.submitted r = s.submitted r ++ [fence] ∧ s'.signaled = s.signaled := by
  let wait : F → Except Errno Unit := fun f => if s.signaled f then .ok () else .error .erestartsys
  let s₁ : State F := { s with holder := .locked }
  have hs₁ : s₁.Reachable jobs := by
    simpa only [State.step, hfree] using h.step .lock trivial
  let s₂ : State F := { s with holder := .waited r }
  have hs₂ : s₂.Reachable jobs := by
    have hwait : Context.waitPrevFence jobs wait s.ctx r = .ok () := by
      simp only [Context.waitPrevFence, h.inv.next_slot]
      split
      · next other ho =>
        have hmem := List.mem_of_getElem? ((h.inv.window r).occupant jobs.val_pos ho).2
        simp [wait, hdone other hmem]
      · rfl
    have hallowed : (Event.waitPrevFence r wait).Allowed s₁ := by
      intro f hf
      by_contra hns
      simp [wait, show s.signaled f = false by simpa using hns] at hf
    simpa only [State.step, s₁, hwait] using hs₁.step (.waitPrevFence r wait) hallowed
  have hs₃ := (hs₂.step (.addFence fence) trivial).step .unlock trivial
  refine ⟨_, hs₃, rfl, ?_, ?_⟩
  all_goals simp [State.step, s₂, hs₂.inv.addFence_eq rfl fence]

end State

section Queries

variable {jobs : SchedJobs} {s : State F} {r : Fin maxRings}

/-- The sequence number while it has not come near the end of its 64 bits. -/
private theorem sequence_eq (h : s.Inv jobs) (hn : (s.submitted r).length + jobs.val < 2 ^ 64) :
    s.ctx.sequence r = (s.submitted r).length + 1 := by
  have := jobs.val_pos
  rw [h.sequence r, Nat.mod_eq_of_lt (by omega)]

/-- A query for the submission of index `i`. -/
theorem getFence_submitted (h : s.Inv jobs) (hn : (s.submitted r).length + jobs.val < 2 ^ 64)
    {i : ℕ} {f : F} (hf : (s.submitted r)[i]? = some f) :
    getFence jobs s.ctx r (i + 1) =
      .ok (if (s.submitted r).length ≤ i + jobs.val then some f else none) := by
  have hpos := jobs.val_pos
  have hi : i < (s.submitted r).length := (List.getElem?_eq_some_iff.mp hf).1
  have hne : i + 1 ≠ 2 ^ 64 - 1 := by omega
  have hsum : (i + 1 + jobs.val) % 2 ^ 64 = i + 1 + jobs.val := Nat.mod_eq_of_lt (by omega)
  have hidx : i + 1 &&& (jobs.val - 1) = (i + 1) % jobs.val := Nat.and_two_pow_sub_one_eq_mod _ _
  simp only [getFence, if_neg hne, sequence_eq h hn, hsum, hidx]
  rw [if_neg (by omega)]
  by_cases hold : (s.submitted r).length ≤ i + jobs.val
  · rw [if_neg (by omega), if_pos hold, (h.window r).recent i f hf hold]
  · rw [if_pos (by omega), if_neg hold]

/-- A query for a handle that was not issued yet. -/
theorem getFence_unissued (seq : ℕ) (hseq : s.ctx.sequence r ≤ seq) (hne : seq ≠ 2 ^ 64 - 1) :
    getFence jobs s.ctx r seq = .error .einval := by
  simp only [getFence, if_neg hne]
  rw [if_pos hseq]

/-- `~0` names the latest submission, and no fence when there is none. -/
theorem getFence_latest (h : s.Inv jobs) (hn : (s.submitted r).length + jobs.val < 2 ^ 64) :
    getFence jobs s.ctx r (2 ^ 64 - 1) = .ok (s.submitted r).getLast? := by
  have hpos := jobs.val_pos
  have hseq : ((s.submitted r).length + 1 + (2 ^ 64 - 1)) % 2 ^ 64 = (s.submitted r).length := by
    omega
  have hsame : getFence jobs s.ctx r (2 ^ 64 - 1) =
      getFence jobs s.ctx r (s.submitted r).length := by
    have hne : (s.submitted r).length ≠ 2 ^ 64 - 1 := by omega
    simp only [getFence, if_neg hne, sequence_eq h hn, hseq, if_true]
  rw [hsame]
  cases hlen : (s.submitted r).length with
  | zero =>
    have hnil : s.submitted r = [] := List.length_eq_zero_iff.mp hlen
    have hempty : s.ctx.fences (slot jobs r 0) = none := by
      by_contra hsome
      obtain ⟨a, ha⟩ := Option.ne_none_iff_exists'.mp hsome
      obtain ⟨i, hi, -⟩ := (h.window r).origin 0 a hpos ha
      simp [hnil] at hi
    have hsum : (0 + jobs.val) % 2 ^ 64 = jobs.val := by
      rw [Nat.zero_add, Nat.mod_eq_of_lt (by omega)]
    have hone : s.ctx.sequence r = 1 := by rw [sequence_eq h hn, hlen]
    simp only [getFence, hone, if_neg (show (0 : ℕ) ≠ 2 ^ 64 - 1 by omega), hsum, Nat.zero_and]
    rw [if_neg (by omega), if_neg (by omega), hempty, hnil, List.getLast?_nil]
  | succ n =>
    obtain ⟨f, hf⟩ : ∃ f, (s.submitted r)[n]? = some f :=
      ⟨_, List.getElem?_eq_getElem (by omega)⟩
    have hlast : (s.submitted r).getLast? = some f := by
      rw [List.getLast?_eq_getElem?, hlen, Nat.add_sub_cancel, hf]
    rw [getFence_submitted h hn hf, if_pos (by omega), hlast]

end Queries

variable [DecidableEq F]

/-- In every run the `BUG_ON` is not reached and handles count up from one. While the sequence
number stays `gsgpu_sched_jobs` below the end of its 64 bits, an issued handle names its own
submission as long as that is among the last `gsgpu_sched_jobs`, and afterwards the NULL fence,
by when the submission has signaled; no other handle is accepted but `~0`. -/
theorem getFence_names_submission (jobs : SchedJobs) {s : State F} (h : s.Reachable jobs)
    (r : Fin maxRings) :
    s.bug = false ∧
    s.handles r = (List.range (s.submitted r).length).map (fun i => (i + 1) % 2 ^ 64) ∧
    ((s.submitted r).length + jobs.val < 2 ^ 64 →
      (∀ i seq f, (s.handles r)[i]? = some seq → (s.submitted r)[i]? = some f →
        getFence jobs s.ctx r seq =
          .ok (if (s.submitted r).length ≤ i + jobs.val then some f else none) ∧
        (getFence jobs s.ctx r seq = .ok none → s.signaled f = true)) ∧
      (∀ seq, s.ctx.sequence r ≤ seq → seq ≠ 2 ^ 64 - 1 →
        getFence jobs s.ctx r seq = .error .einval) ∧
      getFence jobs s.ctx r (2 ^ 64 - 1) = .ok (s.submitted r).getLast?) := by
  have hinv := h.inv
  refine ⟨hinv.bug, hinv.handles r, fun hn => ⟨?_, fun seq => getFence_unissued seq,
    getFence_latest hinv hn⟩⟩
  intro i seq f hseq hf
  have hi : i < (s.submitted r).length := (List.getElem?_eq_some_iff.mp hf).1
  have hpos := jobs.val_pos
  have hissued : seq = i + 1 := by
    rw [hinv.handles r, List.getElem?_map, List.getElem?_range hi, Option.map_some,
      Option.some.injEq, Nat.mod_eq_of_lt (by omega)] at hseq
    exact hseq.symm
  subst hissued
  rw [getFence_submitted hinv hn hf]
  refine ⟨rfl, fun hnull => ?_⟩
  by_cases hrecent : (s.submitted r).length ≤ i + jobs.val
  · simp [hrecent] at hnull
  · exact hinv.old r i f hf (by omega)

/-- The default of `gsgpu_sched_jobs`. -/
def defaultSchedJobs : SchedJobs := ⟨5, by omega⟩

/-- A context whose submissions are the natural numbers, all of them signaled. -/
private theorem exists_submissions (n : ℕ) : ∃ s : State ℕ, s.Reachable defaultSchedJobs ∧
    s.holder = .free ∧ s.submitted 0 = List.range n ∧ ∀ f, s.signaled f = decide (f < n) := by
  induction n with
  | zero =>
    refine ⟨⟨Ctx.init, .free, fun _ => false, false, fun _ => [], fun _ => []⟩,
      .start ⟨rfl, rfl, rfl, fun _ => rfl, fun _ => rfl⟩, rfl, rfl, fun f => by simp⟩
  | succ n ih =>
    obtain ⟨s, hs, hfree, hsub, hsig⟩ := ih
    have hdone : ∀ f ∈ s.submitted 0, s.signaled f = true := by
      intro f hf
      rw [hsub, List.mem_range] at hf
      simp [hsig, hf]
    obtain ⟨s', hs', hfree', hsub', hsig'⟩ := hs.submit hfree hdone n
    refine ⟨_, hs'.step (.signal n) trivial, hfree', ?_, ?_⟩
    · simp [State.step, hsub', hsub, List.range_succ]
    · intro f
      simp only [State.step, hsig']
      by_cases hf : f = n
      · simp [hf]
      · rw [Function.update_of_ne hf, hsig]
        simp only [decide_eq_decide]
        omega

theorem getFence_names_submission_first : ∃ s : State ℕ, s.Reachable defaultSchedJobs ∧
    s.submitted 0 = [0] ∧ getFence defaultSchedJobs s.ctx 0 1 = .ok (some 0) := by
  obtain ⟨s, hs, -, hsub, -⟩ := exists_submissions 1
  obtain ⟨-, hhan, hq⟩ := getFence_names_submission defaultSchedJobs hs 0
  rw [hsub] at hhan hq
  have hget := (hq (by decide)).1 0 1 0 (by rw [hhan]; rfl) rfl
  exact ⟨s, hs, hsub, hget.1⟩

/-- After `2 ^ 64 - 32` submissions the addition in `gsgpu_ctx_get_fence` wraps: the latest
submission, still pending, has no fence. -/
theorem getFence_loses_pending_submission : ∃ s : State ℕ, s.Reachable defaultSchedJobs ∧
    ∃ i seq f, (s.handles 0)[i]? = some seq ∧ (s.submitted 0)[i]? = some f ∧
      (s.submitted 0).length ≤ i + defaultSchedJobs.val ∧
      getFence defaultSchedJobs s.ctx 0 seq = .ok none ∧ s.signaled f = false := by
  obtain ⟨s, hs, hfree, hsub, hsig⟩ := exists_submissions (2 ^ 64 - 33)
  have hdone : ∀ f ∈ s.submitted 0, s.signaled f = true := by
    intro f hf
    rw [hsub, List.mem_range] at hf
    rw [hsig, decide_eq_true_eq]
    exact hf
  obtain ⟨s', hs', -, hsub', hsig'⟩ := hs.submit hfree hdone (2 ^ 64 - 33)
  have hlen : (s'.submitted 0).length = 2 ^ 64 - 32 := by
    rw [hsub', hsub, List.length_append, List.length_range, List.length_singleton]
    rfl
  have hseq : s'.ctx.sequence 0 = 2 ^ 64 - 31 := by
    rw [hs'.inv.sequence 0, hlen]
    rfl
  refine ⟨s', hs', 2 ^ 64 - 33, 2 ^ 64 - 32, 2 ^ 64 - 33, ?_, ?_, ?_, ?_, ?_⟩
  · rw [hs'.inv.handles 0, hlen, List.getElem?_map, List.getElem?_range (by omega)]
    rfl
  · rw [hsub', hsub, List.getElem?_append_right (by simp), List.length_range]
    rfl
  · rw [hlen]
    decide
  · simp only [getFence, hseq]
    rfl
  · rw [hsig', hsig]
    simp

end Gsgpu.Context
