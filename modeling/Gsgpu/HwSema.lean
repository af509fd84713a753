import Gsgpu.Basic
import Gsgpu.Lib.Run
import Mathlib.Data.List.FinRange

/-! Hardware semaphores: the global table behind the `HW_SEMA` ioctl, and who holds what.
A client is the `gsgpu_vm` of its file. `gsgpu_sema_free` takes the manager's lock once per
element, so a teardown is a sequence of steps that other clients' requests run between. -/
namespace Gsgpu.Sema

/-- `GSGPU_NUM_SEMA`, the size of `sema[]` and the value of `num_ids`. -/
def numSema : ℕ := 32

/-- `struct gsgpu_hw_sema`, less its list node. -/
structure HwSema (V : Type) where
  vm : Option V
  own : Bool
  pasid : ℕ
  ctx : ℕ
deriving DecidableEq

/-- What `gsgpu_sema_reset` leaves in an element. -/
def HwSema.reset {V : Type} : HwSema V := ⟨none, false, 0, 0⟩

/-- `struct gsgpu_hw_sema_mgr`; `semaList` holds the elements' indices. -/
structure HwSemaMgr (V : Type) where
  sema : Fin numSema → HwSema V
  semaList : List (Fin numSema)

variable {V : Type}

/-- `gsgpu_sema_reset`: `id` is an `unsigned`, used as an index without a check. `none` is an
access outside `sema[]`. -/
def semaReset (mgr : HwSemaMgr V) (id : ℕ) : Option (HwSemaMgr V) :=
  if h : id < numSema then
    some { mgr with sema := Function.update mgr.sema ⟨id, h⟩ HwSema.reset }
  else none

/-- `gsgpu_sema_grab_new`: the first element of the list that nobody owns. -/
def semaGrabNew (mgr : HwSemaMgr V) (vm : Option V) (pasid ctxId : ℕ) :
    Except Errno (Fin numSema × HwSemaMgr V) :=
  match mgr.semaList.find? (fun i => !(mgr.sema i).own) with
  | none => .error .enodata
  | some i =>
    let idle := mgr.sema i
    -- the VM is recorded only when there is one
    let idle := match vm with
      | some v => { idle with pasid := pasid, vm := some v }
      | none => idle
    .ok (i, { mgr with sema := Function.update mgr.sema i { idle with ctx := ctxId, own := true } })

/-- `gsgpu_hw_sema_mgr_init`. -/
def hwSemaMgrInit : HwSemaMgr V := ⟨fun _ => HwSema.reset, List.finRange numSema⟩

/-- `struct drm_gsgpu_hw_sema` as user space passes it: a 64-bit id, two 32-bit words. -/
structure DrmSema where
  id : ℕ
  ctxId : ℕ
  ops : ℕ
deriving DecidableEq

/-- `GSGPU_HW_SEMA_GET`. -/
def opGet : ℕ := 1

/-- `GSGPU_HW_SEMA_PUT`. -/
def opPut : ℕ := 2

/-- What one ioctl does to the table: the id handed out, if any, and the new table. -/
inductive IoctlResult (V : Type)
  | granted (i : Fin numSema) (mgr : HwSemaMgr V)
  | released (mgr : HwSemaMgr V)
  | failed (e : Errno)
  | outside

/-- `gsgpu_hw_sema_op_ioctl`. The 64-bit id is passed on as an `unsigned`. -/
def hwSemaOpIoctl (mgr : HwSemaMgr V) (vm : V) (pasid : ℕ) (req : DrmSema) : IoctlResult V :=
  if req.ops = opGet then
    match semaGrabNew mgr (some vm) pasid req.ctxId with
    | .ok (i, mgr') => .granted i mgr'
    | .error e => .failed e
  else if req.ops = opPut then
    match semaReset mgr (req.id % 2 ^ 32) with
    | some mgr' => .released mgr'
    | none => .outside
  else .failed .einval

/-- Where a `gsgpu_sema_free` is: the elements still to visit, and whether the first of them
has passed the `hw_sema->vm == vm` test and waits for its reset. -/
structure FreeCursor where
  rest : List (Fin numSema)
  matched : Bool
deriving DecidableEq

/-- The table, the teardowns under way, and, for the statement, who holds each id: the client
a `GET` gave it to, until that client puts it back or is torn down. -/
structure State (V : Type) where
  mgr : HwSemaMgr V
  teardown : V → Option FreeCursor
  holder : Fin numSema → Option V
  outside : Bool

/-- A request of a client, or a step of a client's teardown. -/
inductive Event (V : Type)
  | ioctl (vm : V) (pasid : ℕ) (req : DrmSema)
  | freeStart (vm : V)
  | freeStep (vm : V)

/-- A client that puts back the id it holds gives it up; nothing else it passes does. -/
def putHolder [DecidableEq V] (holder : Fin numSema → Option V) (vm : V) (id : ℕ) :
    Fin numSema → Option V :=
  fun i => if i.val = id ∧ holder i = some vm then none else holder i

/-- One request. -/
def ioctlStep [DecidableEq V] (s : State V) (vm : V) (pasid : ℕ) (req : DrmSema) : State V :=
  match hwSemaOpIoctl s.mgr vm pasid req with
  | .granted i mgr => { s with mgr := mgr, holder := Function.update s.holder i (some vm) }
  | .released mgr => { s with mgr := mgr, holder := putHolder s.holder vm req.id }
  | .failed _ => s
  | .outside => { s with outside := true }

/-- One step of `gsgpu_sema_free`: test the element under the cursor, or reset it. -/
def freeStep [DecidableEq V] (s : State V) (vm : V) (cur : FreeCursor) : State V :=
  match cur.rest with
  | [] => { s with teardown := Function.update s.teardown vm none }
  | i :: rest =>
    if cur.matched then
      match semaReset s.mgr i.val with
      | some mgr => { s with
          mgr := mgr
          holder := putHolder s.holder vm i.val
          teardown := Function.update s.teardown vm (some ⟨rest, false⟩) }
      | none => { s with outside := true }
    else if (s.mgr.sema i).vm = some vm then
      { s with teardown := Function.update s.teardown vm (some ⟨i :: rest, true⟩) }
    else
      { s with teardown := Function.update s.teardown vm (some ⟨rest, false⟩) }

/-- A client makes requests until its file is closed, and its teardown starts once. -/
inductive Step [DecidableEq V] : State V → Event V → State V → Prop
  | ioctl {s : State V} {vm : V} (pasid : ℕ) (req : DrmSema) : s.teardown vm = none →
      Step s (.ioctl vm pasid req) (ioctlStep s vm pasid req)
  | freeStart {s : State V} {vm : V} : s.teardown vm = none →
      Step s (.freeStart vm)
        { s with teardown := Function.update s.teardown vm (some ⟨s.mgr.semaList, false⟩) }
  | freeStep {s : State V} {vm : V} {cur : FreeCursor} : s.teardown vm = some cur →
      Step s (.freeStep vm) (freeStep s vm cur)

/-- The state after `gsgpu_hw_sema_mgr_init`. -/
def Init (s : State V) : Prop :=
  s = ⟨hwSemaMgrInit, fun _ => none, fun _ => none, false⟩

/-- Semaphore ownership in one state: the table says of every id who holds it, the next `GET`
of any client takes an id nobody holds and fails only when all are held, and no operation so
far has touched an element outside the table. -/
structure Owned (s : State V) : Prop where
  inside : s.outside = false
  agree : ∀ i c, s.holder i = some c ↔ (s.mgr.sema i).own = true ∧ (s.mgr.sema i).vm = some c
  granted : ∀ vm pasid ctxId i mgr, semaGrabNew s.mgr (some vm) pasid ctxId = .ok (i, mgr) →
    s.holder i = none
  exhausted : ∀ vm pasid ctxId e, semaGrabNew s.mgr (some vm) pasid ctxId = .error e →
    ∀ i, s.holder i ≠ none

/-- A `PUT` names an element of the table that is free, or that is the caller's own and is
named by its own 64-bit id. -/
def PutOwn (s : State V) : Event V → Prop
  | .ioctl vm _ req => req.ops = opPut → ∃ h : req.id % 2 ^ 32 < numSema,
      (s.mgr.sema ⟨req.id % 2 ^ 32, h⟩).own = false ∨
        (req.id < 2 ^ 32 ∧ (s.mgr.sema ⟨req.id % 2 ^ 32, h⟩).vm = some vm)
  | _ => True

/-- The invariant: the table and the holders agree, no free element names a client, and a
teardown resets only what its client holds. -/
structure Inv (s : State V) : Prop where
  inside : s.outside = false
  all : s.mgr.semaList = List.finRange numSema
  free : ∀ i, (s.mgr.sema i).own = false → (s.mgr.sema i).vm = none
  owned : ∀ i, (s.mgr.sema i).own = true → ∃ c, (s.mgr.sema i).vm = some c
  agree : ∀ i c, s.holder i = some c ↔ (s.mgr.sema i).own = true ∧ (s.mgr.sema i).vm = some c
  matched : ∀ vm i rest, s.teardown vm = some ⟨i :: rest, true⟩ → s.holder i = some vm

theorem inv_init (s : State V) (h : Init s) : Inv s := by
  subst h
  constructor <;> simp [hwSemaMgrInit, HwSema.reset]

theorem Inv.holder_none_iff {s : State V} (h : Inv s) (i : Fin numSema) :
    s.holder i = none ↔ (s.mgr.sema i).own = false := by
  cases hown : (s.mgr.sema i).own with
  | false =>
    refine iff_of_true ?_ rfl
    cases hh : s.holder i with
    | none => rfl
    | some c => exact absurd ((h.agree i c).mp hh).1 (by simp [hown])
  | true =>
    obtain ⟨c, hc⟩ := h.owned i hown
    have : s.holder i = some c := (h.agree i c).mpr ⟨hown, hc⟩
    simp [this]

theorem semaGrabNew_ok {mgr mgr' : HwSemaMgr V} {vm : V} {pasid ctxId : ℕ} {i : Fin numSema}
    (h : semaGrabNew mgr (some vm) pasid ctxId = .ok (i, mgr')) :
    (mgr.sema i).own = false ∧ mgr' = { mgr with
      sema := Function.update mgr.sema i ⟨some vm, true, pasid, ctxId⟩ } := by
  unfold semaGrabNew at h
  split at h
  · cases h
  · next j hj =>
    obtain ⟨rfl, rfl⟩ := Prod.mk.inj (Except.ok.inj h)
    have hown := List.find?_some hj
    exact ⟨by simpa using hown, rfl⟩

theorem semaGrabNew_error {mgr : HwSemaMgr V} {vm : V} {pasid ctxId : ℕ} {e : Errno}
    (h : semaGrabNew mgr (some vm) pasid ctxId = .error e) :
    ∀ i ∈ mgr.semaList, (mgr.sema i).own = true := by
  unfold semaGrabNew at h
  split at h
  · next hnone =>
    intro i hi
    simpa using List.find?_eq_none.mp hnone i hi
  · cases h

/-- The invariant gives ownership. -/
theorem Inv.toOwned {s : State V} (h : Inv s) : Owned s where
  inside := h.inside
  agree := h.agree
  granted vm pasid ctxId i mgr hg := (h.holder_none_iff i).mpr (semaGrabNew_ok hg).1
  exhausted vm pasid ctxId e he i := by
    have hi : i ∈ s.mgr.semaList := by rw [h.all]; exact List.mem_finRange i
    have := semaGrabNew_error he i hi
    simp [h.holder_none_iff, this]

private theorem inv_grant {s : State V} (h : Inv s) {vm : V} {i : Fin numSema} (pasid ctxId : ℕ)
    (hfree : (s.mgr.sema i).own = false) :
    Inv { s with
      mgr := { s.mgr with sema := Function.update s.mgr.sema i ⟨some vm, true, pasid, ctxId⟩ }
      holder := Function.update s.holder i (some vm) } where
  inside := h.inside
  all := h.all
  free j hj := by
    by_cases hij : j = i
    · subst hij; simp at hj
    · simp only [Function.update_of_ne hij] at hj ⊢; exact h.free j hj
  owned j hj := by
    by_cases hij : j = i
    · subst hij; exact ⟨vm, by simp⟩
    · simp only [Function.update_of_ne hij] at hj ⊢; exact h.owned j hj
  agree j c := by
    by_cases hij : j = i
    · subst hij; simp
    · simp only [Function.update_of_ne hij]; exact h.agree j c
  matched v j rest hv := by
    have hj := h.matched v j rest hv
    have hji : j ≠ i := by
      rintro rfl
      rw [(h.holder_none_iff j).mpr hfree] at hj
      cases hj
    simpa [Function.update_of_ne hji] using hj

section Steps
variable [DecidableEq V]

/-- Resetting an element that is free or held by `vm` releases it, and it alone. -/
private theorem inv_reset {s : State V} (h : Inv s) {vm : V} {i : Fin numSema} {id : ℕ}
    (hown : (s.mgr.sema i).own = false ∨ (i.val = id ∧ (s.mgr.sema i).vm = some vm))
    {tear : V → Option FreeCursor}
    (hid : ∀ j, j.val = id → j = i ∨ s.holder j ≠ some vm)
    (htear : ∀ v j rest, tear v = some ⟨j :: rest, true⟩ →
      s.holder j = some v ∧ (j = i → v ≠ vm)) :
    Inv { s with
      mgr := { s.mgr with sema := Function.update s.mgr.sema i HwSema.reset }
      holder := putHolder s.holder vm id
      teardown := tear } := by
  have hhold : ∀ j, j ≠ i → putHolder s.holder vm id j = s.holder j := by
    intro j hj
    unfold putHolder
    split
    · next hc =>
      rcases hid j hc.1 with hji | hne
      · exact absurd hji hj
      · exact absurd hc.2 hne
    · rfl
  have hnone : putHolder s.holder vm id i = none := by
    unfold putHolder
    split
    · rfl
    · next hc =>
      rcases hown with hf | ⟨hid', hvm⟩
      · exact (h.holder_none_iff i).mpr hf
      · cases hh : s.holder i with
        | none => rfl
        | some c =>
          have hci : c = vm := Option.some.inj (((h.agree i c).mp hh).2.symm.trans hvm)
          exact absurd ⟨hid', hci ▸ hh⟩ hc
  refine ⟨h.inside, h.all, ?_, ?_, ?_, ?_⟩
  · intro j hj
    by_cases hij : j = i
    · subst hij; simp [HwSema.reset]
    · simp only [Function.update_of_ne hij] at hj ⊢; exact h.free j hj
  · intro j hj
    by_cases hij : j = i
    · subst hij; simp [HwSema.reset] at hj
    · simp only [Function.update_of_ne hij] at hj ⊢; exact h.owned j hj
  · intro j c
    by_cases hij : j = i
    · subst hij; simp [hnone, HwSema.reset]
    · simp only [Function.update_of_ne hij, hhold j hij]; exact h.agree j c
  · intro v j rest hv
    obtain ⟨hj, hne⟩ := htear v j rest hv
    by_cases hij : j = i
    · subst hij
      -- another teardown waiting on the same element would hold it too
      exfalso
      rcases hown with hf | ⟨_, hvm⟩
      · rw [(h.holder_none_iff j).mpr hf] at hj; cases hj
      · exact hne rfl (Option.some.inj (((h.agree j v).mp hj).2.symm.trans hvm))
    · simpa [hhold j hij] using hj

theorem inv_ioctl {s : State V} (h : Inv s) {vm : V} {pasid : ℕ} {req : DrmSema}
    (hlive : s.teardown vm = none) (hgood : PutOwn s (.ioctl vm pasid req)) :
    Inv (ioctlStep s vm pasid req) := by
  unfold ioctlStep hwSemaOpIoctl
  by_cases hget : req.ops = opGet
  · simp only [if_pos hget]
    cases hg : semaGrabNew s.mgr (some vm) pasid req.ctxId with
    | error e => exact h
    | ok r =>
      obtain ⟨i, mgr⟩ := r
      obtain ⟨hfree, rfl⟩ := semaGrabNew_ok hg
      exact inv_grant h pasid req.ctxId hfree
  · by_cases hput : req.ops = opPut
    · simp only [if_neg hget, if_pos hput]
      obtain ⟨hlt, hown⟩ := hgood hput
      have hreset : semaReset s.mgr (req.id % 2 ^ 32) = some { s.mgr with
          sema := Function.update s.mgr.sema ⟨req.id % 2 ^ 32, hlt⟩ HwSema.reset } := dif_pos hlt
      simp only [hreset]
      refine inv_reset h (hown.imp_right fun ho => ⟨Nat.mod_eq_of_lt ho.1, ho.2⟩) ?_ ?_
      · intro j hj
        left
        apply Fin.ext
        have hid : req.id < 2 ^ 32 := by have := j.isLt; unfold numSema at this; omega
        change j.val = req.id % 2 ^ 32
        rw [Nat.mod_eq_of_lt hid, hj]
      · intro v j rest hv
        exact ⟨h.matched v j rest hv, fun _ hvm => by rw [hvm, hlive] at hv; cases hv⟩
    · simp only [if_neg hget, if_neg hput]
      exact h

theorem inv_freeStep {s : State V} (h : Inv s) {vm : V} {cur : FreeCursor}
    (hcur : s.teardown vm = some cur) : Inv (freeStep s vm cur) := by
  obtain ⟨rest, matched⟩ := cur
  unfold freeStep
  cases rest with
  | nil =>
    refine ⟨h.inside, h.all, h.free, h.owned, h.agree, ?_⟩
    intro v j rest' hv
    by_cases hvm : v = vm
    · subst hvm; simp at hv
    · exact h.matched v j rest' (by simpa [Function.update_of_ne hvm] using hv)
  | cons i rest =>
    cases matched with
    | true =>
      have hi : s.holder i = some vm := h.matched vm i rest hcur
      have hreset : semaReset s.mgr i.val = some { s.mgr with
          sema := Function.update s.mgr.sema i HwSema.reset } := by
        simp [semaReset, i.isLt]
      simp only [if_true, hreset]
      refine inv_reset h (Or.inr ⟨rfl, ((h.agree i vm).mp hi).2⟩)
        (fun j hj => Or.inl (Fin.ext hj)) ?_
      intro v j rest' hv
      by_cases hvm : v = vm
      · subst hvm; simp at hv
      · exact ⟨h.matched v j rest' (by simpa [Function.update_of_ne hvm] using hv), fun _ => hvm⟩
    | false =>
      simp only [Bool.false_eq_true, if_false]
      split
      · next hvm =>
        refine ⟨h.inside, h.all, h.free, h.owned, h.agree, ?_⟩
        intro v j rest' hv
        by_cases hv' : v = vm
        · subst hv'
          simp only [Function.update_self, Option.some.injEq, FreeCursor.mk.injEq,
            List.cons.injEq, and_true] at hv
          obtain ⟨rfl, rfl⟩ := hv
          -- a free element names no client, so the test only passes on an owned one
          refine (h.agree i v).mpr ⟨?_, hvm⟩
          by_contra hown
          rw [h.free i (by simpa using hown)] at hvm
          cases hvm
        · exact h.matched v j rest' (by simpa [Function.update_of_ne hv'] using hv)
      · refine ⟨h.inside, h.all, h.free, h.owned, h.agree, ?_⟩
        intro v j rest' hv
        by_cases hv' : v = vm
        · subst hv'; simp at hv
        · exact h.matched v j rest' (by simpa [Function.update_of_ne hv'] using hv)

theorem inv_step {s s' : State V} {e : Event V} (h : Inv s) (hgood : PutOwn s e)
    (hs : Step s e s') : Inv s' := by
  cases hs with
  | ioctl pasid req hlive => exact inv_ioctl h hlive hgood
  | freeStep hcur => exact inv_freeStep h hcur
  | @freeStart vm hlive =>
    refine ⟨h.inside, h.all, h.free, h.owned, h.agree, ?_⟩
    intro v j rest hv
    by_cases hvm : v = vm
    · subst hvm; simp at hv
    · exact h.matched v j rest (by simpa [Function.update_of_ne hvm] using hv)

/-- In every run whose `PUT`s name a free element or the caller's own, in any interleaving of
requests and teardowns, ownership holds in every state. -/
theorem owned_of_putOwn {s : State V} (h : Transition.Reach Init Step PutOwn s) : Owned s :=
  (h.invariant (fun _ hi => inv_init _ hi) fun _ _ _ hI hg hs => inv_step hI hg hs).toOwned

/-- A `PUT` of an element of the table resets it. -/
theorem ioctlStep_put (s : State V) (vm : V) (pasid : ℕ) {req : DrmSema} (hput : req.ops = opPut)
    (hlt : req.id % 2 ^ 32 < numSema) : ioctlStep s vm pasid req = { s with
      mgr := { s.mgr with
        sema := Function.update s.mgr.sema ⟨req.id % 2 ^ 32, hlt⟩ HwSema.reset }
      holder := putHolder s.holder vm req.id } := by
  have hget : req.ops ≠ opGet := by rw [hput]; decide
  simp only [ioctlStep, hwSemaOpIoctl, if_neg hget, if_pos hput, semaReset, dif_pos hlt]

/-- A `PUT` of any other id writes behind the table. -/
theorem ioctlStep_put_outside (s : State V) (vm : V) (pasid : ℕ) {req : DrmSema}
    (hput : req.ops = opPut) (hlt : ¬ req.id % 2 ^ 32 < numSema) :
    ioctlStep s vm pasid req = { s with outside := true } := by
  have hget : req.ops ≠ opGet := by rw [hput]; decide
  simp only [ioctlStep, hwSemaOpIoctl, if_neg hget, if_pos hput, semaReset, dif_neg hlt]

/-- From a state where the invariant holds, a `PUT` keeps ownership exactly when it names a
free element or the caller's own. -/
theorem put_owned_iff {s : State V} (h : Inv s) {vm : V} {pasid : ℕ} {req : DrmSema}
    (hlive : s.teardown vm = none) (hput : req.ops = opPut) :
    Owned (ioctlStep s vm pasid req) ↔ PutOwn s (.ioctl vm pasid req) := by
  refine ⟨fun ho _ => ?_, fun hg => (inv_ioctl h hlive hg).toOwned⟩
  by_cases hlt : req.id % 2 ^ 32 < numSema
  · refine ⟨hlt, ?_⟩
    let i : Fin numSema := ⟨req.id % 2 ^ 32, hlt⟩
    by_contra hbad
    simp only [not_or, not_and, Bool.not_eq_false] at hbad
    obtain ⟨c, hc⟩ := h.owned i hbad.1
    have hhold : s.holder i = some c := (h.agree i c).mpr ⟨hbad.1, hc⟩
    -- the code resets the element, but it is not the caller's to give up
    have hkeep : putHolder s.holder vm req.id i = some c := by
      unfold putHolder
      split
      · next hcond =>
        have hvm : c = vm := Option.some.inj (hhold.symm.trans hcond.2)
        have hid : req.id < 2 ^ 32 := by have := i.isLt; unfold numSema at this; omega
        exact absurd (hvm ▸ hc) (hbad.2 hid)
      · exact hhold
    rw [ioctlStep_put s vm pasid hput hlt] at ho
    have hreset := ((ho.agree i c).mp hkeep).2
    simp only [i, Function.update_self] at hreset
    cases hreset
  · rw [ioctlStep_put_outside s vm pasid hput hlt] at ho
    cases ho.inside

end Steps

/-- The state after client 0 has got a semaphore (it is given id 0). -/
def firstGet : State ℕ :=
  ioctlStep ⟨hwSemaMgrInit, fun _ => none, fun _ => none, false⟩ 0 1 ⟨0, 0, opGet⟩

/-- Client 1 puts id 0, which client 0 holds: the table frees it under its holder. -/
theorem put_of_foreign_id :
    ∃ s : State ℕ, Transition.Reach Init Step (fun _ _ => True) s ∧ ¬ Owned s := by
  refine ⟨ioctlStep firstGet 1 2 ⟨0, 0, opPut⟩, ?_, ?_⟩
  · exact .next (.next (.start rfl) trivial (.ioctl 1 ⟨0, 0, opGet⟩ rfl)) trivial
      (.ioctl 2 ⟨0, 0, opPut⟩ rfl)
  · intro h
    have := (h.agree ⟨0, by decide⟩ 0).mp (by decide)
    exact absurd this.1 (by decide)

/-- Client 0 gets a semaphore and puts it back: ownership holds throughout. -/
theorem get_put_owned : Owned (ioctlStep firstGet 0 1 ⟨0, 0, opPut⟩) := by
  refine owned_of_putOwn (.next (.next (.start rfl) ?_ (.ioctl 1 ⟨0, 0, opGet⟩ rfl)) ?_
    (.ioctl 1 ⟨0, 0, opPut⟩ rfl))
  · intro h; exact absurd h (by decide)
  · intro _; exact ⟨by decide, Or.inr ⟨by decide, by decide⟩⟩

end Gsgpu.Sema
