import Gsgpu.BoList.Create
import Mathlib.Data.List.Perm.Basic

/-! When a `gsgpu_bo_list_ioctl` request is atomic: what one that returns an error leaves behind,
and what a list holds that one that returns 0 has stored. -/
namespace Gsgpu.BoLists
open EntryArray

/-- The references of a list of pointers. -/
def refsOf (bos : List ℕ) : ℕ → ℤ := (bos.map fun bo => (Pi.single bo 1 : ℕ → ℤ)).sum

theorem refsOf_nil : refsOf [] = 0 := rfl

theorem refsOf_cons (bo : ℕ) (bos : List ℕ) : refsOf (bo :: bos) = Pi.single bo 1 + refsOf bos := by
  simp [refsOf]

theorem refsOf_append (bos bos' : List ℕ) : refsOf (bos ++ bos') = refsOf bos + refsOf bos' := by
  simp [refsOf]

theorem refsOf_perm {bos bos' : List ℕ} (h : bos.Perm bos') : refsOf bos = refsOf bos' :=
  (h.map _).sum_eq

theorem refsOf_eq_zero {bos : List ℕ} : refsOf bos = 0 ↔ bos = [] := by
  have h := (Ledger.Lost.pointers bos id).eq_zero
  rw [not_ne_iff] at h
  exact h

/-- The BOs that entries point to. -/
def robjs (es : List Entry) : List ℕ := es.filterMap (·.robj)

theorem foldl_unref (es : List Entry) (refs : ℕ → ℤ) :
    es.foldl unref refs = refs - refsOf (robjs es) := by
  induction es generalizing refs with
  | nil => simp [robjs, refsOf_nil]
  | cons e es ih =>
    rw [List.foldl_cons, ih]
    unfold unref
    cases h : e.robj with
    | none => simp [robjs, h]
    | some bo =>
      have hcons : robjs (e :: es) = bo :: robjs es := by simp [robjs, h]
      rw [hcons, refsOf_cons, sub_sub]

/-- The BO that an element of the request is given a slot for: its handle names a BO, which is not
the memory of another process. -/
def placed (env : Env) (i : ℕ) (info : UInt32 × UInt32) : Option ℕ :=
  (env.gemObjectLookup i info.1).filter fun bo => (env.usermm bo).all (· = env.currentMm)

/-- The BOs of a request, with their priorities, up to the first that is not given a slot. -/
def taken (env : Env) : ℕ → List (UInt32 × UInt32) → List (ℕ × UInt32)
  | _, [] => []
  | i, info :: infos =>
    match placed env i info with
    | none => []
    | some bo => (bo, info.2) :: taken env (i + 1) infos

def userptr (env : Env) (x : ℕ × UInt32) : Bool := (env.usermm x.1).isSome

def entries (env : Env) (xs : List (ℕ × UInt32)) : List Entry := xs.map fun x => entryOf env x.1 x.2

/-- The entries of ordinary BOs. -/
def ordinaries (env : Env) (xs : List (ℕ × UInt32)) : List Entry :=
  entries env (xs.filter fun x => !userptr env x)

/-- The entries of userptr BOs. -/
def userptrs (env : Env) (xs : List (ℕ × UInt32)) : List Entry :=
  entries env (xs.filter fun x => userptr env x)

/-- The array of `n` slots with the BOs `xs` in it: ordinary ones in order from the front, userptrs
from the back. -/
structure Filled (env : Env) (n : ℕ) (refs : ℕ → ℤ) (xs : List (ℕ × UInt32)) (f : Filling) :
    Prop where
  le : xs.length ≤ n
  lastEntry : f.lastEntry = (ordinaries env xs).length
  firstUserptr : f.firstUserptr + (userptrs env xs).length = n
  array : f.array = ordinaries env xs ++ List.replicate (n - xs.length) .zero ++
    (userptrs env xs).reverse
  refs : f.refs = refs + refsOf (xs.map (·.1))

section Loop
variable {env : Env} {n : ℕ} {refs : ℕ → ℤ} {xs : List (ℕ × UInt32)} {f : Filling}

theorem filled_start (env : Env) (n : ℕ) (refs : ℕ → ℤ) :
    Filled env n refs [] (.start n refs) :=
  ⟨by simp, rfl, rfl, by simp [ordinaries, userptrs, entries, Filling.start],
    by simp [Filling.start, refsOf_nil]⟩

theorem lengths (env : Env) (xs : List (ℕ × UInt32)) :
    (ordinaries env xs).length + (userptrs env xs).length = xs.length := by
  induction xs with
  | nil => rfl
  | cons x xs ih =>
    unfold ordinaries userptrs entries at *
    cases h : userptr env x <;> simp [h] at ih ⊢ <;> omega

theorem Filled.ordinary (h : Filled env n refs xs f) {bo : ℕ} {p : UInt32} (hn : xs.length < n)
    (huser : env.usermm bo = none) :
    Filled env n refs (xs ++ [(bo, p)]) { f.ref bo with
      lastEntry := f.lastEntry + 1
      array := f.array.set f.lastEntry (entryOf env bo p) } := by
  have hord : ordinaries env (xs ++ [(bo, p)]) = ordinaries env xs ++ [entryOf env bo p] := by
    simp [ordinaries, entries, userptr, huser]
  have husr : userptrs env (xs ++ [(bo, p)]) = userptrs env xs := by
    simp [userptrs, entries, userptr, huser]
  obtain ⟨k, hk⟩ : ∃ k, n - xs.length = k + 1 := ⟨n - xs.length - 1, by omega⟩
  refine ⟨by simp; omega, ?_, ?_, ?_, ?_⟩
  · simp [hord, h.lastEntry]
  · rw [husr]
    exact h.firstUserptr
  · have hk' : n - (xs ++ [(bo, p)]).length = k := by simp; omega
    rw [hord, husr, hk']
    simp only [h.array, h.lastEntry, hk, List.append_assoc]
    rw [List.set_append_right _ _ (Nat.le_refl _), Nat.sub_self, List.replicate_succ]
    rfl
  · simp [Filling.ref, h.refs, refsOf_append, refsOf_cons, refsOf_nil, add_assoc]

theorem Filled.back (h : Filled env n refs xs f) {bo mm : ℕ} {p : UInt32} (hn : xs.length < n)
    (huser : env.usermm bo = some mm) :
    Filled env n refs (xs ++ [(bo, p)]) { f.ref bo with
      firstUserptr := f.firstUserptr - 1
      array := f.array.set (f.firstUserptr - 1) (entryOf env bo p) } := by
  have hord : ordinaries env (xs ++ [(bo, p)]) = ordinaries env xs := by
    simp [ordinaries, entries, userptr, huser]
  have husr : userptrs env (xs ++ [(bo, p)]) = userptrs env xs ++ [entryOf env bo p] := by
    simp [userptrs, entries, userptr, huser]
  have hlen := lengths env xs
  have hfirst := h.firstUserptr
  obtain ⟨k, hk⟩ : ∃ k, n - xs.length = k + 1 := ⟨n - xs.length - 1, by omega⟩
  refine ⟨by simp; omega, ?_, ?_, ?_, ?_⟩
  · rw [hord]
    exact h.lastEntry
  · simp [husr]
    omega
  · have hk' : n - (xs ++ [(bo, p)]).length = k := by simp; omega
    have hidx : f.firstUserptr - 1 = (ordinaries env xs ++ List.replicate k Entry.zero).length := by
      simp
      omega
    rw [hord, husr, hk', hidx]
    simp only [h.array, hk, List.replicate_succ', List.reverse_append]
    rw [← List.append_assoc, List.append_assoc _ [Entry.zero],
      List.set_append_right _ _ (Nat.le_refl _), Nat.sub_self]
    simp
  · simp [Filling.ref, h.refs, refsOf_append, refsOf_cons, refsOf_nil, add_assoc]

/-- One turn of the loop: a BO that is given a slot is put into it, else nothing changes. -/
theorem createEntry_spec (h : Filled env n refs xs f) (hn : xs.length < n) (i : ℕ)
    (info : UInt32 × UInt32) :
    match placed env i info with
    | none => ∃ e, createEntry env i info f = (.error e, f)
    | some bo => ∃ f', createEntry env i info f = (.ok (), f') ∧
        Filled env n refs (xs ++ [(bo, info.2)]) f' := by
  unfold placed createEntry
  cases hlook : env.gemObjectLookup i info.1 with
  | none => exact ⟨_, rfl⟩
  | some bo =>
    cases huser : env.usermm bo with
    | none => simpa [Option.filter, huser, Filling.ref] using h.ordinary (p := info.2) hn huser
    | some mm =>
      by_cases hmm : mm = env.currentMm
      · simpa [Option.filter, huser, hmm, Filling.ref] using h.back (p := info.2) hn huser
      · simp [Option.filter, huser, hmm, Filling.ref]

/-- The loop takes the BOs up to the first that is not given a slot, and stops there with its
index. -/
theorem createLoop_spec (infos : List (UInt32 × UInt32)) (h : Filled env n refs xs f)
    (hn : xs.length + infos.length = n) (i : ℕ) :
    ∃ f', Filled env n refs (xs ++ taken env i infos) f' ∧
      if (taken env i infos).length = infos.length then createLoop env i infos f = (.ok (), f')
      else (taken env i infos).length < infos.length ∧
        ∃ e, createLoop env i infos f = (.error (e, i + (taken env i infos).length), f') := by
  induction infos generalizing i xs f with
  | nil => exact ⟨f, by simpa [taken] using h, by simp [taken, createLoop]⟩
  | cons info infos ih =>
    rw [List.length_cons] at hn
    have hturn := createEntry_spec h (by omega) i info
    unfold taken createLoop
    cases hp : placed env i info with
    | none =>
      rw [hp] at hturn
      obtain ⟨e, he⟩ := hturn
      exact ⟨f, by simpa using h, by simp [he]⟩
    | some bo =>
      rw [hp] at hturn
      obtain ⟨f₁, hf₁, hfilled⟩ := hturn
      obtain ⟨f', hf', hres⟩ := ih hfilled (by simp; omega) (i + 1)
      refine ⟨f', by simpa using hf', ?_⟩
      simp only [hf₁, List.length_cons, Nat.add_right_cancel_iff]
      split at hres
      · next heq =>
        rw [if_pos heq]
        exact hres
      · next hne =>
        obtain ⟨hlt, e, he⟩ := hres
        rw [if_neg hne]
        exact ⟨by omega, e, by rw [he, Nat.add_right_comm, Nat.add_assoc]⟩

theorem robjs_entries (env : Env) (xs : List (ℕ × UInt32)) :
    robjs (entries env xs) = xs.map (·.1) := by
  induction xs with
  | nil => rfl
  | cons x xs ih => simp [robjs, entries, entryOf]

theorem robjs_append (es es' : List Entry) : robjs (es ++ es') = robjs es ++ robjs es' :=
  List.filterMap_append

theorem robjs_reverse (es : List Entry) : robjs es.reverse = (robjs es).reverse :=
  List.filterMap_reverse

theorem robjs_zero (k : ℕ) : robjs (List.replicate k .zero) = [] := by
  rw [robjs, List.filterMap_replicate]
  rfl

/-- The BOs that the array holds. -/
theorem Filled.robjs_perm (h : Filled env n refs xs f) : (robjs f.array).Perm (xs.map (·.1)) := by
  rw [h.array, robjs_append, robjs_append, robjs_zero, robjs_reverse, List.append_nil]
  have hperm : (robjs (ordinaries env xs) ++ robjs (userptrs env xs)).Perm (xs.map (·.1)) := by
    rw [ordinaries, userptrs, robjs_entries, robjs_entries, ← List.map_append]
    exact (List.perm_append_comm.trans (List.filter_append_perm _ xs)).map _
  exact ((List.reverse_perm _).append_left _).trans hperm

/-- The clean-up of the first slots, as many as there are BOs in the array, misses a BO exactly if
there is a userptr among them, when some slot has been left empty. -/
theorem Filled.missed (h : Filled env n refs xs f) (hn : xs.length < n) :
    robjs (f.array.drop xs.length) = [] ↔ ∀ x ∈ xs, env.usermm x.1 = none := by
  have hlen := lengths env xs
  have hiff : userptrs env xs = [] ↔ ∀ x ∈ xs, env.usermm x.1 = none := by
    simp [userptrs, entries, userptr]
  rw [← hiff, h.array]
  constructor
  · intro hmiss
    by_contra hne
    obtain ⟨u, us, hus⟩ := List.exists_cons_of_ne_nil hne
    -- the first userptr is in the last slot
    rw [hus, List.reverse_cons, ← List.append_assoc,
      List.drop_append_of_le_length (by simp [hus] at hlen ⊢; omega), robjs_append] at hmiss
    have hu : u ∈ entries env (xs.filter fun x => userptr env x) := by
      rw [← userptrs, hus]
      exact List.mem_cons_self
    obtain ⟨x, -, rfl⟩ := List.mem_map.mp hu
    simp [robjs, entryOf] at hmiss
  · intro hnil
    have hord : (ordinaries env xs).length = xs.length := by simpa [hnil] using hlen
    rw [hnil, List.reverse_nil, List.append_nil, ← hord, List.drop_left, robjs_zero]

end Loop

/-- A new list with the BOs `xs`: ordinary ones in order, then the userptrs in reverse. -/
structure BoList.Holds (env : Env) (xs : List (ℕ × UInt32)) (list : BoList) : Prop where
  refcount : list.refcount = 1
  numEntries : list.entries.length = xs.length
  ordinaries : list.entries.take list.firstUserptr = ordinaries env xs
  userptrs : list.entries.drop list.firstUserptr = (userptrs env xs).reverse

theorem Filled.holds {env : Env} {n : ℕ} {refs : ℕ → ℤ} {xs : List (ℕ × UInt32)} {f : Filling}
    (h : Filled env n refs xs f) (hn : xs.length = n) :
    BoList.Holds env xs ⟨1, f.firstUserptr, f.array⟩ := by
  have hlen := lengths env xs
  have hfirst := h.firstUserptr
  have harray : f.array = ordinaries env xs ++ (userptrs env xs).reverse := by
    rw [h.array, hn, Nat.sub_self, List.replicate_zero, List.append_nil]
  have hidx : f.firstUserptr = (ordinaries env xs).length := by omega
  refine ⟨rfl, ?_, ?_, ?_⟩
  · simp [harray, hlen]
  · rw [harray, hidx, List.take_left]
  · rw [harray, hidx, List.drop_left]

/-- The userptrs among the BOs of a list that is given up before it is complete are lost. -/
theorem boListCreate_spec (env : Env) {info : List (UInt32 × UInt32)} (hinfo : info.length < 2 ^ 32)
    (s : State) {xs : List (ℕ × UInt32)} (hxs : taken env 0 info = xs) :
    (∃ a list, env.listAddr = some a ∧ xs.length = info.length ∧ list.Holds env xs ∧
      (robjs list.entries).Perm (xs.map (·.1)) ∧
      boListCreate env info s = (.ok a, { s with
        refs := s.refs + refsOf (xs.map (·.1))
        lists := Function.update s.lists a (some list) })) ∨
    ∃ e lost, (env.listAddr = none ∧ lost = [] ∨ env.listAddr ≠ none ∧ xs.length < info.length ∧
        (lost = [] ↔ ∀ x ∈ xs, env.usermm x.1 = none)) ∧
      boListCreate env info s = (.error e, { s with refs := s.refs + refsOf lost }) := by
  subst hxs
  have hfew : ¬ (2 ^ 64 - 1 - sizeofList) / sizeofEntry < info.length := by
    have hbound : 2 ^ 32 ≤ (2 ^ 64 - 1 - sizeofList) / sizeofEntry := by decide
    omega
  unfold boListCreate
  rw [if_neg hfew]
  cases haddr : env.listAddr with
  | none => exact .inr ⟨.enomem, [], .inl ⟨rfl, rfl⟩, by simp [refsOf_nil]⟩
  | some a =>
    obtain ⟨f, hf, hres⟩ := createLoop_spec info (filled_start env info.length s.refs) (by simp) 0
    rw [List.nil_append] at hf
    split at hres
    · next heq =>
      refine .inl ⟨a, _, rfl, heq, hf.holds heq, hf.robjs_perm, ?_⟩
      simp only [hres, hf.refs]
    · obtain ⟨hlt, e, he⟩ := hres
      refine .inr ⟨e, robjs (f.array.drop (taken env 0 info).length),
        .inr ⟨by simp, hlt, hf.missed hlt⟩, ?_⟩
      have hsplit := hf.robjs_perm
      rw [← List.take_append_drop (taken env 0 info).length f.array, robjs_append] at hsplit
      simp only [he, Nat.zero_add, foldl_unref, robjs_reverse, hf.refs, ← refsOf_perm hsplit,
        refsOf_append, refsOf_perm (List.reverse_perm _)]
      rw [add_comm (refsOf (robjs (f.array.take _))), ← add_assoc, add_sub_cancel_right]

/-- The elements of a request, if they could be copied in. -/
def Request.info (env : Env) (req : Request) : Except Errno (List (UInt32 × UInt32)) :=
  (boCreateListEntryArray env.arrayOk env.user req.boInfoPtr req.boNumber req.boInfoSize).map
    fun array => readEntries env.garbage array req.boNumber.toNat

/-- New lists and new handles are not in use. -/
structure Env.Fresh (env : Env) (s : State) : Prop where
  list : ∀ a, env.listAddr = some a → ∀ h, s.handles h ≠ some a
  handle : ∀ h, env.idrAlloc = .ok h → s.handles h = none

/-- A list after one of its references has been dropped. -/
def BoList.put (list : BoList) : Option BoList :=
  if list.refcount = 1 then none else some { list with refcount := list.refcount - 1 }

/-- The BOs that a list gives up with one of its references. -/
def BoList.dropped (list : BoList) : List ℕ := if list.refcount = 1 then robjs list.entries else []

theorem boListPut_eq {s : State} {a : ℕ} {list : BoList} (h : s.lists a = some list) :
    boListPut a s = { s with
      refs := s.refs - refsOf list.dropped
      lists := Function.update s.lists a list.put } := by
  unfold boListPut BoList.dropped BoList.put
  rw [h]
  by_cases hone : list.refcount = 1
  · simp [hone, foldl_unref]
  · simp [hone, refsOf_nil]

/-- The list that an update replaces. -/
def replaced (req : Request) (s : State) : Option (ℕ × BoList) := do
  let old ← s.handles req.listHandle
  let list ← s.lists old
  if req.operation = opUpdate then return (old, list) else none

/-- What a request that creates or updates a list leaves: a list with the BOs of the request under
the handle, a reference for each of its entries, and of the list that was under it one reference
less. -/
def Stored (env : Env) (req : Request) (info : List (UInt32 × UInt32)) (s : State) (handle : UInt32)
    (s' : State) : Prop :=
  ∃ a list, (taken env 0 info).length = info.length ∧ list.Holds env (taken env 0 info) ∧
    (if req.operation = opUpdate then handle = req.listHandle else s.handles handle = none) ∧
    s'.handles = Function.update s.handles handle (some a) ∧
    s'.refs = s.refs + refsOf (robjs list.entries) -
      (replaced req s).elim 0 (fun old => refsOf old.2.dropped) ∧
    s'.lists = Function.update
      ((replaced req s).elim s.lists fun old => Function.update s.lists old.1 old.2.put)
      a (some list) ∧
    s'.infos = s.infos

/-- A request changes nothing, or does what it is for. -/
def Atomic (env : Env) (req : Request) (s : State) : Prop :=
  match boListIoctl env req s with
  | (.error _, s') => s'.handles = s.handles ∧ s'.refs = s.refs ∧ s'.infos = s.infos
  | (.ok handle, s') => req.operation = opCreate ∨ req.operation = opUpdate →
      ∃ info, req.info env = .ok info ∧ Stored env req info s handle s'

/-- A list that cannot be completed has no userptrs yet, and one that is created is given a
handle. -/
def Clean (env : Env) (req : Request) : Prop :=
  ∀ info, req.info env = .ok info → env.listAddr ≠ none →
    (req.operation = opCreate ∨ req.operation = opUpdate →
      (taken env 0 info).length < info.length →
        ∀ x ∈ taken env 0 info, env.usermm x.1 = none) ∧
    (req.operation = opCreate → (taken env 0 info).length = info.length →
      ∃ handle, env.idrAlloc = .ok handle)

section Ioctl
variable {env : Env} {req : Request} {s : State} {array : Info} {info : List (UInt32 × UInt32)}

theorem add_refsOf_eq {refs : ℕ → ℤ} {bos : List ℕ} : refs + refsOf bos = refs ↔ bos = [] := by
  rw [add_eq_left, refsOf_eq_zero]

theorem boListPut_handles (a : ℕ) (s : State) : (boListPut a s).handles = s.handles := by
  unfold boListPut
  split
  · rfl
  · split <;> rfl

theorem boListPut_infos (a : ℕ) (s : State) : (boListPut a s).infos = s.infos := by
  unfold boListPut
  split
  · rfl
  · split <;> rfl

/-- A new list that is given back takes its references with it. -/
theorem boListPut_new {list : BoList} {xs : List (ℕ × UInt32)} (hholds : list.Holds env xs)
    (hperm : (robjs list.entries).Perm (xs.map (·.1))) (a : ℕ) :
    (boListPut a { s with
      refs := s.refs + refsOf (xs.map (·.1))
      lists := Function.update s.lists a (some list) }).refs = s.refs := by
  rw [boListPut_eq (show _ = some list from Function.update_self ..)]
  simp only [BoList.dropped, hholds.refcount, if_true, refsOf_perm hperm, add_sub_cancel_right]

/-- What is missed of a list that is given up is what a request that fails on it leaves. -/
theorem lost_eq_nil_iff {lost : List ℕ}
    (hlost : env.listAddr = none ∧ lost = [] ∨ env.listAddr ≠ none ∧
      (taken env 0 info).length < info.length ∧
        (lost = [] ↔ ∀ x ∈ taken env 0 info, env.usermm x.1 = none)) :
    lost = [] ↔ (env.listAddr ≠ none → (taken env 0 info).length < info.length →
      ∀ x ∈ taken env 0 info, env.usermm x.1 = none) := by
  rcases hlost with ⟨hnone, rfl⟩ | ⟨hsome, hlt, hiff⟩
  · simp [hnone]
  · rw [hiff]
    exact ⟨fun h _ _ => h, fun h => h hsome hlt⟩

/-- The reference of the table to the list that an update replaces is dropped. -/
theorem boListPut_replaced {old a : ℕ} (list : BoList) (s' : State)
    (hop : req.operation = opUpdate) (hold : s.handles req.listHandle = some old) (hne : old ≠ a)
    (hs' : s'.lists = Function.update s.lists a (some list)) :
    (boListPut old s').refs = s'.refs -
        (replaced req s).elim 0 (fun old => refsOf old.2.dropped) ∧
      (boListPut old s').lists = Function.update
        ((replaced req s).elim s.lists fun old => Function.update s.lists old.1 old.2.put)
        a (some list) := by
  have hlist : s'.lists old = s.lists old := by rw [hs', Function.update_of_ne hne]
  cases hl : s.lists old with
  | none =>
    have hreplaced : replaced req s = none := by simp [replaced, hold, hl]
    rw [hl] at hlist
    simp [boListPut, hlist, hreplaced, hs']
  | some l =>
    have hreplaced : replaced req s = some (old, l) := by simp [replaced, hold, hl, hop]
    rw [hl] at hlist
    simp [boListPut_eq hlist, hreplaced, hs', Function.update_comm hne]

variable (hinfo : req.info env = .ok info)
include hinfo

theorem exists_array : info.length < 2 ^ 32 ∧ ∃ array,
    boCreateListEntryArray env.arrayOk env.user req.boInfoPtr req.boNumber req.boInfoSize =
      .ok array ∧ readEntries env.garbage array req.boNumber.toNat = info := by
  unfold Request.info at hinfo
  cases harray : boCreateListEntryArray env.arrayOk env.user req.boInfoPtr req.boNumber
      req.boInfoSize with
  | error e => simp [harray, Except.map] at hinfo
  | ok array =>
    rw [harray] at hinfo
    have hread := Except.ok.inj hinfo
    refine ⟨?_, array, rfl, hread⟩
    rw [← hread]
    simpa [readEntries] using req.boNumber.toNat_lt

theorem create_atomic_iff (hfresh : env.Fresh s) (hop : req.operation = opCreate) :
    Atomic env req s ↔ Clean env req := by
  obtain ⟨hlen, array, harray, hread⟩ := exists_array hinfo
  have hreplaced : replaced req s = none := by
    unfold replaced
    cases s.handles req.listHandle with
    | none => rfl
    | some old => cases s.lists old <;> simp [hop, show opCreate ≠ opUpdate by decide]
  unfold Atomic boListIoctl Clean
  simp only [harray, hinfo, hread, Except.ok.injEq, forall_eq', hop, if_true, true_or, true_implies,
    exists_eq_left']
  rcases boListCreate_spec env hlen { s with infos := s.infos + 1 } rfl with
    ⟨a, list, haddr, htaken, hholds, hperm, hcreate⟩ | ⟨e, lost, hlost, hcreate⟩
  · simp only [hcreate]
    cases halloc : env.idrAlloc with
    | error e =>
      -- the list has been given back, but not the array
      simp [boListPut_infos, haddr, htaken]
    | ok handle =>
      simp only [haddr, htaken]
      refine iff_of_true ?_ (by simp)
      refine ⟨a, list, htaken, hholds, ?_, rfl, ?_, ?_, rfl⟩
      · rw [if_neg (by rw [hop]; decide)]
        exact hfresh.handle handle halloc
      · simp [hreplaced, freeInfo, refsOf_perm hperm]
      · simp [hreplaced, freeInfo]
  · simp only [hcreate, freeInfo, Nat.add_sub_cancel, true_and, and_true, add_refsOf_eq]
    have hlt : env.listAddr ≠ none → (taken env 0 info).length < info.length := fun hsome =>
      hlost.elim (fun h => absurd h.1 hsome) fun h => h.2.1
    rw [lost_eq_nil_iff hlost]
    constructor
    · exact fun h hsome => ⟨h hsome, fun heq => absurd heq (Nat.ne_of_lt (hlt hsome))⟩
    · exact fun h hsome => (h hsome).1

theorem update_atomic_iff (hfresh : env.Fresh s) (hop : req.operation = opUpdate) :
    Atomic env req s ↔ Clean env req := by
  obtain ⟨hlen, array, harray, hread⟩ := exists_array hinfo
  unfold Atomic boListIoctl Clean
  simp only [harray, hinfo, hread, Except.ok.injEq, forall_eq', hop, if_true, or_true, true_implies,
    exists_eq_left', show opUpdate ≠ opCreate by decide, show opUpdate ≠ opDestroy by decide,
    if_false, false_implies, and_true]
  rcases boListCreate_spec env hlen { s with infos := s.infos + 1 } rfl with
    ⟨a, list, haddr, htaken, hholds, hperm, hcreate⟩ | ⟨e, lost, hlost, hcreate⟩
  · simp only [hcreate]
    cases hold : s.handles req.listHandle with
    | none =>
      simp only [freeInfo, boListPut_handles, boListPut_infos]
      have hrefs := boListPut_new (s := { s with infos := s.infos + 1 }) hholds hperm a
      refine iff_of_true ⟨trivial, hrefs, rfl⟩ ?_
      intro _ hlt
      omega
    | some old =>
      refine iff_of_true ?_ (fun _ hlt => by omega)
      have hne : old ≠ a := by
        rintro rfl
        exact hfresh.list old haddr req.listHandle hold
      have hput := boListPut_replaced list { s with
        refs := s.refs + refsOf ((taken env 0 info).map (·.1))
        lists := Function.update s.lists a (some list)
        handles := Function.update s.handles req.listHandle (some a)
        infos := s.infos + 1 } hop hold hne rfl
      refine ⟨a, list, htaken, hholds, by rw [if_pos hop], ?_, ?_, hput.2, ?_⟩
      · simp [freeInfo, boListPut_handles]
      · rw [refsOf_perm hperm]
        exact hput.1
      · simp [freeInfo, boListPut_infos]
  · simp only [hcreate, freeInfo, Nat.add_sub_cancel, true_and, and_true, add_refsOf_eq]
    exact lost_eq_nil_iff hlost

omit hinfo in
/-- A request is atomic exactly if it does not leave a list with a userptr unfinished, and no list
that it has created is refused a handle. -/
theorem boListIoctl_atomic_iff (hfresh : env.Fresh s) (req : Request) :
    Atomic env req s ↔ Clean env req := by
  cases hinfo : req.info env with
  | error e =>
    refine iff_of_true ?_ (fun info h => by rw [hinfo] at h; cases h)
    unfold Request.info at hinfo
    unfold Atomic boListIoctl
    cases harray : boCreateListEntryArray env.arrayOk env.user req.boInfoPtr req.boNumber
        req.boInfoSize with
    | error e => exact ⟨rfl, rfl, rfl⟩
    | ok array => simp [harray, Except.map] at hinfo
  | ok info =>
    by_cases hcreate : req.operation = opCreate
    · exact create_atomic_iff hinfo hfresh hcreate
    by_cases hupdate : req.operation = opUpdate
    · exact update_atomic_iff hinfo hfresh hupdate
    obtain ⟨-, array, harray, -⟩ := exists_array hinfo
    refine iff_of_true ?_ (fun info _ _ => ⟨fun h => ?_, fun h => absurd h hcreate⟩)
    · unfold Atomic boListIoctl
      simp only [harray, if_neg hcreate, if_neg hupdate]
      split
      · next heq =>
        split at heq
        · cases heq
        · obtain ⟨-, rfl⟩ := Prod.mk.inj heq
          exact ⟨rfl, rfl, rfl⟩
      · exact fun h => (h.elim hcreate hupdate).elim
    · exact (h.elim hcreate hupdate).elim

end Ioctl

/-- BO 0 is a userptr of the process, BO 1 is not; there are no other BOs. -/
def sampleEnv (idrAlloc : Except Errno UInt32) : Env where
  arrayOk := true
  user a := some (if a % 8 = 0 then (a / 8).toUInt8 else 0)
  garbage _ := 0
  listAddr := some 0
  gemObjectLookup _ handle := if handle.toNat < 2 then some handle.toNat else none
  usermm bo := if bo = 0 then some 0 else none
  currentMm := 0
  primeShared _ := false
  idrAlloc := idrAlloc

/-- A file without lists. -/
def State.empty : State := ⟨0, fun _ => none, fun _ => none, 0⟩

/-- The first `n` handles. -/
def createRequest (n : UInt32) : Request := ⟨opCreate, 0, n, 8, 0⟩

theorem sample_fresh (idrAlloc : Except Errno UInt32) : (sampleEnv idrAlloc).Fresh State.empty :=
  ⟨fun _ _ _ => by simp [State.empty], fun _ _ => rfl⟩

/-- A list of the two BOs. -/
theorem boListIoctl_atomic_iff_two :
    Atomic (sampleEnv (.ok 1)) (createRequest 2) State.empty ↔
      Clean (sampleEnv (.ok 1)) (createRequest 2) :=
  boListIoctl_atomic_iff (sample_fresh _) _

/-- The third handle is not found when the userptr is in the last slot: its reference is lost. -/
theorem boListIoctl_loses_userptr :
    ¬ ∀ env req s, Env.Fresh env s → Atomic env req s := by
  intro h
  have hatomic := h (sampleEnv (.ok 1)) (createRequest 3) State.empty (sample_fresh _)
  have hrun : (boListIoctl (sampleEnv (.ok 1)) (createRequest 3) State.empty).2.refs 0 = 1 := rfl
  have hkept : (boListIoctl (sampleEnv (.ok 1)) (createRequest 3) State.empty).2.refs = 0 :=
    hatomic.2.1
  rw [hkept] at hrun
  cases hrun

end Gsgpu.BoLists
