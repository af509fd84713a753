import Gsgpu.BoList.Atomic
import Gsgpu.BoList.Lists
import Gsgpu.Lib.BucketSort

/-! `gsgpu_bo_list_get_list` on a list that `gsgpu_bo_list_create` has made: the entries are put in
front of the list of buffers to validate, by a stable sort. -/
namespace Gsgpu.BoLists
open Intrusive Sharing

/-- The body of the loop over the entries: the one at `e` goes to the bucket of its priority, which
has to be one of those on the stack. -/
def getListEntry (parent : ℕ → Bool) (p : ℕ) (list : BoLists.BoList)
    (s : Links Addr × (ℕ → Option ℕ)) (e : ℕ) : Option (Links Addr × (ℕ → Option ℕ)) := do
  let entry ← list.entries[e]?
  let bo ← entry.robj
  let links ← if parent bo then some s.1
    else if entry.priority.toNat < numBuckets then
      some (s.1.addTail (.entry e) (.head p (.bucket entry.priority.toNat)))
    else none
  return (links, Function.update s.2 e none)

/-- `gsgpu_bo_list_get_list`; `parent` tells which BOs have one. The second component is
`user_pages` of the entries. -/
def boListGetList (parent : ℕ → Bool) (p : ℕ) (list : BoLists.BoList) (links : Links Addr)
    (userPages : ℕ → Option ℕ) : Option (Links Addr × (ℕ → Option ℕ)) := do
  let links := (List.range numBuckets).foldl (fun L i => L.init (.head p (.bucket i))) links
  let s ← (List.range list.entries.length).foldlM (getListEntry parent p list) (links, userPages)
  return ((List.range numBuckets).foldl
    (fun L i => L.splice (.head p (.bucket i)) (.head p .validated)) s.1, s.2)

/-- The priority that an entry has been given. -/
def BoList.priorityOf (list : BoLists.BoList) (e : ℕ) : ℕ :=
  list.entries[e]?.elim 0 (·.priority.toNat)

def BoList.hasParent (parent : ℕ → Bool) (list : BoLists.BoList) (e : ℕ) : Bool :=
  (list.entries[e]?.bind (·.robj)).any parent

/-- The entries whose BO has no parent, by descending priority, in the order of the array among
those of the same priority. -/
def BoList.validationOrder (parent : ℕ → Bool) (list : BoLists.BoList) : List ℕ :=
  ((List.range list.entries.length).filter fun e => !list.hasParent parent e).mergeSort
    (BucketSort.descending list.priorityOf)

/-- The loop does not leave the array, follow an absent pointer or miss the buckets. -/
structure BoList.Sortable (list : BoLists.BoList) : Prop where
  robj : ∀ entry ∈ list.entries, entry.robj.isSome
  priority : ∀ entry ∈ list.entries, entry.priority.toNat < numBuckets

section Sortable
variable {list : BoLists.BoList} {parent : ℕ → Bool} {p : ℕ}

theorem BoList.Sortable.priorityOf_lt (h : list.Sortable) (e : ℕ) :
    list.priorityOf e < numBuckets := by
  unfold BoList.priorityOf
  cases he : list.entries[e]? with
  | none => decide
  | some entry => exact h.priority entry (List.mem_of_getElem? he)

/-- The list as the sort sees it; where the userptrs begin does not matter to it. -/
def BoList.Sortable.view (h : list.Sortable) (parent : ℕ → Bool) : Sharing.BoList where
  numEntries := list.entries.length
  firstUserptr := list.entries.length
  priority := list.priorityOf
  hasParent := list.hasParent parent
  priority_lt := h.priorityOf_lt
  userptr e he := by simp [BoList.hasParent, List.getElem?_eq_none he]

theorem BoList.Sortable.getListEntry_eq (h : list.Sortable) {e : ℕ} (he : e < list.entries.length)
    (s : Links Addr × (ℕ → Option ℕ)) :
    getListEntry parent p list s e = some (if list.hasParent parent e then s.1
      else s.1.addTail (.entry e) (.head p (.bucket (list.priorityOf e))),
        Function.update s.2 e none) := by
  have hentry : list.entries[e]? = some list.entries[e] := List.getElem?_eq_getElem he
  have hmem : list.entries[e] ∈ list.entries := List.getElem_mem he
  obtain ⟨bo, hbo⟩ := Option.isSome_iff_exists.mp (h.robj _ hmem)
  have hpri := h.priority _ hmem
  unfold getListEntry BoList.hasParent BoList.priorityOf
  simp only [hentry, hbo, Option.bind_eq_bind, Option.bind_some, Option.any_some, Option.elim_some,
    if_pos hpri]
  split <;> rfl

variable (parent p) in
/-- The loop over the entries, which also clears `user_pages` of all it has met. -/
theorem BoList.Sortable.loop_eq (h : list.Sortable) (links : Links Addr)
    (userPages : ℕ → Option ℕ) {m : ℕ} (hm : m ≤ list.entries.length) :
    ∃ pages, (∀ e < m, pages e = none) ∧
      (List.range m).foldlM (getListEntry parent p list) (links, userPages) =
        some ((List.range m).foldl (fun L e => if (h.view parent).hasParent e then L
          else L.addTail (.entry e) (.head p (.bucket ((h.view parent).priority e)))) links,
          pages) := by
  induction m with
  | zero => exact ⟨userPages, fun e he => absurd he (Nat.not_lt_zero e), rfl⟩
  | succ m ih =>
    obtain ⟨pages, hpages, hrun⟩ := ih (by omega)
    refine ⟨Function.update pages m none, fun e he => ?_, ?_⟩
    · by_cases hem : e = m
      · rw [hem, Function.update_self]
      · rw [Function.update_of_ne hem]
        exact hpages e (by omega)
    · rw [List.range_succ, List.foldlM_append, hrun, List.foldl_append]
      simp only [Option.bind_eq_bind, Option.bind_some, List.foldlM_cons, List.foldlM_nil,
        h.getListEntry_eq (show m < list.entries.length by omega), List.foldl_cons, List.foldl_nil]
      rfl

variable (parent p) in
theorem BoList.Sortable.boListGetList_eq (h : list.Sortable) (links : Links Addr)
    (userPages : ℕ → Option ℕ) : ∃ pages, (∀ e < list.entries.length, pages e = none) ∧
      boListGetList parent p list links userPages =
        some (Sharing.getList (h.view parent) p links, pages) := by
  obtain ⟨pages, hpages, hrun⟩ := h.loop_eq parent p
    ((List.range numBuckets).foldl (fun L i => L.init (.head p (.bucket i))) links) userPages
    (Nat.le_refl _)
  refine ⟨pages, hpages, ?_⟩
  unfold boListGetList
  simp only [hrun, Option.bind_eq_bind, Option.bind_some]
  rfl

variable (parent) in
/-- What the buckets come to. -/
theorem BoList.Sortable.buckets_eq (h : list.Sortable) (xs : List Addr) :
    (List.range numBuckets).foldl
      (fun ys i => bucketOf (h.view parent) list.entries.length i ++ ys) xs =
        (list.validationOrder parent).map .entry ++ xs := by
  let roots := (List.range list.entries.length).filter fun e => !list.hasParent parent e
  have hbucket : ∀ i, bucketOf (h.view parent) list.entries.length i =
      (roots.filter (list.priorityOf · = i)).map .entry := by
    intro i
    rw [List.filter_filter]
    refine congrArg (List.map Addr.entry) (List.filter_congr fun e _ => ?_)
    exact Bool.and_comm ..
  have hfold : ∀ n, (List.range n).foldl
      (fun ys i => bucketOf (h.view parent) list.entries.length i ++ ys) xs =
        (BucketSort.gather list.priorityOf roots n []).map .entry ++ xs := by
    intro n
    induction n with
    | zero => rfl
    | succ n ih =>
      rw [List.range_succ, List.foldl_append, ih, BucketSort.gather_succ, List.map_append,
        List.append_assoc, ← hbucket]
      rfl
  rw [hfold, BucketSort.gather_eq_mergeSort fun e _ => h.priorityOf_lt e, List.append_nil]
  rfl

end Sortable

section Create
variable {env : Env} {info : List (UInt32 × UInt32)} {s s' : State} {a : ℕ}
  {list : BoLists.BoList}

theorem boListCreate_holds (hcreate : boListCreate env info s = (.ok a, s'))
    (hlist : s'.lists a = some list) : list.Holds env (taken env 0 info) := by
  unfold boListCreate at hcreate
  split at hcreate
  · cases hcreate
  · split at hcreate
    · cases hcreate
    · next b _ =>
      obtain ⟨f, hf, hres⟩ := createLoop_spec info (filled_start env info.length s.refs) (by simp) 0
      rw [List.nil_append] at hf
      split at hres
      · next heq =>
        simp only [hres] at hcreate
        obtain ⟨hb, rfl⟩ := Prod.mk.inj hcreate
        obtain rfl := Except.ok.inj hb
        simp only [Function.update_self] at hlist
        obtain rfl := Option.some.inj hlist
        exact hf.holds heq
      · obtain ⟨-, e, he⟩ := hres
        simp only [he] at hcreate
        cases (Prod.mk.inj hcreate).1

/-- Every entry of a new list is that of a BO. -/
theorem BoList.Holds.entry {xs : List (ℕ × UInt32)} (h : list.Holds env xs) {entry : Entry}
    (hentry : entry ∈ list.entries) : ∃ bo priority, entry = entryOf env bo priority := by
  have hof : ∀ ys, entry ∈ BoLists.entries env ys → ∃ bo priority, entry = entryOf env bo priority := by
    intro ys hmem
    obtain ⟨x, -, rfl⟩ := List.mem_map.mp hmem
    exact ⟨x.1, x.2, rfl⟩
  rw [← List.take_append_drop list.firstUserptr list.entries, h.ordinaries, h.userptrs] at hentry
  rcases List.mem_append.mp hentry with hmem | hmem
  · exact hof _ hmem
  · exact hof _ (List.mem_reverse.mp hmem)

/-- The clamp is what keeps the bucket index in range. -/
theorem BoList.Holds.sortable {xs : List (ℕ × UInt32)} (h : list.Holds env xs) : list.Sortable := by
  refine ⟨fun entry hentry => ?_, fun entry hentry => ?_⟩
  · obtain ⟨bo, priority, rfl⟩ := h.entry hentry
    rfl
  · obtain ⟨bo, priority, rfl⟩ := h.entry hentry
    have hle : min priority maxPriority ≤ maxPriority := Std.min_le_right
    exact Nat.lt_succ_of_le (UInt32.le_iff_toNat_le.mp hle)

/-- The list of buffers to validate gets the entries of a new list whose BO has no parent in front,
stably sorted by priority, and `user_pages` of every entry is cleared. -/
theorem boListGetList_sorted (parent : ℕ → Bool) {p : ℕ} {links : Links Addr}
    (userPages : ℕ → Option ℕ) {xs : List Addr}
    (hcreate : boListCreate env info s = (.ok a, s')) (hlist : s'.lists a = some list)
    (hlinks : links.Circle (.head p .validated) xs) (hheads : ∀ i, .head p (.bucket i) ∉ xs)
    (hentries : ∀ e < list.entries.length, .entry e ∉ xs) :
    ∃ links' userPages', boListGetList parent p list links userPages = some (links', userPages') ∧
      links'.Circle (.head p .validated) ((list.validationOrder parent).map .entry ++ xs) ∧
      ∀ e < list.entries.length, userPages' e = none := by
  have hsort := (boListCreate_holds hcreate hlist).sortable
  obtain ⟨pages, hpages, hrun⟩ := hsort.boListGetList_eq parent p links userPages
  refine ⟨_, pages, hrun, ?_, hpages⟩
  have hfamily : Family links {.head p .validated} fun _ => xs := by
    refine ⟨fun h hh => ?_, fun h hh k hk hne => ?_⟩
    · rw [Set.mem_singleton_iff.mp hh]
      exact hlinks
    · exact absurd (hh.trans hk.symm) hne
  have honto := family_getList_onto (l := hsort.view parent) hfamily rfl (by simp)
    (fun _ _ i => hheads i) (by
      rintro e he - a rfl
      simpa using hentries e he)
  have hcircle := honto.circle (.head p .validated) rfl
  rw [Function.update_self] at hcircle
  exact hsort.buckets_eq parent xs ▸ hcircle

end Create

/-- A userptr of priority 7 and an ordinary BO of priority 100, in front of the page directory. -/
theorem boListGetList_sorted_two :
    ∃ list s' links' userPages',
      boListCreate (sampleEnv (.ok 1)) [(0, 7), (1, 100)] State.empty = (.ok 0, s') ∧
      s'.lists 0 = some list ∧
      boListGetList (fun _ => false) 0 list
        (((⟨id, id⟩ : Links Addr).init (.head 0 .validated)).add (.vmPd 0) (.head 0 .validated))
        (fun _ => some 0) = some (links', userPages') ∧
      links'.Circle (.head 0 .validated)
        ((list.validationOrder fun _ => false).map .entry ++ [.vmPd 0]) ∧
      ∀ e < list.entries.length, userPages' e = none := by
  have hcreate : boListCreate (sampleEnv (.ok 1)) [(0, 7), (1, 100)] State.empty = (.ok 0, _) := rfl
  have hcircle := ((⟨id, id⟩ : Links Addr).circle_init (.head 0 .validated)).add
    (show Addr.vmPd 0 ∉ [Addr.head 0 .validated] by decide)
  obtain ⟨links', userPages', hrun⟩ := boListGetList_sorted (fun _ => false)
    (fun _ => some 0) hcreate rfl hcircle (by simp) (by simp)
  exact ⟨_, _, links', userPages', rfl, rfl, hrun⟩

end Gsgpu.BoLists
