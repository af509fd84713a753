import Mathlib.Logic.Function.Basic
import Mathlib.Data.List.Basic
import Mathlib.Data.List.Nodup

/-! Circular doubly linked lists through links that are embedded in the entries, as `list_head` of
the kernel: only two pointers of each entry are there, and a list is what following them gives. -/
namespace Intrusive

variable {α : Type*}

/-- The pointers of all list heads and entries. -/
@[ext]
structure Links (α : Type*) where
  next : α → α
  prev : α → α

namespace Links

section Operations

variable [DecidableEq α] (L : Links α)

/-- `__list_del`: two entries become neighbours. -/
def join (p n : α) : Links α where
  next := Function.update L.next p n
  prev := Function.update L.prev n p

/-- `INIT_LIST_HEAD`. -/
def init (h : α) : Links α := L.join h h

/-- `__list_add`. -/
def addBetween (x p n : α) : Links α where
  next := Function.update (Function.update L.next x n) p x
  prev := Function.update (Function.update L.prev n x) x p

/-- `list_add`. -/
def add (x h : α) : Links α := L.addBetween x h (L.next h)

/-- `list_add_tail`. -/
def addTail (x h : α) : Links α := L.addBetween x (L.prev h) h

/-- `list_del_init`. -/
def delInit (x : α) : Links α := (L.join (L.prev x) (L.next x)).init x

/-- `list_empty`. -/
def empty (h : α) : Bool := L.next h = h

/-- `list_splice`. -/
def splice (l h : α) : Links α :=
  if L.empty l then L else (L.join h (L.next l)).join (L.prev l) (L.next h)

/-- The entries from `p` on up to the head, as `list_for_each_entry` visits them. -/
def entries (h : α) : ℕ → α → Option (List α)
  | 0, _ => none
  | fuel + 1, p => if p = h then some [] else (entries h fuel (L.next p)).map (p :: ·)

end Operations

/-- A way from `a` over `xs` to `b`, in both directions. -/
def Seg (L : Links α) (a : α) : List α → α → Prop
  | [], b => L.next a = b ∧ L.prev b = a
  | x :: xs, b => (L.next a = x ∧ L.prev x = a) ∧ Seg L x xs b

/-- The list with head `h` has the entries `xs`. -/
def Circle (L : Links α) (h : α) (xs : List α) : Prop := (h :: xs).Nodup ∧ L.Seg h xs h

variable {L L' : Links α} {a b h x y : α} {xs ys : List α}

theorem seg_append : L.Seg a (xs ++ y :: ys) b ↔ L.Seg a xs y ∧ L.Seg y ys b := by
  induction xs generalizing a with
  | nil => rfl
  | cons x xs ih => simp only [List.cons_append, Seg, ih, and_assoc]

/-- A way needs the pointers on it only. -/
theorem Seg.congr (hs : L.Seg a xs b) (hnext : ∀ z ∈ a :: xs, L'.next z = L.next z)
    (hprev : ∀ z, z ∈ xs ∨ z = b → L'.prev z = L.prev z) : L'.Seg a xs b := by
  induction xs generalizing a with
  | nil => exact ⟨(hnext a (by simp)).trans hs.1, (hprev b (.inr rfl)).trans hs.2⟩
  | cons x xs ih =>
    refine ⟨⟨(hnext a (by simp)).trans hs.1.1, (hprev x (.inl (by simp))).trans hs.1.2⟩, ?_⟩
    exact ih hs.2 (fun z hz => hnext z (by simp [hz]))
      fun z hz => hprev z (hz.imp_left (List.mem_cons_of_mem x))

/-- The first pointer of a way, and the rest that does not need it. -/
theorem Seg.next_eq (hs : L.Seg a xs b) : L.next a = (xs ++ [b]).head (by simp) := by
  cases xs with
  | nil => exact hs.1
  | cons x xs => exact hs.1.1

/-- A way that starts elsewhere and then goes on as before. -/
theorem Seg.restart {a' : α} (hs : L.Seg a xs b)
    (hfirst : L'.next a' = L.next a ∧ L'.prev (L.next a) = a')
    (hnext : ∀ z ∈ xs, L'.next z = L.next z)
    (hprev : ∀ z, z ∈ xs ∨ z = b → z ≠ L.next a → L'.prev z = L.prev z)
    (hnodup : (xs ++ [b]).Nodup) : L'.Seg a' xs b := by
  cases xs with
  | nil =>
    rw [hs.1] at hfirst
    exact hfirst
  | cons x xs =>
    rw [hs.1.1] at hfirst hprev
    rw [List.cons_append, List.nodup_cons] at hnodup
    refine ⟨hfirst, hs.2.congr hnext fun z hz => hprev z (hz.imp_left (List.mem_cons_of_mem x)) ?_⟩
    rintro rfl
    exact hnodup.1 (by simpa using hz)

theorem Circle.congr (hc : L.Circle h xs)
    (hsame : ∀ z ∈ h :: xs, L'.next z = L.next z ∧ L'.prev z = L.prev z) : L'.Circle h xs := by
  refine ⟨hc.1, hc.2.congr (fun z hz => (hsame z hz).1) fun z hz => (hsame z ?_).2⟩
  rcases hz with hz | rfl
  · exact List.mem_cons_of_mem _ hz
  · exact List.mem_cons_self

/-- An entry of a list points at entries of the list or at its head. -/
theorem Seg.next_mem (hs : L.Seg a xs b) (hx : x ∈ a :: xs) : L.next x ∈ xs ∨ L.next x = b := by
  induction xs generalizing a with
  | nil =>
    rw [List.mem_singleton.mp hx]
    exact .inr hs.1
  | cons y ys ih =>
    rcases List.mem_cons.mp hx with rfl | hx
    · exact .inl (by simp [hs.1.1])
    · exact (ih hs.2 hx).imp_left (List.mem_cons_of_mem y)

theorem Seg.prev_mem (hs : L.Seg a xs b) (hx : x ∈ xs ∨ x = b) : L.prev x ∈ a :: xs := by
  induction xs generalizing a with
  | nil =>
    rcases hx with hx | rfl
    · cases hx
    · simp [hs.2]
  | cons y ys ih =>
    by_cases hxy : x = y
    · rw [hxy, hs.1.2]
      exact List.mem_cons_self
    · have : L.prev x ∈ y :: ys :=
        ih hs.2 (hx.imp_left fun hx => (List.mem_cons.mp hx).resolve_left hxy)
      exact List.mem_cons_of_mem a this

theorem Circle.next_mem (hc : L.Circle h xs) (hx : x ∈ h :: xs) : L.next x ∈ h :: xs := by
  rcases hc.2.next_mem hx with hx | hx
  · exact List.mem_cons_of_mem _ hx
  · rw [hx]
    exact List.mem_cons_self

theorem Circle.prev_mem (hc : L.Circle h xs) (hx : x ∈ h :: xs) : L.prev x ∈ h :: xs :=
  hc.2.prev_mem ((List.mem_cons.mp hx).symm)

/-- Going on from any entry of a way leads to its end. -/
theorem Seg.next_eq_of_append (hs : L.Seg a (xs ++ x :: ys) b) :
    L.next x = (ys ++ [b]).head (by simp) := (seg_append.mp hs).2.next_eq

/-- An entry does not point at itself. -/
theorem Circle.next_ne (hc : L.Circle h xs) (hx : x ∈ xs) : L.next x ≠ x := by
  obtain ⟨ys, zs, rfl⟩ := List.append_of_mem hx
  obtain ⟨hh, hnodup⟩ := List.nodup_cons.mp hc.1
  have hxz := (List.nodup_cons.mp (List.nodup_append.mp hnodup).2.1).1
  rcases (seg_append.mp hc.2).2.next_mem List.mem_cons_self with hn | hn
  · exact fun heq => hxz (heq ▸ hn)
  · exact fun heq => hh (by simp [← hn, heq])

theorem Circle.empty_iff [DecidableEq α] (hc : L.Circle h xs) : L.empty h = true ↔ xs = [] := by
  have hn := hc.2.next_eq
  have hnodup := (List.nodup_cons.mp hc.1).1
  cases xs with
  | nil => simpa [Links.empty] using hn
  | cons x xs =>
    simp only [List.cons_append, List.head_cons] at hn
    simp only [Links.empty, hn, decide_eq_true_eq, reduceCtorEq, iff_false]
    rintro rfl
    simp at hnodup

private theorem nodup_concat (hnodup : (h :: xs).Nodup) : (xs ++ [h]).Nodup := by
  rw [List.nodup_append_comm]
  exact hnodup

section Update

variable [DecidableEq α]

@[simp] theorem init_next (L : Links α) (h : α) : (L.init h).next h = h := by simp [init, join]

@[simp] theorem init_prev (L : Links α) (h : α) : (L.init h).prev h = h := by simp [init, join]

theorem init_frame (hx : x ≠ h) : (L.init h).next x = L.next x ∧ (L.init h).prev x = L.prev x := by
  simp [init, join, hx]

theorem circle_init (L : Links α) (h : α) : (L.init h).Circle h [] :=
  ⟨List.nodup_singleton h, L.init_next h, L.init_prev h⟩

/-- A new entry comes first. -/
theorem Circle.add (hc : L.Circle h xs) (hx : x ∉ h :: xs) : (L.add x h).Circle h (x :: xs) := by
  have hn : L.next h ∈ h :: xs := hc.next_mem List.mem_cons_self
  have hxn : L.next h ≠ x := fun heq => hx (heq ▸ hn)
  have hxh : x ≠ h := fun heq => hx (heq ▸ List.mem_cons_self)
  obtain ⟨hnodup, hs⟩ := hc
  have hh := (List.nodup_cons.mp hnodup).1
  have hxs : x ∉ xs := fun hmem => hx (List.mem_cons_of_mem _ hmem)
  refine ⟨?_, ⟨by simp [Links.add, addBetween], by simp [Links.add, addBetween]⟩, ?_⟩
  · simp only [List.nodup_cons, List.mem_cons, not_or]
    exact ⟨⟨hxh.symm, hh⟩, hxs, (List.nodup_cons.mp hnodup).2⟩
  · refine hs.restart ⟨by simp [Links.add, addBetween, hxh], ?_⟩ (fun z hz => ?_)
      (fun z hz hne => ?_) (nodup_concat hnodup)
    · simp [Links.add, addBetween, hxn]
    · have hzx : z ≠ x := fun heq => hxs (heq ▸ hz)
      have hzh : z ≠ h := fun heq => hh (heq ▸ hz)
      simp [Links.add, addBetween, hzx, hzh]
    · have hzx : z ≠ x := by
        rintro rfl
        rcases hz with hz | hz
        · exact hxs hz
        · exact hxh hz
      simp [Links.add, addBetween, hzx, hne]

theorem Circle.add_frame (hc : L.Circle h xs) {z : α} (hz : z ∉ h :: xs) (hzx : z ≠ x) :
    (L.add x h).next z = L.next z ∧ (L.add x h).prev z = L.prev z := by
  have hn : z ≠ L.next h := fun heq => hz (heq ▸ hc.next_mem List.mem_cons_self)
  have hh : z ≠ h := fun heq => hz (heq ▸ List.mem_cons_self)
  simp [Links.add, addBetween, hzx, hn, hh]

/-- A new entry comes last. -/
theorem Circle.addTail (hc : L.Circle h xs) (hx : x ∉ h :: xs) :
    (L.addTail x h).Circle h (xs ++ [x]) := by
  have hxh : x ≠ h := fun heq => hx (heq ▸ List.mem_cons_self)
  have hxp : x ≠ L.prev h := fun heq => hx (heq ▸ hc.prev_mem List.mem_cons_self)
  obtain ⟨hnodup, hs⟩ := hc
  obtain ⟨hh, hxs⟩ := List.nodup_cons.mp hnodup
  have hxxs : x ∉ xs := fun hmem => hx (List.mem_cons_of_mem _ hmem)
  refine ⟨?_, ?_⟩
  · rw [List.nodup_cons, List.mem_append, List.mem_singleton, not_or, List.nodup_append]
    refine ⟨⟨hh, hxh.symm⟩, hxs, List.nodup_singleton x, fun a ha b hb => ?_⟩
    rw [List.mem_singleton.mp hb]
    rintro rfl
    exact hxxs ha
  · rw [seg_append]
    refine ⟨?_, by simp [Links.addTail, addBetween, Seg, hxp, hxh.symm]⟩
    -- The way to the last entry is kept, and goes on to the new one.
    rcases List.eq_nil_or_concat xs with rfl | ⟨xs', q, rfl⟩
    · have hp : L.prev h = h := hs.2
      simp [Links.addTail, addBetween, Seg, hp]
    · rw [List.concat_eq_append] at hs hh hxs hxxs ⊢
      obtain ⟨hleft, hq⟩ := seg_append.mp hs
      have hp : L.prev h = q := hq.2
      rw [seg_append]
      refine ⟨hleft.congr (fun z hz => ?_) fun z hz => ?_, ?_⟩
      · have hzx : z ≠ x := by
          rintro rfl
          rcases List.mem_cons.mp hz with hz | hz
          · exact hxh hz
          · exact hxxs (by simp [hz])
        have hzq : z ≠ q := by
          rintro rfl
          rcases List.mem_cons.mp hz with hz | hz
          · exact hh (by simp [hz])
          · exact (List.nodup_append.mp hxs).2.2 z hz z (by simp) rfl
        simp [Links.addTail, addBetween, hp, hzx, hzq]
      · have hzmem : z ∈ xs' ++ [q] := by
          rcases hz with hz | rfl <;> simp [*]
        have hzx : z ≠ x := fun heq => hxxs (heq ▸ hzmem)
        have hzh : z ≠ h := fun heq => hh (heq ▸ hzmem)
        simp [Links.addTail, addBetween, hzx, hzh]
      · simp [Links.addTail, addBetween, Seg, hp]

theorem Circle.addTail_frame (hc : L.Circle h xs) {z : α} (hz : z ∉ h :: xs) (hzx : z ≠ x) :
    (L.addTail x h).next z = L.next z ∧ (L.addTail x h).prev z = L.prev z := by
  have hp : z ≠ L.prev h := fun heq => hz (heq ▸ hc.prev_mem List.mem_cons_self)
  have hh : z ≠ h := fun heq => hz (heq ▸ List.mem_cons_self)
  simp [Links.addTail, addBetween, hzx, hp, hh]

/-- An entry leaves its list. -/
theorem Circle.delInit (hc : L.Circle h (xs ++ x :: ys)) : (L.delInit x).Circle h (xs ++ ys) := by
  obtain ⟨hnodup, hs⟩ := hc
  obtain ⟨hleft, hright⟩ := seg_append.mp hs
  have hnext := hright.next_mem (x := x) List.mem_cons_self
  obtain ⟨hh, hrest⟩ := List.nodup_cons.mp hnodup
  obtain ⟨hxs, hxys, hdisj⟩ := List.nodup_append.mp hrest
  obtain ⟨hxy, hys⟩ := List.nodup_cons.mp hxys
  simp only [List.mem_append, List.mem_cons, not_or] at hh
  obtain ⟨hhxs, hhx, hhys⟩ := hh
  have hxn : L.next x ≠ x := by
    intro heq
    rcases hnext with hn | hn
    · exact hxy (heq ▸ hn)
    · exact hhx (hn.symm.trans heq)
  have hnodup' : (ys ++ [h]).Nodup := nodup_concat (List.nodup_cons.mpr ⟨hhys, hys⟩)
  -- From the entry before, the way goes on behind the one that left.
  have hgo : ∀ q, L.prev x = q → q ≠ x → q ∉ ys → (L.delInit x).Seg q ys h := by
    rintro q rfl hqx hqys
    refine hright.restart ⟨by simp [Links.delInit, init, join, hqx], ?_⟩ (fun z hz => ?_)
      (fun z hz hne => ?_) hnodup'
    · simp [Links.delInit, init, join, hxn]
    · have hzx : z ≠ x := fun heq => hxy (heq ▸ hz)
      have hzq : z ≠ L.prev x := fun heq => hqys (heq ▸ hz)
      simp [Links.delInit, init, join, hzx, hzq]
    · have hzx : z ≠ x := by
        rintro rfl
        rcases hz with hz | hz
        · exact hxy hz
        · exact hhx hz.symm
      simp [Links.delInit, init, join, hzx, hne]
  refine ⟨?_, ?_⟩
  · rw [List.nodup_cons, List.mem_append, List.nodup_append]
    exact ⟨not_or.mpr ⟨hhxs, hhys⟩, hxs, hys, fun a ha b hb => hdisj a ha b (by simp [hb])⟩
  · rcases List.eq_nil_or_concat xs with rfl | ⟨xs', q, rfl⟩
    · exact hgo h hleft.2 hhx hhys
    · rw [List.concat_eq_append] at hleft hxs hdisj hhxs ⊢
      obtain ⟨hleft', hq⟩ := seg_append.mp hleft
      have hqx : q ≠ x := hdisj q (by simp) x (by simp)
      have hqys : q ∉ ys := fun hmem => hdisj q (by simp) q (by simp [hmem]) rfl
      rw [List.append_assoc, List.singleton_append, seg_append]
      refine ⟨hleft'.congr (fun z hz => ?_) fun z hz => ?_, hgo q hq.2 hqx hqys⟩
      · have hzx : z ≠ x := by
          rintro rfl
          rcases List.mem_cons.mp hz with hz | hz
          · exact hhx hz.symm
          · exact hdisj z (by simp [hz]) z (by simp) rfl
        have hzq : z ≠ q := by
          rintro rfl
          rcases List.mem_cons.mp hz with hz | hz
          · exact hhxs (by simp [hz])
          · exact (List.nodup_append.mp hxs).2.2 z hz z (by simp) rfl
        simp [Links.delInit, init, join, hzx, hq.2, hzq]
      · have hzmem : z ∈ xs' ++ [q] := by
          rcases hz with hz | rfl <;> simp [*]
        have hzx : z ≠ x := hdisj z hzmem x (by simp)
        have hzn : z ≠ L.next x := by
          rintro rfl
          rcases hnext with hn | hn
          · exact hdisj _ hzmem _ (List.mem_cons_of_mem x hn) rfl
          · exact hhxs (hn ▸ hzmem)
        simp [Links.delInit, init, join, hzx, hzn]

theorem Circle.delInit_frame (hc : L.Circle h xs) (hx : x ∈ xs) {z : α} (hz : z ∉ h :: xs) :
    (L.delInit x).next z = L.next z ∧ (L.delInit x).prev z = L.prev z := by
  have hmem : x ∈ h :: xs := List.mem_cons_of_mem h hx
  have hzx : z ≠ x := fun heq => hz (heq ▸ hmem)
  have hzn : z ≠ L.next x := fun heq => hz (heq ▸ hc.next_mem hmem)
  have hzp : z ≠ L.prev x := fun heq => hz (heq ▸ hc.prev_mem hmem)
  simp [Links.delInit, init, join, hzx, hzn, hzp]

/-- The entries of one list come before those of another. The old head is not touched. -/
theorem Circle.splice {l : α} (hl : L.Circle l xs) (hc : L.Circle h ys)
    (hdisj : ∀ z ∈ l :: xs, z ∉ h :: ys) : (L.splice l h).Circle h (xs ++ ys) := by
  have hat : L.next h ∈ h :: ys := hc.next_mem List.mem_cons_self
  have hfirst : L.next l ∈ l :: xs := hl.next_mem List.mem_cons_self
  cases hempty : L.empty l with
  | true =>
    rw [hl.empty_iff.mp hempty]
    simpa [Links.splice, hempty] using hc
  | false =>
    obtain ⟨hlnodup, hls⟩ := hl
    obtain ⟨hcnodup, hcs⟩ := hc
    obtain ⟨hlxs, hxs⟩ := List.nodup_cons.mp hlnodup
    obtain ⟨hhys, hys⟩ := List.nodup_cons.mp hcnodup
    rcases List.eq_nil_or_concat xs with rfl | ⟨xs', q, rfl⟩
    · simp [Links.empty, hls.1] at hempty
    rw [List.concat_eq_append] at *
    obtain ⟨hleft, hq⟩ := seg_append.mp hls
    have hsep : ∀ {z w : α}, z ∈ l :: (xs' ++ [q]) → w ∈ h :: ys → z ≠ w :=
      fun hz hw heq => hdisj _ hz (heq ▸ hw)
    have hqmem : q ∈ l :: (xs' ++ [q]) := by simp
    have hhmem : h ∈ h :: ys := List.mem_cons_self
    refine ⟨?_, ?_⟩
    · rw [List.nodup_cons, List.mem_append, List.nodup_append, not_or]
      exact ⟨⟨fun hmem => hsep (List.mem_cons_of_mem l hmem) hhmem rfl, hhys⟩, hxs, hys,
        fun a ha b hb => hsep (List.mem_cons_of_mem l ha) (List.mem_cons_of_mem h hb)⟩
    · rw [List.append_assoc, List.singleton_append, seg_append]
      constructor
      · refine hleft.restart ⟨?_, ?_⟩ (fun z hz => ?_) (fun z hz hne => ?_) hxs
        · simp [Links.splice, hempty, join, hq.2, (hsep hqmem hhmem).symm]
        · simp [Links.splice, hempty, join, hsep hfirst hat]
        · have hzh : z ≠ h := hsep (by simp [hz]) hhmem
          have hzq : z ≠ q := by
            rintro rfl
            exact (List.nodup_append.mp hxs).2.2 z hz z (by simp) rfl
          simp [Links.splice, hempty, join, hq.2, hzq, hzh]
        · have hzat : z ≠ L.next h := by
            refine hsep ?_ hat
            rcases hz with hz | rfl <;> simp [*]
          simp [Links.splice, hempty, join, hne, hzat]
      · refine hcs.restart ⟨?_, ?_⟩ (fun z hz => ?_) (fun z hz hne => ?_) (nodup_concat hcnodup)
        · simp [Links.splice, hempty, join, hq.2]
        · simp [Links.splice, hempty, join, hq.2]
        · have hzh : z ≠ h := fun heq => hhys (heq ▸ hz)
          have hzq : z ≠ q := (hsep hqmem (List.mem_cons_of_mem h hz)).symm
          simp [Links.splice, hempty, join, hq.2, hzq, hzh]
        · have hzfirst : z ≠ L.next l := by
            refine (hsep hfirst ?_).symm
            rcases hz with hz | rfl <;> simp [*]
          simp [Links.splice, hempty, join, hne, hzfirst]

theorem Circle.splice_frame {l : α} (hl : L.Circle l xs) (hc : L.Circle h ys) {z : α}
    (hz : z ∉ l :: xs) (hz' : z ∉ h :: ys) :
    (L.splice l h).next z = L.next z ∧ (L.splice l h).prev z = L.prev z := by
  have h₁ : z ≠ L.next l := fun heq => hz (heq ▸ hl.next_mem List.mem_cons_self)
  have h₂ : z ≠ L.prev l := fun heq => hz (heq ▸ hl.prev_mem List.mem_cons_self)
  have h₃ : z ≠ L.next h := fun heq => hz' (heq ▸ hc.next_mem List.mem_cons_self)
  have h₄ : z ≠ h := fun heq => hz' (heq ▸ List.mem_cons_self)
  simp only [Links.splice]
  split_ifs
  · exact ⟨rfl, rfl⟩
  · simp [join, h₁, h₂, h₃, h₄]

/-- More fuel does not change the walk. -/
theorem entries_mono {p : α} {fuel fuel' : ℕ} (he : L.entries h fuel p = some xs)
    (hle : fuel ≤ fuel') : L.entries h fuel' p = some xs := by
  induction fuel generalizing p xs fuel' with
  | zero => cases he
  | succ fuel ih =>
    obtain ⟨fuel', rfl⟩ : ∃ k, fuel' = k + 1 := ⟨fuel' - 1, by omega⟩
    rw [Links.entries] at he ⊢
    split_ifs at he ⊢ with hp
    · exact he
    · obtain ⟨rest, hrest, rfl⟩ := Option.map_eq_some_iff.mp he
      rw [ih hrest (by omega)]
      rfl

theorem Seg.entries (hs : L.Seg a xs h) (hh : h ∉ xs) {fuel : ℕ} (hfuel : xs.length < fuel) :
    L.entries h fuel (L.next a) = some xs := by
  induction xs generalizing a fuel with
  | nil =>
    cases fuel with
    | zero => cases hfuel
    | succ fuel => simp [Links.entries, hs.1]
  | cons x xs ih =>
    simp only [List.mem_cons, not_or] at hh
    obtain ⟨hhx, hh⟩ := hh
    cases fuel with
    | zero => cases hfuel
    | succ fuel =>
      rw [hs.1.1, Links.entries, if_neg (Ne.symm hhx), ih hs.2 hh (Nat.lt_of_succ_lt_succ hfuel)]
      rfl

/-- A walk through a list visits its entries, in order. -/
theorem Circle.entries (hc : L.Circle h xs) {fuel : ℕ} (hfuel : xs.length < fuel) :
    L.entries h fuel (L.next h) = some xs := hc.2.entries (List.nodup_cons.mp hc.1).1 hfuel

end Update

end Links

end Intrusive
