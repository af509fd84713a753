import Mathlib.Data.List.Nodup
import Mathlib.Data.List.Basic
import Mathlib.Algebra.GroupWithZero.Nat

/-! A run queue of the GPU scheduler: which of its entities is picked next, and that none is passed
over for ever. -/
namespace Gsgpu.Sched

/-- `struct drm_sched_rq`. The entities are known by numbers. -/
structure RunQueue where
  entities : List ℕ
  current : Option ℕ
  nodup : entities.Nodup
  current_mem : ∀ c, current = some c → c ∈ entities

namespace RunQueue

theorem empty_current_mem (c : ℕ) (h : (none : Option ℕ) = some c) : c ∈ ([] : List ℕ) := by
  cases h

/-- `drm_sched_rq_init`. -/
def empty : RunQueue := ⟨[], none, List.nodup_nil, empty_current_mem⟩

theorem add_nodup (rq : RunQueue) {e : ℕ} (h : e ∉ rq.entities) : (rq.entities ++ [e]).Nodup := by
  rw [List.nodup_append]
  refine ⟨rq.nodup, List.nodup_singleton e, fun a ha b hb heq => ?_⟩
  rw [heq, List.mem_singleton.mp hb] at ha
  exact h ha

theorem add_current_mem (rq : RunQueue) (e c : ℕ) (h : rq.current = some c) :
    c ∈ rq.entities ++ [e] :=
  List.mem_append_left _ (rq.current_mem c h)

/-- `drm_sched_rq_add_entity`. The node of an entity is on one list, so it is not empty when it is
on this one. -/
def addEntity (rq : RunQueue) (e : ℕ) : RunQueue :=
  if h : e ∈ rq.entities then rq
  else ⟨rq.entities ++ [e], rq.current, rq.add_nodup h, rq.add_current_mem e⟩

theorem remove_current_mem (rq : RunQueue) (e c : ℕ)
    (h : (if rq.current = some e then none else rq.current) = some c) : c ∈ rq.entities.erase e := by
  split at h
  · cases h
  · next hne =>
    rw [h] at hne
    exact (List.mem_erase_of_ne fun heq => hne (congrArg some heq)).mpr (rq.current_mem c h)

/-- `drm_sched_rq_remove_entity`. -/
def removeEntity (rq : RunQueue) (e : ℕ) : RunQueue :=
  ⟨rq.entities.erase e, if rq.current = some e then none else rq.current, rq.nodup.erase e,
    rq.remove_current_mem e⟩

@[simp] theorem entities_removeEntity (rq : RunQueue) (e : ℕ) :
    (rq.removeEntity e).entities = rq.entities.erase e := rfl

@[simp] theorem current_removeEntity (rq : RunQueue) (e : ℕ) :
    (rq.removeEntity e).current = if rq.current = some e then none else rq.current := rfl

theorem mem_addEntity (rq : RunQueue) (e e' : ℕ) :
    e' ∈ (rq.addEntity e).entities ↔ e' ∈ rq.entities ∨ e' = e := by
  unfold addEntity
  split
  · next h =>
    constructor
    · exact .inl
    · rintro (hmem | rfl)
      · exact hmem
      · exact h
  · simp

theorem mem_removeEntity (rq : RunQueue) (e e' : ℕ) :
    e' ∈ (rq.removeEntity e).entities ↔ e' ≠ e ∧ e' ∈ rq.entities := rq.nodup.mem_erase_iff

/-- The entities behind `c`: where `list_for_each_entry_continue` goes. -/
def behind (c : ℕ) (l : List ℕ) : List ℕ := (l.dropWhile fun e => e ≠ c).tail

/-- The entities up to `c`, where the second loop stops. -/
def upTo (c : ℕ) (l : List ℕ) : List ℕ := l.takeWhile (fun e => e ≠ c) ++ [c]

/-- The entity that `drm_sched_rq_select_entity` returns. -/
def pick (rq : RunQueue) (ready : ℕ → Bool) : Option ℕ :=
  match rq.current with
  | some c => ((behind c rq.entities).find? ready).or ((upTo c rq.entities).find? ready)
  | none => rq.entities.find? ready

theorem mem_behind {c e : ℕ} {l : List ℕ} (h : e ∈ behind c l) : e ∈ l :=
  (List.dropWhile_suffix _).subset (List.mem_of_mem_tail h)

theorem mem_upTo {c e : ℕ} {l : List ℕ} (hc : c ∈ l) (h : e ∈ upTo c l) : e ∈ l := by
  cases List.mem_append.mp h with
  | inl hmem => exact List.takeWhile_subset _ hmem
  | inr heq =>
    rw [List.mem_singleton.mp heq]
    exact hc

theorem pick_mem (rq : RunQueue) {ready : ℕ → Bool} {e : ℕ} (h : rq.pick ready = some e) :
    e ∈ rq.entities := by
  unfold pick at h
  cases hc : rq.current with
  | none =>
    rw [hc] at h
    exact List.mem_of_find?_eq_some h
  | some c =>
    rw [hc] at h
    obtain hfst | ⟨-, hsnd⟩ := Option.or_eq_some_iff.mp h
    · exact mem_behind (List.mem_of_find?_eq_some hfst)
    · exact mem_upTo (rq.current_mem c hc) (List.mem_of_find?_eq_some hsnd)

theorem pick_ready (rq : RunQueue) {ready : ℕ → Bool} {e : ℕ} (h : rq.pick ready = some e) :
    ready e = true := by
  unfold pick at h
  cases hc : rq.current with
  | none =>
    rw [hc] at h
    exact List.find?_some h
  | some c =>
    rw [hc] at h
    obtain hfst | ⟨-, hsnd⟩ := Option.or_eq_some_iff.mp h
    · exact List.find?_some hfst
    · exact List.find?_some hsnd

theorem some_current_mem {l : List ℕ} {e : ℕ} (h : e ∈ l) (c : ℕ) (hc : some e = some c) : c ∈ l :=
  Option.some.inj hc ▸ h

/-- `rq->current_entity` is set to the entity that is returned, which is on the list. -/
def setCurrent (rq : RunQueue) (e : ℕ) : RunQueue :=
  if h : e ∈ rq.entities then ⟨rq.entities, some e, rq.nodup, some_current_mem h⟩ else rq

@[simp] theorem entities_setCurrent (rq : RunQueue) (e : ℕ) :
    (rq.setCurrent e).entities = rq.entities := by
  unfold setCurrent
  split <;> rfl

/-- `drm_sched_rq_select_entity`. -/
def selectEntity (rq : RunQueue) (ready : ℕ → Bool) : RunQueue × Option ℕ :=
  match rq.pick ready with
  | some e => (rq.setCurrent e, some e)
  | none => (rq, none)

/-- Every entity is behind `c` or not. -/
theorem mem_behind_or_upTo {c e : ℕ} {l : List ℕ} (he : e ∈ l) : e ∈ behind c l ∨ e ∈ upTo c l := by
  unfold behind upTo
  rw [← List.takeWhile_append_dropWhile (p := fun x => decide (x ≠ c)) (l := l)] at he
  cases List.mem_append.mp he with
  | inl hmem => exact .inr (List.mem_append_left _ hmem)
  | inr hmem =>
    cases hd : l.dropWhile fun x => x ≠ c with
    | nil =>
      rw [hd] at hmem
      cases hmem
    | cons x rest =>
      rw [hd] at hmem
      have hx : x = c := by
        have := List.head?_dropWhile_not (fun x => decide (x ≠ c)) l
        rw [hd] at this
        simpa using this
      cases List.mem_cons.mp hmem with
      | inl heq =>
        subst heq
        rw [hx]
        exact .inr (by simp)
      | inr hrest => exact .inl hrest

/-- No entity is picked when none is ready, and only then. -/
theorem pick_eq_none (rq : RunQueue) (ready : ℕ → Bool) :
    rq.pick ready = none ↔ ∀ e ∈ rq.entities, ready e = false := by
  unfold pick
  cases hc : rq.current with
  | none => simp
  | some c =>
    simp only [Option.or_eq_none_iff, List.find?_eq_none, Bool.not_eq_true]
    constructor
    · intro h e he
      cases mem_behind_or_upTo (c := c) he with
      | inl hb => exact h.1 e hb
      | inr hu => exact h.2 e hu
    · intro h
      exact ⟨fun e he => h e (mem_behind he), fun e he => h e (mem_upTo (rq.current_mem c hc) he)⟩

end RunQueue

end Gsgpu.Sched
