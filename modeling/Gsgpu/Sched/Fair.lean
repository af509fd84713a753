import Gsgpu.Sched.RunQueue
import Mathlib.Tactic.Ring

/-! No entity that stays ready is passed over for ever, whatever comes to the run queue and goes.
What may be picked before it is counted: the entities between the last one picked and it, and, as
the removal of the last one picked starts the queue over, a triangle of those in front of it. -/
namespace Gsgpu.Sched

/-- What happens to a run queue; the ready entities are those of the moment. -/
inductive RqEvent
  | add (e : ℕ)
  | remove (e : ℕ)
  | select (ready : ℕ → Bool)

namespace RqEvent

def isAdd : RqEvent → Bool
  | add _ => true
  | _ => false

def isSelect : RqEvent → Bool
  | select _ => true
  | _ => false

/-- The entity stays, and is ready whenever one is selected. -/
def Keeps (e : ℕ) : RqEvent → Prop
  | add _ => True
  | remove e' => e' ≠ e
  | select ready => ready e = true

end RqEvent

namespace RunQueue

def step (rq : RunQueue) : RqEvent → RunQueue × Option ℕ
  | .add e => (rq.addEntity e, none)
  | .remove e => (rq.removeEntity e, none)
  | .select ready => rq.selectEntity ready

/-- The entities picked, in order. -/
def picks (rq : RunQueue) : List RqEvent → List ℕ
  | [] => []
  | ev :: evs => (rq.step ev).2.toList ++ (rq.step ev).1.picks evs

/-- At most how many entities are picked from `n` in front, with removals that start over. -/
def triangle (n : ℕ) : ℕ := n * (n + 1) / 2

theorem triangle_succ (n : ℕ) : triangle (n + 1) = triangle n + (n + 1) := by
  unfold triangle
  have h : (n + 1) * (n + 1 + 1) = n * (n + 1) + (n + 1) * 2 := by ring
  rw [h, Nat.add_mul_div_right _ _ (by decide)]

theorem triangle_mono {m n : ℕ} (h : m ≤ n) : triangle m ≤ triangle n :=
  Nat.div_le_div_right (Nat.mul_le_mul h (Nat.succ_le_succ h))

theorem le_triangle (n : ℕ) : n ≤ triangle n := by
  cases n with
  | zero => exact Nat.zero_le _
  | succ n =>
    rw [triangle_succ]
    omega

/-- At most `n` others are picked before `e`: by where `e` and the last one picked are. -/
inductive Waits (rq : RunQueue) (e n : ℕ) : Prop
  | start {front rest : List ℕ} (hl : rq.entities = front ++ e :: rest)
      (hc : rq.current = none) (hn : triangle front.length ≤ n)
  | before {front gap rest : List ℕ} {c : ℕ} (hl : rq.entities = front ++ c :: (gap ++ e :: rest))
      (hc : rq.current = some c) (hn : gap.length + triangle (front.length + gap.length) ≤ n)
  | itself {front rest : List ℕ} (hl : rq.entities = front ++ e :: rest)
      (hc : rq.current = some e) (hn : rest.length + triangle front.length ≤ n)
  | past {front gap rest : List ℕ} {c : ℕ} (hl : rq.entities = front ++ e :: (gap ++ c :: rest))
      (hc : rq.current = some c) (hn : rest.length + triangle front.length ≤ n)

variable {rq : RunQueue} {e n : ℕ}

theorem Waits.mem (h : Waits rq e n) : e ∈ rq.entities := by
  cases h with
  | start hl | before hl | itself hl | past hl => simp [hl]

/-- Nothing is worse than being last with everything in front still to come. -/
theorem waits_of_mem (h : e ∈ rq.entities) : Waits rq e (triangle (rq.entities.length - 1)) := by
  obtain ⟨front, rest, hl⟩ := List.append_of_mem h
  have hlen : rq.entities.length - 1 = front.length + rest.length := by
    rw [hl, List.length_append, List.length_cons]
    omega
  rw [hlen]
  have hsplit : ∀ m ≤ rest.length, m + triangle front.length ≤
      triangle (front.length + rest.length) := by
    intro m hm
    have : ∀ k, k + triangle front.length ≤ triangle (front.length + k) := by
      intro k
      induction k with
      | zero => simp
      | succ k ih =>
        rw [← Nat.add_assoc, triangle_succ]
        omega
    exact (this m).trans (triangle_mono (by omega))
  cases hc : rq.current with
  | none => exact .start hl hc ((Nat.le_add_left _ _).trans (hsplit 0 (Nat.zero_le _)))
  | some c =>
    have hmem := rq.current_mem c hc
    rw [hl] at hmem
    cases List.mem_append.mp hmem with
    | inl hfront =>
      obtain ⟨front', gap, hf⟩ := List.append_of_mem hfront
      subst hf
      apply @Waits.before _ _ _ front' gap rest c
      · rw [hl]
        simp
      · exact hc
      · have htri := triangle_succ (front'.length + gap.length)
        have hmono : triangle (front'.length + gap.length + 1) ≤
            triangle ((front' ++ c :: gap).length + rest.length) := by
          apply triangle_mono
          simp only [List.length_append, List.length_cons]
          omega
        omega
    | inr hrest =>
      cases List.mem_cons.mp hrest with
      | inl heq =>
        subst heq
        exact .itself hl hc (hsplit _ le_rfl)
      | inr hrest =>
        obtain ⟨gap, rest', hr⟩ := List.append_of_mem hrest
        subst hr
        exact .past hl hc (hsplit _ (by simp only [List.length_append, List.length_cons]; omega))

/-- A new entity comes last, where it is picked at most once before. -/
theorem Waits.addEntity (h : Waits rq e n) (e' : ℕ) : Waits (rq.addEntity e') e (n + 1) := by
  unfold RunQueue.addEntity
  split
  · cases h with
    | start hl hc hn => exact .start hl hc (by omega)
    | before hl hc hn => exact .before hl hc (by omega)
    | itself hl hc hn => exact .itself hl hc (by omega)
    | past hl hc hn => exact .past hl hc (by omega)
  · cases h with
    | start hl hc hn => exact @Waits.start _ _ _ _ (_ ++ [e']) (by simp [hl]; rfl) hc (by omega)
    | before hl hc hn => exact @Waits.before _ _ _ _ _ (_ ++ [e']) _ (by simp [hl]; rfl) hc (by omega)
    | itself hl hc hn =>
      exact @Waits.itself _ _ _ _ (_ ++ [e']) (by simp [hl]; rfl) hc (by simp; omega)
    | past hl hc hn =>
      exact @Waits.past _ _ _ _ _ (_ ++ [e']) _ (by simp [hl]; rfl) hc (by simp; omega)

/-- An entity other than `x` goes from in front of it or from behind it. -/
theorem erase_around (front rest : List ℕ) {x e' : ℕ} (hne : x ≠ e') :
    (front ++ x :: rest).erase e' = front.erase e' ++ x :: rest ∨
      (front ++ x :: rest).erase e' = front ++ x :: rest.erase e' := by
  rw [List.erase_append]
  split
  · exact .inl rfl
  · rw [List.erase_cons_tail (by simpa using hne)]
    exact .inr rfl

/-- The entity itself goes. -/
theorem erase_at {front rest : List ℕ} {x : ℕ} (h : (front ++ x :: rest).Nodup) :
    (front ++ x :: rest).erase x = front ++ rest := by
  have hx : x ∉ front := fun hmem => (List.nodup_append.mp h).2.2 x hmem x (by simp) rfl
  rw [List.erase_append_right _ hx, List.erase_cons_head]

theorem removeEntity_current {e' c : ℕ} (hc : rq.current = some c) (hne : c ≠ e') :
    (rq.removeEntity e').current = some c := by
  rw [current_removeEntity, hc]
  exact if_neg fun h => hne (Option.some.inj h)

/-- When the last one picked goes, the queue is started over, with one less in front. -/
theorem Waits.removeEntity (h : Waits rq e n) {e' : ℕ} (hne : e' ≠ e) :
    Waits (rq.removeEntity e') e n := by
  have herase := rq.entities_removeEntity e'
  cases h with
  | @start front rest hl hc hn =>
    have hcur : (rq.removeEntity e').current = none := by simp [hc]
    cases erase_around front rest hne.symm with
    | inl hr =>
      have hle := triangle_mono (List.length_erase_le (a := e') (l := front))
      exact .start (herase.trans (hl ▸ hr)) hcur (hle.trans hn)
    | inr hr => exact .start (herase.trans (hl ▸ hr)) hcur hn
  | @before front gap rest c hl hc hn =>
    by_cases hce : c = e'
    · subst hce
      have hnodup := rq.nodup
      rw [hl] at hnodup
      refine @Waits.start _ _ _ (front ++ gap) rest ?_ (by simp [hc]) ?_
      · rw [herase, hl, erase_at hnodup]
        simp
      · rw [List.length_append]
        omega
    · have hcur := removeEntity_current hc hce
      cases erase_around front (gap ++ e :: rest) hce with
      | inl hr =>
        refine .before (herase.trans (hl ▸ hr)) hcur (le_trans ?_ hn)
        have hlen := List.length_erase_le (a := e') (l := front)
        exact Nat.add_le_add_left (triangle_mono (by omega)) _
      | inr hr =>
        cases erase_around gap rest hne.symm with
        | inl hr' =>
          refine .before ((herase.trans (hl ▸ hr)).trans (by rw [hr'])) hcur (le_trans ?_ hn)
          have hlen := List.length_erase_le (a := e') (l := gap)
          exact Nat.add_le_add hlen (triangle_mono (by omega))
        | inr hr' => exact .before ((herase.trans (hl ▸ hr)).trans (by rw [hr'])) hcur hn
  | @itself front rest hl hc hn =>
    have hcur := removeEntity_current hc hne.symm
    cases erase_around front rest hne.symm with
    | inl hr =>
      refine .itself (herase.trans (hl ▸ hr)) hcur (le_trans ?_ hn)
      exact Nat.add_le_add_left (triangle_mono List.length_erase_le) _
    | inr hr =>
      refine .itself (herase.trans (hl ▸ hr)) hcur (le_trans ?_ hn)
      exact Nat.add_le_add_right List.length_erase_le _
  | @past front gap rest c hl hc hn =>
    have hassoc : front ++ e :: (gap ++ c :: rest) = (front ++ e :: gap) ++ c :: rest := by simp
    by_cases hce : c = e'
    · subst hce
      have hnodup := rq.nodup
      rw [hl, hassoc] at hnodup
      refine @Waits.start _ _ _ front (gap ++ rest) ?_ (by simp [hc]) (by omega)
      rw [herase, hl, hassoc, erase_at hnodup]
      simp
    · have hcur := removeEntity_current hc hce
      cases erase_around front (gap ++ c :: rest) hne.symm with
      | inl hr =>
        refine .past (herase.trans (hl ▸ hr)) hcur (le_trans ?_ hn)
        exact Nat.add_le_add_left (triangle_mono List.length_erase_le) _
      | inr hr =>
        cases erase_around gap rest hce with
        | inl hr' => exact .past ((herase.trans (hl ▸ hr)).trans (by rw [hr'])) hcur hn
        | inr hr' =>
          refine .past ((herase.trans (hl ▸ hr)).trans (by rw [hr'])) hcur (le_trans ?_ hn)
          exact Nat.add_le_add_right List.length_erase_le _

/-- The first ready entity is `e` or one in front of it. -/
theorem find_split {ready : ℕ → Bool} {front rest : List ℕ} {p : ℕ} (hready : ready e = true)
    (h : (front ++ e :: rest).find? ready = some p) :
    p = e ∨ ∃ l r, front = l ++ p :: r := by
  rw [List.find?_append, List.find?_cons_of_pos hready] at h
  obtain hfst | ⟨-, hsnd⟩ := Option.or_eq_some_iff.mp h
  · exact .inr (List.append_of_mem (List.mem_of_find?_eq_some hfst))
  · exact .inl (Option.some.inj hsnd).symm

theorem behind_split {front rest : List ℕ} {c : ℕ} (h : c ∉ front) :
    behind c (front ++ c :: rest) = rest := by
  unfold behind
  rw [List.dropWhile_append_of_pos, List.dropWhile_cons_of_neg (by simp), List.tail_cons]
  intro x hx
  simpa using fun heq : x = c => h (heq ▸ hx)

theorem upTo_split {front rest : List ℕ} {c : ℕ} (h : c ∉ front) :
    upTo c (front ++ c :: rest) = front ++ [c] := by
  unfold upTo
  rw [List.takeWhile_append_of_pos, List.takeWhile_cons_of_neg (by simp), List.append_nil]
  intro x hx
  simpa using fun heq : x = c => h (heq ▸ hx)

theorem not_mem_front {front rest : List ℕ} {c : ℕ} (hl : rq.entities = front ++ c :: rest) :
    c ∉ front := by
  have h := rq.nodup
  rw [hl] at h
  exact fun hmem => (List.nodup_append.mp h).2.2 c hmem c (by simp) rfl

/-- What is left to pick before `e` when one in front of it was picked. -/
theorem setCurrent_before {p : ℕ} {front gap rest : List ℕ}
    (hl : rq.entities = front ++ p :: (gap ++ e :: rest)) :
    Waits (rq.setCurrent p) e (gap.length + triangle (front.length + gap.length)) := by
  unfold setCurrent
  rw [dif_pos (by simp [hl])]
  exact .before hl rfl le_rfl

/-- What is left to pick before `e` when one behind it was picked. -/
theorem setCurrent_past {p : ℕ} {front gap rest : List ℕ}
    (hl : rq.entities = front ++ e :: (gap ++ p :: rest)) :
    Waits (rq.setCurrent p) e (rest.length + triangle front.length) := by
  unfold setCurrent
  rw [dif_pos (by simp [hl])]
  exact .past hl rfl le_rfl

/-- A pick from the start of the queue. -/
theorem waits_start {ready : ℕ → Bool} {p : ℕ} {front rest tail : List ℕ} (hready : ready e = true)
    (hl : rq.entities = front ++ e :: rest) (h : (front ++ e :: tail).find? ready = some p)
    (hn : triangle front.length ≤ n) : p = e ∨ ∃ m < n, Waits (rq.setCurrent p) e m := by
  cases find_split hready h with
  | inl heq => exact .inl heq
  | inr hsplit =>
    obtain ⟨l, r, rfl⟩ := hsplit
    have hl' : rq.entities = l ++ p :: (r ++ e :: rest) := by simp [hl]
    refine .inr ⟨_, ?_, setCurrent_before hl'⟩
    have htri := triangle_succ (l.length + r.length)
    rw [List.length_append, List.length_cons, ← Nat.add_assoc] at hn
    omega

/-- A pick goes to `e`, or there is less to come before it. -/
theorem Waits.pick {ready : ℕ → Bool} {p : ℕ} (h : Waits rq e n) (hready : ready e = true)
    (hp : rq.pick ready = some p) : p = e ∨ ∃ m < n, Waits (rq.setCurrent p) e m := by
  unfold RunQueue.pick at hp
  cases h with
  | @start front rest hl hc hn =>
    rw [hc, hl] at hp
    exact waits_start hready hl hp hn
  | @before front gap rest c hl hc hn =>
    rw [hc, hl] at hp
    simp only [behind_split (not_mem_front hl)] at hp
    have hsome : ((gap ++ e :: rest).find? ready).isSome := by
      rw [List.find?_isSome]
      exact ⟨e, by simp, hready⟩
    rw [Option.or_of_isSome hsome] at hp
    cases find_split hready hp with
    | inl heq => exact .inl heq
    | inr hsplit =>
      obtain ⟨l, r, rfl⟩ := hsplit
      have hl' : rq.entities = (front ++ c :: l) ++ p :: (r ++ e :: rest) := by simp [hl]
      refine .inr ⟨_, ?_, setCurrent_before hl'⟩
      have hlen : (front ++ c :: l).length + r.length = front.length + (l ++ p :: r).length := by
        simp only [List.length_append, List.length_cons]
        omega
      rw [hlen]
      have hgap : (l ++ p :: r).length = l.length + (r.length + 1) := by simp
      omega
  | @itself front rest hl hc hn =>
    rw [hc, hl] at hp
    simp only [behind_split (not_mem_front hl), upTo_split (not_mem_front hl)] at hp
    obtain hfst | ⟨-, hsnd⟩ := Option.or_eq_some_iff.mp hp
    · obtain ⟨l, r, rfl⟩ := List.append_of_mem (List.mem_of_find?_eq_some hfst)
      refine .inr ⟨_, ?_, setCurrent_past hl⟩
      simp only [List.length_append, List.length_cons] at hn
      omega
    · exact waits_start hready hl hsnd (by omega)
  | @past front gap rest c hl hc hn =>
    have hl' : rq.entities = (front ++ e :: gap) ++ c :: rest := by simp [hl]
    rw [hc, hl'] at hp
    simp only [behind_split (not_mem_front hl'), upTo_split (not_mem_front hl')] at hp
    obtain hfst | ⟨-, hsnd⟩ := Option.or_eq_some_iff.mp hp
    · obtain ⟨l, r, rfl⟩ := List.append_of_mem (List.mem_of_find?_eq_some hfst)
      have hl'' : rq.entities = front ++ e :: ((gap ++ c :: l) ++ p :: r) := by simp [hl]
      refine .inr ⟨_, ?_, setCurrent_past hl''⟩
      simp only [List.length_append, List.length_cons] at hn
      omega
    · rw [List.append_assoc, List.cons_append] at hsnd
      exact waits_start hready hl hsnd (by omega)

theorem Waits.mono {m : ℕ} (h : Waits rq e m) (hle : m ≤ n) : Waits rq e n := by
  cases h with
  | start hl hc hn => exact .start hl hc (hn.trans hle)
  | before hl hc hn => exact .before hl hc (hn.trans hle)
  | itself hl hc hn => exact .itself hl hc (hn.trans hle)
  | past hl hc hn => exact .past hl hc (hn.trans hle)

/-- Among more picks than `e` has to wait for, one is of `e`. -/
theorem Waits.picked {evs : List RqEvent} (h : Waits rq e n) (hkeeps : ∀ ev ∈ evs, ev.Keeps e)
    (hn : n + evs.countP RqEvent.isAdd < evs.countP RqEvent.isSelect) : e ∈ rq.picks evs := by
  induction evs generalizing rq n with
  | nil => simp at hn
  | cons ev evs ih =>
    have hrest : ∀ ev ∈ evs, ev.Keeps e := fun x hx => hkeeps x (List.mem_cons_of_mem _ hx)
    have hev := hkeeps ev List.mem_cons_self
    unfold picks
    apply List.mem_append.mpr
    cases ev with
    | add e' =>
      rw [List.countP_cons_of_pos rfl, List.countP_cons_of_neg (by simp [RqEvent.isSelect])] at hn
      exact .inr (ih (h.addEntity e') hrest (by omega))
    | remove e' =>
      rw [List.countP_cons_of_neg (by simp [RqEvent.isAdd]),
        List.countP_cons_of_neg (by simp [RqEvent.isSelect])] at hn
      exact .inr (ih (h.removeEntity hev) hrest hn)
    | select ready =>
      rw [List.countP_cons_of_neg (by simp [RqEvent.isAdd]), List.countP_cons_of_pos rfl] at hn
      cases hp : rq.pick ready with
      | none =>
        have hnot := (rq.pick_eq_none ready).mp hp e h.mem
        rw [hev] at hnot
        cases hnot
      | some p =>
        have hstep : rq.step (.select ready) = (rq.setCurrent p, some p) := by
          simp [step, selectEntity, hp]
        rw [hstep]
        cases h.pick hev hp with
        | inl heq => exact .inl (by simp [heq])
        | inr hm =>
          obtain ⟨m, hlt, hw⟩ := hm
          exact .inr (ih hw hrest (by omega))

/-- An entity that stays on a run queue and stays ready is picked: the others on the queue may go
before it as often as a triangle of them has, and each entity that comes may go once. -/
theorem picked_of_stays (rq : RunQueue) (e : ℕ) (evs : List RqEvent) (hmem : e ∈ rq.entities)
    (hkeeps : ∀ ev ∈ evs, ev.Keeps e)
    (hn : triangle (rq.entities.length - 1) + evs.countP RqEvent.isAdd <
      evs.countP RqEvent.isSelect) : e ∈ rq.picks evs :=
  (waits_of_mem hmem).picked hkeeps hn

/-- Two entities, the first of which was picked last and goes while the second is waiting. -/
theorem picked_of_stays_two : 1 ∈ ((empty.addEntity 0).addEntity 1).picks
    [.select fun e => e = 0 ∨ e = 1, .remove 0, .select fun e => e = 1] :=
  picked_of_stays _ 1 _ (by decide) (by simp [RqEvent.Keeps]) (by decide)

end RunQueue

end Gsgpu.Sched
