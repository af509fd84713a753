import Mathlib.Logic.Function.Basic
import Mathlib.Data.List.Basic
import Mathlib.Data.List.FinRange
import Mathlib.Data.List.Nodup

/-! Hash tables of buckets, and the loop that walks all entries and may take some out on the
way. An entry is found by its key in the bucket the hash of the key chooses. -/
namespace Buckets

variable {n : ℕ} {α β κ : Type*}

/-- What the body of the loop does with an entry. -/
inductive Verdict (β : Type*)
  | keep
  | drop
  /-- Leave the loop; `kept` says whether the entry stays. -/
  | stop (kept : Bool) (result : β)

/-- The loop over one bucket. -/
def scanBucket (f : α → Verdict β) : List α → Option β × List α
  | [] => (none, [])
  | a :: as =>
    match f a with
    | .keep => ((scanBucket f as).1, a :: (scanBucket f as).2)
    | .drop => scanBucket f as
    | .stop kept b => (some b, if kept then a :: as else as)

/-- The loop over the buckets that are left. -/
def scanFrom (f : α → Verdict β) : List (Fin n) → (Fin n → List α) → Option β × (Fin n → List α)
  | [], t => (none, t)
  | i :: is, t =>
    match scanBucket f (t i) with
    | (some b, as) => (some b, Function.update t i as)
    | (none, as) => scanFrom f is (Function.update t i as)

/-- The loop over a table. -/
def scan (f : α → Verdict β) (t : Fin n → List α) : Option β × (Fin n → List α) :=
  scanFrom f (List.finRange n) t

variable {f : α → Verdict β}

theorem scanBucket_sublist (as : List α) : ((scanBucket f as).2).Sublist as := by
  induction as with
  | nil => exact .slnil
  | cons a as ih =>
    rw [scanBucket]
    split
    · exact ih.cons_cons a
    · exact ih.cons a
    · split
      · exact List.Sublist.refl _
      · exact List.sublist_cons_self a as

/-- What the loop takes out of a bucket. -/
theorem mem_scanBucket {as : List α} {e : α} (he : e ∈ as) : e ∈ (scanBucket f as).2 ∨
    f e = .drop ∨ ∃ b, f e = .stop false b ∧ (scanBucket f as).1 = some b := by
  induction as with
  | nil => cases he
  | cons a as ih =>
    rw [scanBucket]
    rcases List.mem_cons.mp he with rfl | hmem
    · split
      · exact .inl List.mem_cons_self
      · next hdrop => exact .inr (.inl hdrop)
      · next kept b hstop =>
        cases kept with
        | true => exact .inl List.mem_cons_self
        | false => exact .inr (.inr ⟨b, hstop, rfl⟩)
    · split
      · rcases ih hmem with hin | hdrop | hstop
        · exact .inl (List.mem_cons_of_mem a hin)
        · exact .inr (.inl hdrop)
        · exact .inr (.inr hstop)
      · exact ih hmem
      · next kept b _ =>
        cases kept with
        | true => exact .inl (List.mem_cons_of_mem a hmem)
        | false => exact .inl hmem

/-- A loop that ran to the end keeps only what it means to keep. -/
theorem scanBucket_none {as : List α} (h : (scanBucket f as).1 = none) :
    ∀ e ∈ (scanBucket f as).2, f e = .keep := by
  induction as with
  | nil => simp [scanBucket]
  | cons a as ih =>
    cases hv : f a with
    | keep =>
      simp only [scanBucket, hv] at h ⊢
      intro e he
      rcases List.mem_cons.mp he with rfl | hmem
      · exact hv
      · exact ih h e hmem
    | drop =>
      simp only [scanBucket, hv] at h ⊢
      exact ih h
    | stop kept b => simp [scanBucket, hv] at h

theorem scanBucket_some {as : List α} {b : β} (h : (scanBucket f as).1 = some b) :
    ∃ e ∈ as, ∃ kept, f e = .stop kept b := by
  induction as with
  | nil => simp [scanBucket] at h
  | cons a as ih =>
    rw [scanBucket] at h
    split at h
    · obtain ⟨e, he, hstop⟩ := ih h
      exact ⟨e, List.mem_cons_of_mem a he, hstop⟩
    · obtain ⟨e, he, hstop⟩ := ih h
      exact ⟨e, List.mem_cons_of_mem a he, hstop⟩
    · next kept b' hstop =>
      obtain rfl := Option.some.inj h
      exact ⟨a, List.mem_cons_self, kept, hstop⟩

/-- What the loop does to a table. -/
structure Scanned (f : α → Verdict β) (t t' : Fin n → List α) (r : Option β) : Prop where
  sublist : ∀ i, (t' i).Sublist (t i)
  removed : ∀ i, ∀ e ∈ t i, e ∈ t' i ∨ f e = .drop ∨ ∃ b, f e = .stop false b ∧ r = some b
  found : ∀ b, r = some b → ∃ i, ∃ e ∈ t i, ∃ kept, f e = .stop kept b

theorem scanFrom_cons_none {i : Fin n} {is : List (Fin n)} {t : Fin n → List α}
    (h : (scanBucket f (t i)).1 = none) : scanFrom f (i :: is) t =
      scanFrom f is (Function.update t i (scanBucket f (t i)).2) := by
  rw [scanFrom]
  split
  · next b as hb =>
    rw [hb] at h
    cases h
  · next as hb => rw [hb]

theorem scanFrom_cons_some {i : Fin n} {is : List (Fin n)} {t : Fin n → List α} {b : β}
    (h : (scanBucket f (t i)).1 = some b) : scanFrom f (i :: is) t =
      (some b, Function.update t i (scanBucket f (t i)).2) := by
  rw [scanFrom]
  split
  · next b' as hb =>
    rw [hb] at h ⊢
    rw [Option.some.inj h]
  · next as hb =>
    rw [hb] at h
    cases h

/-- The loop over one bucket, as part of the table. -/
private theorem scanned_update (i : Fin n) (t : Fin n → List α) :
    Scanned f t (Function.update t i (scanBucket f (t i)).2) (scanBucket f (t i)).1 where
  sublist j := by
    by_cases hj : j = i
    · subst hj
      rw [Function.update_self]
      exact scanBucket_sublist _
    · rw [Function.update_of_ne hj]
  removed j e he := by
    by_cases hj : j = i
    · subst hj
      rw [Function.update_self]
      exact mem_scanBucket he
    · rw [Function.update_of_ne hj]
      exact .inl he
  found b hb := ⟨i, scanBucket_some hb⟩

private theorem scanFrom_scanned (f : α → Verdict β) (is : List (Fin n)) (t : Fin n → List α) :
    Scanned f t (scanFrom f is t).2 (scanFrom f is t).1 := by
  induction is generalizing t with
  | nil =>
    refine ⟨fun i => List.Sublist.refl _, fun i e he => .inl he, ?_⟩
    intro b hb
    simp [scanFrom] at hb
  | cons i is ih =>
    have hone := scanned_update (f := f) i t
    cases hb : (scanBucket f (t i)).1 with
    | some b =>
      rw [scanFrom_cons_some hb]
      rwa [hb] at hone
    | none =>
      rw [scanFrom_cons_none hb]
      rw [hb] at hone
      have hrest := ih (Function.update t i (scanBucket f (t i)).2)
      refine ⟨fun j => (hrest.sublist j).trans (hone.sublist j), fun j e he => ?_, fun b hr => ?_⟩
      · rcases hone.removed j e he with hin | hdrop | ⟨b, -, hb'⟩
        · exact hrest.removed j e hin
        · exact .inr (.inl hdrop)
        · cases hb'
      · obtain ⟨j, e, he, hstop⟩ := hrest.found b hr
        exact ⟨j, e, (hone.sublist j).subset he, hstop⟩

/-- The buckets a finished loop has passed hold only what it means to keep. -/
private theorem scanFrom_none {is : List (Fin n)} {t : Fin n → List α}
    (h : (scanFrom f is t).1 = none) :
    ∀ i ∈ is, ∀ e ∈ (scanFrom f is t).2 i, f e = .keep := by
  induction is generalizing t with
  | nil => simp
  | cons j is ih =>
    cases hb : (scanBucket f (t j)).1 with
    | some b =>
      rw [scanFrom_cons_some hb] at h
      cases h
    | none =>
      rw [scanFrom_cons_none hb] at h ⊢
      intro i hi e he
      rcases List.mem_cons.mp hi with rfl | hmem
      · have hsub := (scanFrom_scanned f is (Function.update t i (scanBucket f (t i)).2)).sublist i
        have hin := hsub.subset he
        rw [Function.update_self] at hin
        exact scanBucket_none hb e hin
      · exact ih h i hmem e he

theorem scan_scanned (f : α → Verdict β) (t : Fin n → List α) :
    Scanned f t (scan f t).2 (scan f t).1 := scanFrom_scanned f _ t

theorem scan_none {t : Fin n → List α} (h : (scan f t).1 = none) (i : Fin n) :
    ∀ e ∈ (scan f t).2 i, f e = .keep := scanFrom_none h i (List.mem_finRange i)

section Keys

variable (key : α → κ) (hash : κ → Fin n)

/-- Entries are in the bucket of their key, and no two have the same key. -/
structure Wf (t : Fin n → List α) : Prop where
  bucket : ∀ i, ∀ e ∈ t i, hash (key e) = i
  nodup : ∀ i, ((t i).map key).Nodup

variable {key hash} {t t' : Fin n → List α}

/-- No two entries of a table have the same key. -/
theorem Wf.unique (h : Wf key hash t) {i j : Fin n} {e e' : α} (he : e ∈ t i) (he' : e' ∈ t j)
    (hkey : key e = key e') : e = e' := by
  have hij : i = j := by rw [← h.bucket i e he, ← h.bucket j e' he', hkey]
  subst hij
  exact List.inj_on_of_nodup_map (h.nodup i) he he' hkey

/-- The entry of a key. -/
def lookup [DecidableEq κ] (key : α → κ) (hash : κ → Fin n) (t : Fin n → List α) (k : κ) :
    Option α :=
  (t (hash k)).find? (key · = k)

theorem Wf.lookup_eq_some_iff [DecidableEq κ] (h : Wf key hash t) {k : κ} {e : α} :
    lookup key hash t k = some e ↔ (∃ i, e ∈ t i) ∧ key e = k := by
  constructor
  · intro hl
    have hk : key e = k := by simpa using List.find?_some hl
    exact ⟨⟨_, List.mem_of_find?_eq_some hl⟩, hk⟩
  · rintro ⟨⟨i, hi⟩, rfl⟩
    rw [← h.bucket i e hi] at hi
    cases hl : lookup key hash t (key e) with
    | none =>
      have := List.find?_eq_none.mp hl e hi
      simp at this
    | some e' =>
      have hk : key e' = key e := by simpa using List.find?_some hl
      rw [h.unique (List.mem_of_find?_eq_some hl) hi hk]

theorem Wf.sublist (h : Wf key hash t) (hsub : ∀ i, (t' i).Sublist (t i)) : Wf key hash t' where
  bucket i e he := h.bucket i e ((hsub i).subset he)
  nodup i := (h.nodup i).sublist ((hsub i).map key)

theorem Wf.update (h : Wf key hash t) {i : Fin n} {as : List α}
    (hbucket : ∀ e ∈ as, hash (key e) = i) (hnodup : (as.map key).Nodup) :
    Wf key hash (Function.update t i as) where
  bucket j e he := by
    by_cases hj : j = i
    · subst hj
      rw [Function.update_self] at he
      exact hbucket e he
    · rw [Function.update_of_ne hj] at he
      exact h.bucket j e he
  nodup j := by
    by_cases hj : j = i
    · subst hj
      rwa [Function.update_self]
    · rw [Function.update_of_ne hj]
      exact h.nodup j

theorem lookup_update_self [DecidableEq κ] (as : List α) (k : κ) :
    lookup key hash (Function.update t (hash k) as) k = as.find? (key · = k) := by
  rw [lookup, Function.update_self]

theorem lookup_update_of_ne [DecidableEq κ] {i : Fin n} {k : κ} (hk : hash k ≠ i) (as : List α) :
    lookup key hash (Function.update t i as) k = lookup key hash t k := by
  rw [lookup, Function.update_of_ne hk, lookup]

end Keys

end Buckets
