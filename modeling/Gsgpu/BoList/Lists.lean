import Gsgpu.BoList.Sharing
import Mathlib.Data.List.Perm.Subperm

/-! The lists of the submissions that name one list of BOs, through the links of its entries: each
has its own to itself as long as no entry is in the lists of two. -/
namespace Gsgpu.Sharing
open Intrusive

/-- The lists between two steps. -/
def Kind.Kept (k : Kind) : Prop := k = .validated ∨ k = .duplicates

/-- The lists in use; within an iteration there is one more. -/
abbrev Kinds := ℕ → Kind → Prop

def between : Kinds := fun _ => Kind.Kept

def within (p : ℕ) : Kinds := fun q k => k.Kept ∨ q = p ∧ k = .needPages

/-- The heads of the lists in use of the submissions under way. -/
def heads (cs : ℕ → Cs) (K : Kinds) : Set Addr :=
  {a | ∃ q k, a = .head q k ∧ (cs q).phase ≠ .idle ∧ K q k}

def listsOf (cs : ℕ → Cs) : Addr → List Addr
  | .head p k => (cs p).lists k
  | _ => []

/-- What may be in the lists of a submission. -/
def Own (l : BoList) (p : ℕ) (x : Addr) : Prop :=
  x = .vmPd p ∨ x = .ufEntry p ∨ ∃ e < l.numEntries, x = .entry e ∧ l.hasParent e = false

/-- Every submission has its lists to itself, with all entries that are to be linked. -/
structure Listed (l : BoList) (K : Kinds) (L : Links Addr) (cs : ℕ → Cs) : Prop where
  family : Family L (heads cs K) (listsOf cs)
  own : ∀ q, (cs q).phase ≠ .idle → ∀ k, K q k → ∀ x ∈ (cs q).lists k, Own l q x
  linked : ∀ q, (cs q).phase ≠ .idle → ∀ e < l.numEntries, l.hasParent e = false →
    ∃ k, K q k ∧ .entry e ∈ (cs q).lists k
  spare : ∀ q, (cs q).phase ≠ .idle → ¬ K q .needPages → (cs q).lists .needPages = []

variable {l : BoList} {K : Kinds} {L : Links Addr} {cs : ℕ → Cs} {c : Cs} {s : State} {p : ℕ}
  {k g : Kind} {x : Addr}

/-- An entry of a list goes to the front of another, or of the same. -/
theorem family_move {L : Links Addr} {cs : ℕ → Cs} (hf : Family L (heads cs K) (listsOf cs))
    (hp : (cs p).phase ≠ .idle) (hk : K p k) (hg : K p g) (hx : x ∈ (cs p).lists g) {c : Cs}
    (hphase : c.phase = (cs p).phase)
    (hlists : ∀ k', c.lists k' = if k' = k then x :: ((cs p).lists k).erase x
      else ((cs p).lists k').erase x) :
    Family ((L.delInit x).add x (.head p k)) (heads (Function.update cs p c) K)
      (listsOf (Function.update cs p c)) := by
  have hgmem : .head p g ∈ heads cs K := ⟨p, g, rfl, hp, hg⟩
  have hkmem : .head p k ∈ heads cs K := ⟨p, k, rfl, hp, hk⟩
  have hheads : heads (Function.update cs p c) K = heads cs K := by
    ext a
    refine exists_congr fun q => exists_congr fun k' => and_congr_right fun _ =>
      and_congr_left fun _ => ?_
    by_cases hq : q = p
    · subst hq
      rw [Function.update_self, hphase]
    · rw [Function.update_of_ne hq]
  have hnodup : ((cs p).lists g).Nodup := (List.nodup_cons.mp (hf.circle _ hgmem).1).2
  have hdel := hf.delInit hgmem hx
  -- it is in no list now
  have hout : ∀ a ∈ heads cs K,
      x ∉ a :: Function.update (listsOf cs) (.head p g) (((cs p).lists g).erase x) a := by
    intro a ha
    by_cases hag : a = .head p g
    · subst hag
      rw [Function.update_self, List.mem_cons, not_or]
      refine ⟨?_, fun hmem => (hnodup.mem_erase_iff.mp hmem).1 rfl⟩
      rintro rfl
      exact (List.nodup_cons.mp (hf.circle _ hgmem).1).1 hx
    · rw [Function.update_of_ne hag]
      exact hf.notMem hgmem hx ha hag
  rw [hheads]
  refine (hdel.add hkmem hout).congr ?_
  rintro a ⟨q, k', rfl, hq, hK⟩
  by_cases hqp : q = p
  · subst hqp
    have herase : k' ≠ g → ((cs q).lists k').erase x = (cs q).lists k' := by
      intro hne
      refine List.erase_of_not_mem fun hmem => ?_
      exact hf.notMem hgmem hx ⟨q, k', rfl, hq, hK⟩ (by simpa using hne)
        (List.mem_cons_of_mem _ hmem)
    simp only [listsOf, Function.update_self, hlists]
    by_cases hk' : k' = k
    · subst hk'
      by_cases hkg : k' = g
      · subst hkg
        simp
      · simp [hkg, herase hkg, listsOf]
    · by_cases hkg : k' = g
      · subst hkg
        simp [hk']
      · simp [hk', hkg, herase hkg, listsOf]
  · simp [listsOf, hqp]

theorem Listed.move (h : Listed l K L cs) (hp : (cs p).phase ≠ .idle) (hk : K p k) (hg : K p g)
    (hx : x ∈ (cs p).lists g) (hphase : c.phase = (cs p).phase)
    (hlists : ∀ k', c.lists k' = if k' = k then x :: ((cs p).lists k).erase x
      else ((cs p).lists k').erase x) :
    Listed l K ((L.delInit x).add x (.head p k)) (Function.update cs p c) := by
  have hmem : ∀ {k' z}, z ∈ c.lists k' → z = x ∨ z ∈ (cs p).lists k' := by
    intro k' z hz
    rw [hlists] at hz
    split at hz
    case isTrue hkk =>
      subst hkk
      exact (List.mem_cons.mp hz).imp_right List.mem_of_mem_erase
    case isFalse => exact .inr (List.mem_of_mem_erase hz)
  refine ⟨family_move h.family hp hk hg hx hphase hlists, ?_, ?_, ?_⟩
  · intro q hq k' hk' z hz
    by_cases hqp : q = p
    · subst hqp
      rw [Function.update_self] at hz
      rcases hmem hz with rfl | hz
      · exact h.own q hp g hg z hx
      · exact h.own q hp k' hk' z hz
    · rw [Function.update_of_ne hqp] at hq hz
      exact h.own q hq k' hk' z hz
  · intro q hq e he hpar
    by_cases hqp : q = p
    · subst hqp
      rw [Function.update_self]
      by_cases hxe : x = .entry e
      · exact ⟨k, hk, by simp [hlists, hxe]⟩
      · obtain ⟨k', hk', hin⟩ := h.linked q hp e he hpar
        have hin' : Addr.entry e ∈ ((cs q).lists k').erase x :=
          (List.mem_erase_of_ne (Ne.symm hxe)).mpr hin
        refine ⟨k', hk', ?_⟩
        rw [hlists]
        split
        case isTrue hkk =>
          subst hkk
          exact List.mem_cons_of_mem x hin'
        case isFalse => exact hin'
    · rw [Function.update_of_ne hqp] at hq ⊢
      exact h.linked q hq e he hpar
  · intro q hq hK
    by_cases hqp : q = p
    · subst hqp
      have hne : Kind.needPages ≠ k := by
        rintro rfl
        exact hK hk
      rw [Function.update_self, hlists, if_neg hne, h.spare q hp hK]
      rfl
    · rw [Function.update_of_ne hqp] at hq ⊢
      exact h.spare q hq hK

/-- The lists as they are, of submissions that go on or end. -/
theorem Listed.congr {cs' : ℕ → Cs} (h : Listed l K L cs)
    (hcs : ∀ q, (cs' q).phase ≠ .idle → (cs q).phase ≠ .idle ∧ (cs' q).lists = (cs q).lists) :
    Listed l K L cs' := by
  refine ⟨?_, fun q hq => ?_, fun q hq => ?_, fun q hq => ?_⟩
  · have hsub : heads cs' K ⊆ heads cs K := by
      rintro a ⟨q, k, rfl, hq, hK⟩
      exact ⟨q, k, rfl, (hcs q hq).1, hK⟩
    refine (h.family.mono hsub).congr ?_
    rintro a ⟨q, k, rfl, hq, -⟩
    simp only [listsOf, (hcs q hq).2]
  · rw [(hcs q hq).2]
    exact h.own q (hcs q hq).1
  · rw [(hcs q hq).2]
    exact h.linked q (hcs q hq).1
  · rw [(hcs q hq).2]
    exact h.spare q (hcs q hq).1

/-- No list of a submission is longer than a walk over it may be. -/
theorem Listed.length_lt (h : Listed l K L cs) (hp : (cs p).phase ≠ .idle) (hk : K p k) :
    ((cs p).lists k).length < l.numEntries + 3 := by
  have hnodup : ((cs p).lists k).Nodup :=
    (List.nodup_cons.mp (h.family.circle _ ⟨p, k, rfl, hp, hk⟩).1).2
  have hsub : (cs p).lists k ⊆
      .vmPd p :: .ufEntry p :: (List.range l.numEntries).map Addr.entry := by
    intro x hx
    rcases h.own p hp k hk x hx with rfl | rfl | ⟨e, he, rfl, -⟩ <;> simp [*]
  have hlen := (List.subperm_of_subset hnodup hsub).length_le
  simp only [List.length_cons, List.length_map, List.length_range] at hlen
  omega

theorem Listed.walk (h : Listed l K s.links s.cs) (hp : (s.cs p).phase ≠ .idle) (hk : K p k) :
    s.walk l p k = some ((s.cs p).lists k) :=
  (h.family.circle _ ⟨p, k, rfl, hp, hk⟩).entries (h.length_lt hp hk)

/-- No head is in a list. -/
theorem Listed.head_notMem (h : Listed l K L cs) {q : ℕ} {k' : Kind} {a : Addr}
    (ha : a ∈ heads cs K) : .head q k' ∉ listsOf cs a := by
  obtain ⟨r, k'', rfl, hr, hK⟩ := ha
  intro hmem
  rcases h.own r hr k'' hK _ hmem with heq | heq | ⟨e, -, heq, -⟩ <;> cases heq

/-- An iteration has one more list. -/
theorem Listed.initNeedPages (h : Listed l between L cs) (hp : (cs p).phase ≠ .idle) :
    Listed l (within p) (L.init (.head p .needPages)) cs := by
  have hheads : heads cs (within p) = insert (.head p .needPages) (heads cs between) := by
    ext a
    constructor
    · rintro ⟨q, k, rfl, hq, hk | ⟨rfl, rfl⟩⟩
      · exact .inr ⟨q, k, rfl, hq, hk⟩
      · exact .inl rfl
    · rintro (rfl | ⟨q, k, rfl, hq, hk⟩)
      · exact ⟨p, _, rfl, hp, .inr ⟨rfl, rfl⟩⟩
      · exact ⟨q, k, rfl, hq, .inl hk⟩
  have hspare : (cs p).lists .needPages = [] := h.spare p hp (by simp [between, Kind.Kept])
  refine ⟨?_, fun q hq k hk x hx => ?_, fun q hq e he hpar => ?_, fun q hq hK => ?_⟩
  · rw [hheads]
    refine (h.family.init fun a ha _ => h.head_notMem ha).congr fun a _ => ?_
    by_cases ha : a = .head p .needPages
    · subst ha
      simp [listsOf, hspare]
    · rw [Function.update_of_ne ha]
  · rcases hk with hk | ⟨rfl, rfl⟩
    · exact h.own q hq k hk x hx
    · rw [hspare] at hx
      cases hx
  · obtain ⟨k, hk, hin⟩ := h.linked q hq e he hpar
    exact ⟨k, .inl hk, hin⟩
  · exact h.spare q hq fun hk => hK (.inl hk)

/-- The iteration ends, with no entry in that list. -/
theorem Listed.noNeedPages (h : Listed l (within p) L cs) (hp : (cs p).phase ≠ .idle)
    (hempty : L.empty (.head p .needPages)) : Listed l between L cs := by
  have hnone : (cs p).lists .needPages = [] :=
    (h.family.circle _ ⟨p, _, rfl, hp, .inr ⟨rfl, rfl⟩⟩).empty_iff.mp hempty
  refine ⟨h.family.mono ?_, fun q hq k hk => h.own q hq k (.inl hk), fun q hq e he hpar => ?_,
    fun q hq hK => ?_⟩
  · rintro a ⟨q, k, rfl, hq, hk⟩
    exact ⟨q, k, rfl, hq, .inl hk⟩
  · obtain ⟨k, hk | ⟨rfl, rfl⟩, hin⟩ := h.linked q hq e he hpar
    · exact ⟨k, hk, hin⟩
    · rw [hnone] at hin
      cases hin
  · by_cases hqp : q = p
    · rw [hqp, hnone]
    · exact h.spare q hq fun hk => hk.elim hK fun hk => hqp hk.1

/-- The entries that got pages come first. -/
theorem Listed.splice (h : Listed l (within p) L cs) (hp : (cs p).phase ≠ .idle)
    (hphase : c.phase = (cs p).phase)
    (hlists : ∀ k, c.lists k = match k with
      | .validated => (cs p).lists .needPages ++ (cs p).lists .validated
      | .needPages => []
      | k => (cs p).lists k) :
    Listed l between (L.splice (.head p .needPages) (.head p .validated))
      (Function.update cs p c) := by
  have hneed : .head p .needPages ∈ heads cs (within p) := ⟨p, _, rfl, hp, .inr ⟨rfl, rfl⟩⟩
  have hval : .head p .validated ∈ heads cs (within p) := ⟨p, _, rfl, hp, .inl (.inl rfl)⟩
  have hcphase : ∀ q, (Function.update cs p c q).phase = (cs q).phase := by
    intro q
    by_cases hqp : q = p
    · subst hqp
      rw [Function.update_self, hphase]
    · rw [Function.update_of_ne hqp]
  refine ⟨?_, fun q hq k hk x hx => ?_, fun q hq e he hpar => ?_, fun q hq hK => ?_⟩
  · have hsub : heads (Function.update cs p c) between ⊆
        heads cs (within p) \ {.head p .needPages} := by
      rintro a ⟨q, k, rfl, hq, hk⟩
      rw [hcphase] at hq
      refine ⟨⟨q, k, rfl, hq, .inl hk⟩, ?_⟩
      rcases hk with rfl | rfl <;> simp
    refine ((h.family.splice hneed hval (by simp)).mono hsub).congr ?_
    rintro a ⟨q, k, rfl, -, hk⟩
    by_cases hqp : q = p
    · subst hqp
      rcases hk with rfl | rfl <;> simp [listsOf, hlists]
    · simp [listsOf, hqp]
  · rw [hcphase] at hq
    by_cases hqp : q = p
    · subst hqp
      rw [Function.update_self, hlists] at hx
      rcases hk with rfl | rfl
      · rcases List.mem_append.mp hx with hx | hx
        · exact h.own q hq _ (.inr ⟨rfl, rfl⟩) x hx
        · exact h.own q hq _ (.inl (.inl rfl)) x hx
      · exact h.own q hq _ (.inl (.inr rfl)) x hx
    · rw [Function.update_of_ne hqp] at hx
      exact h.own q hq k (.inl hk) x hx
  · rw [hcphase] at hq
    obtain ⟨k, hk, hin⟩ := h.linked q hq e he hpar
    by_cases hqp : q = p
    · subst hqp
      rw [Function.update_self]
      rcases hk with (rfl | rfl) | ⟨-, rfl⟩
      · exact ⟨.validated, .inl rfl, by simp [hlists, hin]⟩
      · exact ⟨.duplicates, .inr rfl, by simp [hlists, hin]⟩
      · exact ⟨.validated, .inl rfl, by simp [hlists, hin]⟩
    · rw [Function.update_of_ne hqp]
      exact ⟨k, hk.resolve_right fun hk => hqp hk.1, hin⟩
  · rw [hcphase] at hq
    by_cases hqp : q = p
    · subst hqp
      rw [Function.update_self, hlists]
    · rw [Function.update_of_ne hqp]
      exact h.spare q hq fun hk => hk.elim hK fun hk => hqp hk.1

/-- The heads of the first buckets of a submission. -/
def buckets (p n : ℕ) : Set Addr := {a | ∃ i < n, a = .head p (.bucket i)}

theorem buckets_succ (p n : ℕ) :
    buckets p (n + 1) = insert (.head p (.bucket n)) (buckets p n) := by
  ext a
  constructor
  · rintro ⟨i, hi, rfl⟩
    rcases Nat.lt_succ_iff_lt_or_eq.mp hi with hi | rfl
    · exact .inr ⟨i, hi, rfl⟩
    · exact .inl rfl
  · rintro (rfl | ⟨i, hi, rfl⟩)
    · exact ⟨n, Nat.lt_succ_self n, rfl⟩
    · exact ⟨i, Nat.lt_succ_of_lt hi, rfl⟩

/-- The lists with those of the buckets. -/
def withBuckets (p : ℕ) (f : ℕ → List Addr) (xs : Addr → List Addr) : Addr → List Addr
  | .head q (.bucket i) => if q = p then f i else xs (.head q (.bucket i))
  | a => xs a

section GetList

variable {H : Set Addr} {xs : Addr → List Addr} {f : ℕ → List Addr} {a : Addr}

@[simp] theorem withBuckets_bucket (i : ℕ) :
    withBuckets p f xs (.head p (.bucket i)) = f i := by simp [withBuckets]

theorem withBuckets_of_ne (ha : ∀ i, a ≠ .head p (.bucket i)) : withBuckets p f xs a = xs a := by
  unfold withBuckets
  split
  case h_1 q i =>
    have hq : q ≠ p := by
      rintro rfl
      exact ha i rfl
    simp [hq]
  case h_2 => rfl

/-- All buckets are initialised. -/
theorem family_init_buckets (hf : Family L H xs) (hheads : ∀ i, .head p (.bucket i) ∉ H)
    (hlists : ∀ a ∈ H, ∀ i, .head p (.bucket i) ∉ xs a) (n : ℕ) :
    Family ((List.range n).foldl (fun L i => L.init (.head p (.bucket i))) L) (H ∪ buckets p n)
      (withBuckets p (fun _ => []) xs) := by
  have hne : ∀ {a}, a ∈ H → ∀ i, a ≠ .head p (.bucket i) := by
    rintro a ha i rfl
    exact hheads i ha
  induction n with
  | zero =>
    have hH : H ∪ buckets p 0 = H := by simp [buckets]
    rw [hH]
    exact hf.congr fun a ha => withBuckets_of_ne (hne ha)
  | succ n ih =>
    rw [List.range_succ, List.foldl_append, List.foldl_cons, List.foldl_nil]
    rw [buckets_succ, Set.union_insert]
    refine (ih.init ?_).congr fun a ha => ?_
    · rintro a (ha | ⟨i, -, rfl⟩) -
      · rw [withBuckets_of_ne (hne ha)]
        exact hlists a ha n
      · simp
    · by_cases han : a = .head p (.bucket n)
      · subst han
        simp
      · rw [Function.update_of_ne han]

theorem bucketOf_succ (m i : ℕ) : bucketOf l (m + 1) i =
    bucketOf l m i ++ if l.hasParent m = false ∧ l.priority m = i then [.entry m] else [] := by
  simp only [bucketOf, List.range_succ, List.filter_append, List.map_append]
  congr 1
  by_cases hm : l.hasParent m = false ∧ l.priority m = i
  · simp [hm]
  · have hno : (!l.hasParent m && decide (l.priority m = i)) = false := by
      simpa using hm
    rw [if_neg hm, List.filter_cons_of_neg (by simp [hno]), List.filter_nil, List.map_nil]

/-- Every entry without a parent goes to the bucket of its priority. -/
theorem family_fill_buckets
    (hf : Family L (H ∪ buckets p numBuckets) (withBuckets p (fun _ => []) xs))
    (hheads : ∀ i, .head p (.bucket i) ∉ H) (m : ℕ)
    (hentries : ∀ e < m, l.hasParent e = false → ∀ a ∈ H, .entry e ∉ a :: xs a) :
    Family ((List.range m).foldl (fun L e => if l.hasParent e then L
      else L.addTail (.entry e) (.head p (.bucket (l.priority e)))) L)
      (H ∪ buckets p numBuckets) (withBuckets p (bucketOf l m) xs) := by
  induction m with
  | zero => exact hf
  | succ m ih =>
    rw [List.range_succ, List.foldl_append, List.foldl_cons, List.foldl_nil]
    have ih := ih fun e he => hentries e (by omega)
    by_cases hpar : l.hasParent m = true
    · rw [if_pos hpar]
      have hsame : bucketOf l (m + 1) = bucketOf l m := by
        funext i
        simp [bucketOf_succ, hpar]
      rwa [hsame]
    · have hno : l.hasParent m = false := by simpa using hpar
      rw [if_neg hpar]
      have hbucket : .head p (.bucket (l.priority m)) ∈ H ∪ buckets p numBuckets :=
        .inr ⟨_, l.priority_lt m, rfl⟩
      refine (ih.addTail hbucket ?_).congr fun a ha => ?_
      · rintro a (ha | ⟨i, -, rfl⟩)
        · rw [withBuckets_of_ne fun i heq => hheads i (heq ▸ ha)]
          exact hentries m (Nat.lt_succ_self m) hno a ha
        · simp [bucketOf]
      · by_cases hab : a = .head p (.bucket (l.priority m))
        · subst hab
          simp [bucketOf_succ, hno]
        · rw [Function.update_of_ne hab]
          rcases ha with ha | ⟨i, -, rfl⟩
          · rw [withBuckets_of_ne fun i heq => hheads i (heq ▸ ha),
              withBuckets_of_ne fun i heq => hheads i (heq ▸ ha)]
          · have hne : l.priority m ≠ i := fun heq => hab (by rw [heq])
            simp [bucketOf_succ, hne]

/-- The buckets are put together, in front of what the list has. -/
theorem family_splice_buckets {V : Addr} (hf : Family L (H ∪ buckets p numBuckets)
    (withBuckets p f xs)) (hV : V ∈ H)
    (hheads : ∀ i, .head p (.bucket i) ∉ H) (n : ℕ) (hn : n ≤ numBuckets) :
    Family ((List.range n).foldl (fun L i => L.splice (.head p (.bucket i)) V) L)
      ((H ∪ buckets p numBuckets) \ buckets p n)
      (Function.update (withBuckets p f xs) V
        ((List.range n).foldl (fun ys i => f i ++ ys) (xs V))) := by
  have hVne : ∀ i, V ≠ .head p (.bucket i) := by
    rintro i rfl
    exact hheads i hV
  induction n with
  | zero =>
    refine (hf.mono fun a ha => ha.1).congr fun a _ => ?_
    by_cases ha : a = V
    · subst ha
      rw [Function.update_self, withBuckets_of_ne hVne]
      rfl
    · rw [Function.update_of_ne ha]
  | succ n ih =>
    rw [List.range_succ, List.foldl_append, List.foldl_append, List.foldl_cons, List.foldl_nil]
    have ih := ih (by omega)
    have hmem : .head p (.bucket n) ∈ (H ∪ buckets p numBuckets) \ buckets p n := by
      refine ⟨.inr ⟨n, by omega, rfl⟩, ?_⟩
      rintro ⟨i, hi, heq⟩
      simp only [Addr.head.injEq, Kind.bucket.injEq, true_and] at heq
      omega
    have hVmem : V ∈ (H ∪ buckets p numBuckets) \ buckets p n :=
      ⟨.inl hV, fun ⟨i, _, heq⟩ => hVne i heq⟩
    have hH : (H ∪ buckets p numBuckets) \ buckets p (n + 1) =
        ((H ∪ buckets p numBuckets) \ buckets p n) \ {.head p (.bucket n)} := by
      rw [buckets_succ]
      ext a
      constructor
      · rintro ⟨ha, hno⟩
        exact ⟨⟨ha, fun h => hno (.inr h)⟩, fun h => hno (.inl h)⟩
      · rintro ⟨⟨ha, hno⟩, hne⟩
        exact ⟨ha, fun h => h.elim hne hno⟩
    rw [hH]
    refine (ih.splice hmem hVmem (hVne n).symm).congr fun a _ => ?_
    by_cases ha : a = V
    · subst ha
      simp [Function.update_of_ne (hVne n).symm]
    · simp [Function.update_of_ne ha]

theorem mem_sorted {x : Addr} :
    x ∈ sorted l ↔ ∃ e < l.numEntries, x = .entry e ∧ l.hasParent e = false := by
  have hfold : ∀ n, x ∈ (List.range n).foldl (fun ys i => bucketOf l l.numEntries i ++ ys) [] ↔
      ∃ i < n, x ∈ bucketOf l l.numEntries i := by
    intro n
    induction n with
    | zero => simp
    | succ n ih =>
      rw [List.range_succ, List.foldl_append, List.foldl_cons, List.foldl_nil, List.mem_append, ih]
      constructor
      · rintro (hx | ⟨i, hi, hx⟩)
        · exact ⟨n, Nat.lt_succ_self n, hx⟩
        · exact ⟨i, Nat.lt_succ_of_lt hi, hx⟩
      · rintro ⟨i, hi, hx⟩
        rcases Nat.lt_succ_iff_lt_or_eq.mp hi with hi | rfl
        · exact .inr ⟨i, hi, hx⟩
        · exact .inl hx
  rw [sorted, hfold]
  constructor
  · rintro ⟨i, -, hx⟩
    simp only [bucketOf, List.mem_map, List.mem_filter, List.mem_range, Bool.and_eq_true,
      Bool.not_eq_true', decide_eq_true_eq] at hx
    obtain ⟨e, ⟨he, hpar, -⟩, rfl⟩ := hx
    exact ⟨e, he, rfl, hpar⟩
  · rintro ⟨e, he, rfl, hpar⟩
    exact ⟨l.priority e, l.priority_lt e, by simp [bucketOf, he, hpar]⟩

/-- The entries without a parent come in front of what the list of a submission has. -/
theorem family_getList_onto (hf : Family L H xs) (hV : .head p .validated ∈ H)
    (hheads : ∀ i, .head p (.bucket i) ∉ H) (hlists : ∀ a ∈ H, ∀ i, .head p (.bucket i) ∉ xs a)
    (hentries : ∀ e < l.numEntries, l.hasParent e = false → ∀ a ∈ H, .entry e ∉ a :: xs a) :
    Family (getList l p L) H (Function.update xs (.head p .validated)
      ((List.range numBuckets).foldl (fun ys i => bucketOf l l.numEntries i ++ ys)
        (xs (.head p .validated)))) := by
  have hbuckets := family_init_buckets (p := p) hf hheads hlists numBuckets
  have hfill := family_fill_buckets hbuckets hheads l.numEntries hentries
  have hsplice := family_splice_buckets hfill hV hheads numBuckets (Nat.le_refl _)
  have hsub : H ⊆ (H ∪ buckets p numBuckets) \ buckets p numBuckets := by
    intro a ha
    refine ⟨.inl ha, ?_⟩
    rintro ⟨i, -, rfl⟩
    exact hheads i ha
  refine (hsplice.mono hsub).congr fun a ha => ?_
  by_cases haV : a = .head p .validated
  · subst haV
    rw [Function.update_self, Function.update_self]
  · rw [Function.update_of_ne haV, Function.update_of_ne haV,
      withBuckets_of_ne (by rintro i rfl; exact hheads _ ha)]

/-- A submission gets the entries without a parent, sorted. -/
theorem family_getList (hf : Family L H xs) (hheads : ∀ k, .head p k ∉ H)
    (hlists : ∀ a ∈ H, ∀ k, .head p k ∉ xs a)
    (hentries : ∀ e < l.numEntries, l.hasParent e = false → ∀ a ∈ H, .entry e ∉ a :: xs a) :
    Family (getList l p (L.init (.head p .validated))) (insert (.head p .validated) H)
      (Function.update xs (.head p .validated) (sorted l)) := by
  have hne : ∀ {a}, a ∈ H → a ≠ .head p .validated := by
    rintro a ha rfl
    exact hheads _ ha
  have hno : ∀ i, .head p (.bucket i) ∉ insert (.head p .validated) H := by
    rintro i (heq | hmem)
    · cases heq
    · exact hheads _ hmem
  have hinit := hf.init (h := .head p .validated) fun a ha _ => hlists a ha _
  have honto := family_getList_onto hinit (.inl rfl) hno (by
    rintro a (rfl | ha) i
    · simp
    · rw [Function.update_of_ne (hne ha)]
      exact hlists a ha _) (by
    rintro e he hpar a (rfl | ha)
    · simp
    · rw [Function.update_of_ne (hne ha)]
      exact hentries e he hpar a ha)
  rw [Function.update_self, Function.update_idem] at honto
  exact honto

end GetList

/-- The links of a new submission, whose entries are in no other's. -/
theorem Listed.family_new (h : Listed l between L cs) (hp : (cs p).phase = .idle)
    (hentries : ∀ e < l.numEntries, l.hasParent e = false → ∀ a ∈ heads cs between,
      .entry e ∉ a :: listsOf cs a) {uf : Bool}
    (hlists : ∀ k, c.lists k = match k with
      | .validated => (if uf then [.ufEntry p] else []) ++ .vmPd p :: sorted l
      | _ => []) :
    let L' := ((getList l p (L.init (.head p .validated))).init (.head p .duplicates)).add
      (.vmPd p) (.head p .validated)
    Family (if uf then L'.add (.ufEntry p) (.head p .validated) else L')
      (heads (Function.update cs p c) between) (listsOf (Function.update cs p c)) := by
  intro L'
  have hheads : ∀ k, .head p k ∉ heads cs between := by
    rintro k ⟨q, k', heq, hq, -⟩
    cases heq
    exact hq hp
  have hother : ∀ {a}, a ∈ heads cs between → ∀ k, a ≠ .head p k := by
    rintro a ha k rfl
    exact hheads k ha
  -- the two entries of the submission are in no list
  have hown : ∀ x, x = .vmPd p ∨ x = .ufEntry p → ∀ a ∈ heads cs between, x ∉ a :: listsOf cs a := by
    rintro x hx a ⟨q, k, rfl, hq, hk⟩ hmem
    rcases List.mem_cons.mp hmem with heq | hmem
    · rcases hx with rfl | rfl <;> cases heq
    · have hqp : q ≠ p := by
        rintro rfl
        exact hq hp
      rcases h.own q hq k hk x hmem with rfl | rfl | ⟨e, -, rfl, -⟩
      · exact hx.elim (fun heq => hqp (Addr.vmPd.inj heq)) fun heq => by cases heq
      · exact hx.elim (fun heq => by cases heq) fun heq => hqp (Addr.ufEntry.inj heq)
      · exact hx.elim (fun heq => by cases heq) fun heq => by cases heq
  have hlist := family_getList h.family hheads (fun a ha k => h.head_notMem ha) hentries
  have hdup := hlist.init (h := .head p .duplicates) (by
    rintro a (rfl | ha) -
    · simp [mem_sorted]
    · rw [Function.update_of_ne (hother ha _)]
      exact h.head_notMem ha)
  have hval : Addr.head p .validated ∈
      insert (Addr.head p .duplicates) (insert (.head p .validated) (heads cs between)) :=
    .inr (.inl rfl)
  have hsorted : ∀ x, x = .vmPd p ∨ x = .ufEntry p → x ∉ sorted l := by
    rintro x hx hmem
    obtain ⟨e, -, rfl, -⟩ := mem_sorted.mp hmem
    rcases hx with heq | heq <;> cases heq
  have hpd := hdup.add (x := .vmPd p) hval (by
    rintro a (rfl | rfl | ha)
    · simp
    · simp [hsorted]
    · rw [Function.update_of_ne (hother ha _), Function.update_of_ne (hother ha _)]
      exact hown _ (.inl rfl) a ha)
  have huf := hpd.add (x := .ufEntry p) hval (by
    rintro a (rfl | rfl | ha)
    · simp
    · simp [hsorted]
    · rw [Function.update_of_ne (hother ha _), Function.update_of_ne (hother ha _),
        Function.update_of_ne (hother ha _)]
      exact hown _ (.inr rfl) a ha)
  have hsub : heads (Function.update cs p c) between ⊆
      insert (.head p .duplicates) (insert (.head p .validated) (heads cs between)) := by
    rintro a ⟨q, k, rfl, hq, hk⟩
    by_cases hqp : q = p
    · subst hqp
      rcases hk with rfl | rfl
      · exact .inr (.inl rfl)
      · exact .inl rfl
    · rw [Function.update_of_ne hqp] at hq
      exact .inr (.inr ⟨q, k, rfl, hq, hk⟩)
  -- the lists that the new submission has, and those of the others
  have hself : ∀ k : Kind, listsOf (Function.update cs p c) (.head p k) = match k with
      | .validated => (if uf then [.ufEntry p] else []) ++ .vmPd p :: sorted l
      | _ => [] := by
    intro k
    simp only [listsOf, Function.update_self, hlists]
  have hrest : ∀ q k, q ≠ p →
      listsOf (Function.update cs p c) (.head q k) = listsOf cs (.head q k) := by
    intro q k hqp
    simp only [listsOf, Function.update_of_ne hqp]
  cases uf with
  | false =>
    refine (hpd.mono hsub).congr ?_
    rintro a ⟨q, k, rfl, -, hk⟩
    by_cases hqp : q = p
    · subst hqp
      rw [hself k]
      rcases hk with rfl | rfl <;> simp
    · simp [hrest q k hqp, hqp]
  | true =>
    refine (huf.mono hsub).congr ?_
    rintro a ⟨q, k, rfl, -, hk⟩
    by_cases hqp : q = p
    · subst hqp
      rw [hself k]
      rcases hk with rfl | rfl <;> simp
    · simp [hrest q k hqp, hqp]

/-- The lists of a new submission, whose entries are in no other's. -/
theorem Listed.getList (h : Listed l between L cs) (hp : (cs p).phase = .idle)
    (hentries : ∀ e < l.numEntries, l.hasParent e = false → ∀ a ∈ heads cs between,
      .entry e ∉ a :: listsOf cs a) {uf : Bool}
    (hlists : ∀ k, c.lists k = match k with
      | .validated => (if uf then [.ufEntry p] else []) ++ .vmPd p :: sorted l
      | _ => []) :
    let L' := ((getList l p (L.init (.head p .validated))).init (.head p .duplicates)).add
      (.vmPd p) (.head p .validated)
    Listed l between (if uf then L'.add (.ufEntry p) (.head p .validated) else L')
      (Function.update cs p c) := by
  intro L'
  refine ⟨h.family_new hp hentries hlists, fun q hq k hk x hx => ?_, fun q hq e he hpar => ?_,
    fun q hq hK => ?_⟩
  · by_cases hqp : q = p
    · subst hqp
      rw [Function.update_self, hlists] at hx
      rcases hk with rfl | rfl
      · rcases List.mem_append.mp hx with hx | hx
        · cases uf with
          | false => cases hx
          | true => exact .inr (.inl (List.mem_singleton.mp hx))
        · rcases List.mem_cons.mp hx with rfl | hx
          · exact .inl rfl
          · exact .inr (.inr (mem_sorted.mp hx))
      · cases hx
    · rw [Function.update_of_ne hqp] at hq hx
      exact h.own q hq k hk x hx
  · by_cases hqp : q = p
    · subst hqp
      have hin : Addr.entry e ∈ sorted l := mem_sorted.mpr ⟨e, he, rfl, hpar⟩
      refine ⟨.validated, .inl rfl, ?_⟩
      rw [Function.update_self, hlists]
      exact List.mem_append_right _ (List.mem_cons_of_mem _ hin)
    · rw [Function.update_of_ne hqp] at hq ⊢
      exact h.linked q hq e he hpar
  · by_cases hqp : q = p
    · subst hqp
      rw [Function.update_self, hlists]
    · rw [Function.update_of_ne hqp] at hq ⊢
      exact h.spare q hq hK

end Gsgpu.Sharing
