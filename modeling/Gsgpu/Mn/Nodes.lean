import Gsgpu.Mn.Lists

/-! Registration keeps the nodes apart and their lists complete. -/
namespace Gsgpu.Mn

open Intrusive

namespace Registry

/-- The list heads of the nodes in the tree. -/
def heads (s : Registry) : Set Addr := {a | ∃ n ∈ s.objects, a = .node n}

variable {s s' : Registry} {bos : Addr → List ℕ} {m n b : ℕ} {node : Option ℕ} {start last : ℕ}

@[simp] theorem node_mem_heads : Addr.node n ∈ s.heads ↔ n ∈ s.objects := by
  simp [heads]

@[simp] theorem bos_not_mem_heads : Addr.bos ∉ s.heads := by
  simp [heads]

/-- The ranges of the nodes in the tree, and of the BOs in their lists. -/
structure Tree (s : Registry) (bos : Addr → List ℕ) : Prop where
  nodup : s.objects.Nodup
  disjoint : ∀ m ∈ s.objects, ∀ n ∈ s.objects, m ≠ n →
    ¬ (s.it m).Meets (s.it n).start (s.it n).last
  nonempty : ∀ n ∈ s.objects, bos (.node n) ≠ []
  contains : ∀ n ∈ s.objects, ∀ b ∈ bos (.node n),
    (s.it n).start ≤ (s.range b).start ∧ (s.range b).last ≤ (s.it n).last
  valid : ∀ b, s.mn b = true → (s.range b).start ≤ (s.range b).last
  clean : s.clean

structure Inv (s : Registry) (bos : Addr → List ℕ) : Prop where
  tree : s.Tree bos
  held : Held s.links s.heads bos s.mn
  nodes : ∀ n, n ∈ s.nodes ↔ n ∈ s.objects

/-- Inside the loop of `gsgpu_mn_register`: the BOs of the nodes removed so far are in the list on
the stack, and the last of these nodes and the new one are out of the tree. -/
structure Merging (s : Registry) (bos : Addr → List ℕ) (m : ℕ) (node : Option ℕ)
    (start last : ℕ) : Prop where
  tree : s.Tree bos
  held : Held s.links (insert .bos s.heads) bos s.mn
  taken : ∀ b ∈ bos .bos, start ≤ (s.range b).start ∧ (s.range b).last ≤ last
  nodes : ∀ n, n ∈ s.nodes ↔ n ∈ s.objects ∨ n = m ∨ node = some n
  fresh : m ∉ s.objects ∧ node ≠ some m
  out : ∀ n, node = some n → n ∉ s.objects

/-- A node that is out of the tree may be freed. -/
theorem Merging.kfree_clean (h : s.Merging bos m node start last) (hn : n ∉ s.objects)
    (halloc : n ∈ s.nodes) : (s.kfree n).clean := by
  refine ⟨h.tree.clean, halloc, hn, fun b hb => ?_⟩
  exact h.held.pointers hb (by simpa using hn) (by simp)

theorem Tree.kfree (h : s.Tree bos) (hc : (s.kfree n).clean) : (s.kfree n).Tree bos :=
  ⟨h.nodup, h.disjoint, h.nonempty, h.contains, h.valid, hc⟩

/-- The node of the last round is freed. -/
theorem Merging.free (h : s.Merging bos m node start last) :
    (node.elim s s.kfree).Merging bos m none start last := by
  cases node with
  | none => exact h
  | some x =>
    have hx : x ∉ s.objects := h.out x rfl
    have hxm : x ≠ m := fun heq => h.fresh.2 (by rw [heq])
    refine ⟨h.tree.kfree (h.kfree_clean hx ((h.nodes x).mpr (by simp))), h.held, h.taken,
      fun n => ?_, ⟨h.fresh.1, nofun⟩, nofun⟩
    simp only [Option.elim_some, Registry.kfree, Finset.mem_erase, h.nodes n, Option.some.injEq,
      reduceCtorEq, or_false]
    constructor
    · rintro ⟨hne, hn | hn | hn⟩
      · exact .inl hn
      · exact .inr hn
      · exact absurd hn.symm hne
    · rintro (hn | hn)
      · exact ⟨fun heq => hx (heq ▸ hn), .inl hn⟩
      · exact ⟨fun heq => hxm (heq ▸ hn), .inr (.inl hn)⟩

/-- A node is taken out of the tree, and its BOs. -/
theorem Merging.take (h : s.Merging bos m none start last) (hn : n ∈ s.objects) :
    Merging { s with objects := s.objects.erase n, links := s.links.splice (.node n) .bos }
      (Function.update bos .bos (bos (.node n) ++ bos .bos)) m (some n)
      (min (s.it n).start start) (max (s.it n).last last) := by
  have hsub : ∀ k, k ∈ s.objects.erase n ↔ k ≠ n ∧ k ∈ s.objects :=
    fun k => h.tree.nodup.mem_erase_iff
  have hbos : ∀ k, Function.update bos .bos (bos (.node n) ++ bos .bos) (.node k) = bos (.node k) :=
    fun k => Function.update_of_ne (by simp) _ _
  have hheads : insert Addr.bos s.heads \ {Addr.node n} = insert Addr.bos
      (heads { s with objects := s.objects.erase n, links := s.links.splice (.node n) .bos }) := by
    ext a
    simp only [heads, Set.mem_sdiff, Set.mem_insert_iff, Set.mem_ofPred_eq, Set.mem_singleton_iff,
      hsub]
    constructor
    · rintro ⟨rfl | ⟨k, hk, rfl⟩, hne⟩
      · exact .inl rfl
      · exact .inr ⟨k, ⟨fun heq => hne (by rw [heq]), hk⟩, rfl⟩
    · rintro (rfl | ⟨k, ⟨hkn, hk⟩, rfl⟩)
      · exact ⟨.inl rfl, by simp⟩
      · exact ⟨.inr ⟨k, hk, rfl⟩, by simpa using hkn⟩
  refine ⟨⟨h.tree.nodup.erase n, ?_, ?_, ?_, h.tree.valid, h.tree.clean⟩, ?_, ?_, fun k => ?_,
    ⟨fun hm => h.fresh.1 ((hsub m).mp hm).2, ?_⟩, ?_⟩
  · intro k hk l hl
    exact h.tree.disjoint k ((hsub k).mp hk).2 l ((hsub l).mp hl).2
  · intro k hk
    rw [hbos]
    exact h.tree.nonempty k ((hsub k).mp hk).2
  · intro k hk
    rw [hbos]
    exact h.tree.contains k ((hsub k).mp hk).2
  · rw [← hheads]
    exact h.held.splice (.inr (by simpa using hn)) (.inl rfl) (by simp)
  · intro b hb
    rw [Function.update_self, List.mem_append] at hb
    rcases hb with hb | hb
    · have := h.tree.contains n hn b hb
      exact ⟨(min_le_left _ _).trans this.1, this.2.trans (le_max_left _ _)⟩
    · have := h.taken b hb
      exact ⟨(min_le_right _ _).trans this.1, this.2.trans (le_max_right _ _)⟩
  · simp only [h.nodes k, hsub, reduceCtorEq, or_false, Option.some.injEq]
    constructor
    · rintro (hk | hk)
      · by_cases hkn : k = n
        · exact .inr (.inr hkn.symm)
        · exact .inl ⟨hkn, hk⟩
      · exact .inr (.inl hk)
    · rintro (⟨-, hk⟩ | hk | rfl)
      · exact .inl hk
      · exact .inr hk
      · exact .inl hn
  · intro heq
    cases heq
    exact h.fresh.1 hn
  · rintro k ⟨⟩ hk
    exact ((hsub n).mp hk).1 rfl

theorem merge_spec {fuel : ℕ} (h : s.Merging bos m node start last)
    (hfuel : s.objects.length ≤ fuel) :
    ∃ s' bos' node' start' last', merge fuel s node start last = (s', node', start', last') ∧
      s'.Merging bos' m node' start' last' ∧ s'.iterFirst start' last' = none ∧
      start' ≤ start ∧ last ≤ last' ∧ s'.mn = s.mn ∧ s'.range = s.range := by
  induction fuel generalizing s bos node start last with
  | zero =>
    have hempty : s.objects = [] := List.length_eq_zero_iff.mp (Nat.le_zero.mp hfuel)
    exact ⟨s, bos, node, start, last, rfl, h, by simp [iterFirst, hempty], le_rfl, le_rfl, rfl, rfl⟩
  | succ fuel ih =>
    cases hfirst : s.iterFirst start last with
    | none =>
      exact ⟨s, bos, node, start, last, by simp [merge, hfirst], h, hfirst, le_rfl, le_rfl, rfl, rfl⟩
    | some n =>
      have hn : n ∈ s.objects := List.mem_of_find?_eq_some hfirst
      have hsame : (node.elim s s.kfree).objects = s.objects ∧ (node.elim s s.kfree).mn = s.mn ∧
          (node.elim s s.kfree).range = s.range := by cases node <;> exact ⟨rfl, rfl, rfl⟩
      have hlen : (s.objects.erase n).length ≤ fuel := by
        rw [List.length_erase_of_mem hn]
        omega
      obtain ⟨s', bos', node', start', last', hrun, hm, hnone, hstart, hlast, hmn, hrange⟩ :=
        ih (h.free.take (by rwa [hsame.1])) (by rw [← hsame.1] at hlen; exact hlen)
      refine ⟨s', bos', node', start', last', ?_, hm, hnone, hstart.trans (min_le_right _ _),
        (le_max_right _ _).trans hlast, hmn.trans hsame.2.1, hrange.trans hsame.2.2⟩
      rw [merge, hfirst]
      exact hrun

/-- The list on the stack is there, with no BOs yet. -/
theorem Inv.merging (h : s.Inv bos) (hm : m ∉ s.nodes) :
    Merging { s with nodes := insert m s.nodes, links := s.links.init .bos }
      (Function.update bos .bos []) m none start last := by
  have hbos : ∀ k, Function.update bos .bos [] (.node k) = bos (.node k) :=
    fun k => Function.update_of_ne (by simp) _ _
  refine ⟨⟨h.tree.nodup, h.tree.disjoint, fun n hn => ?_, fun n hn => ?_, h.tree.valid,
    h.tree.clean⟩, h.held.init (by simp) (by simp), by simp, fun n => ?_,
    ⟨fun hmem => hm ((h.nodes m).mpr hmem), nofun⟩, nofun⟩
  · rw [hbos]
    exact h.tree.nonempty n hn
  · rw [hbos]
    exact h.tree.contains n hn
  · simp [Finset.mem_insert, h.nodes n, or_comm]

/-- The new node is freed again if there is one to use. -/
theorem Merging.choose (h : s.Merging bos m node start last) :
    let s' := node.elim s fun _ => s.kfree m
    let n := node.getD m
    s'.Tree bos ∧ Held s'.links (insert .bos s'.heads) bos s'.mn ∧ n ∉ s'.objects ∧
      (∀ k, k ∈ s'.nodes ↔ k ∈ s'.objects ∨ k = n) ∧ s'.objects = s.objects ∧ s'.it = s.it ∧
      s'.mn = s.mn ∧ s'.range = s.range := by
  cases node with
  | none =>
    exact ⟨h.tree, h.held, h.fresh.1, fun k => by simp [h.nodes k], rfl, rfl, rfl, rfl⟩
  | some x =>
    have hxm : x ≠ m := fun heq => h.fresh.2 (by rw [heq])
    refine ⟨h.tree.kfree (h.kfree_clean h.fresh.1 ((h.nodes m).mpr (by simp))), h.held,
      h.out x rfl, fun k => ?_, rfl, rfl, rfl, rfl⟩
    simp only [Option.elim_some, Registry.kfree, Finset.mem_erase, h.nodes k, Option.some.injEq,
      Option.getD_some]
    constructor
    · rintro ⟨hne, hk | hk | hk⟩
      · exact .inl hk
      · exact absurd hk hne
      · exact .inr hk.symm
    · rintro (hk | rfl)
      · exact ⟨fun heq => h.fresh.1 (heq ▸ hk), .inl hk⟩
      · exact ⟨hxm, .inr (.inr rfl)⟩

/-- The node with the merged range and all BOs goes into the tree. -/
theorem Tree.attach {r : Range} (h : s.Tree bos)
    (hheld : Held s.links (insert .bos s.heads) bos s.mn) (hn : n ∉ s.objects)
    (hnodes : ∀ k, k ∈ s.nodes ↔ k ∈ s.objects ∨ k = n)
    (htaken : ∀ b ∈ bos .bos, start ≤ (s.range b).start ∧ (s.range b).last ≤ last)
    (hnone : s.iterFirst start last = none) (hb : s.mn b = false) (hr : r.start ≤ r.last)
    (hstart : start ≤ r.start) (hlast : r.last ≤ last) :
    ∃ bos', Inv (treeInsert { s with
      mn := Function.update s.mn b true
      it := Function.update s.it n ⟨start, last⟩
      links := ((s.links.init (.node n)).splice .bos (.node n)).add (.bo b) (.node n)
      range := Function.update s.range b r } n) bos' := by
  have hnot : ∀ k ∈ insert Addr.bos s.heads, ∀ c ∈ bos k, c ≠ b := by
    rintro k hk c hc rfl
    simp [(hheld.listed c).mpr ⟨k, hk, hc⟩] at hb
  have hheads : insert (Addr.node n) (insert Addr.bos s.heads) \ {Addr.bos} =
      insert (Addr.node n) s.heads := by
    ext a
    simp only [Set.mem_sdiff, Set.mem_insert_iff, Set.mem_singleton_iff]
    constructor
    · rintro ⟨rfl | rfl | ha, hne⟩
      · exact .inl rfl
      · exact absurd rfl hne
      · exact .inr ha
    · rintro (rfl | ha)
      · exact ⟨.inl rfl, by simp⟩
      · refine ⟨.inr (.inr ha), ?_⟩
        rintro rfl
        simp at ha
  have h₁ := (hheld.init (a := .node n) (by simpa using hn) (by simp)).splice (l := .bos)
    (h := .node n) (by simp) (by simp) (by simp)
  rw [hheads] at h₁
  have h₂ := h₁.add (h := .node n) (.inl rfl) hb
  generalize hbos' : Function.update _ (Addr.node n) _ = bos' at h₂
  have hnew : bos' (.node n) = b :: bos .bos := by
    rw [← hbos']
    simp
  have hold : ∀ k ∈ s.objects, bos' (.node k) = bos (.node k) := by
    intro k hk
    have hkn : k ≠ n := fun heq => hn (heq ▸ hk)
    rw [← hbos']
    simp [hkn]
  have hmem : ∀ k, k ∈ s.objects.orderedInsert (fun a b =>
      (Function.update s.it n ⟨start, last⟩ a).start <
        (Function.update s.it n ⟨start, last⟩ b).start) n ↔ k = n ∨ k ∈ s.objects :=
    fun k => List.mem_orderedInsert _
  have hmiss : ∀ k ∈ s.objects, ¬ (s.it k).Meets start last := by
    simpa [iterFirst, List.find?_eq_none] using hnone
  have hit : ∀ k ∈ s.objects, Function.update s.it n ⟨start, last⟩ k = s.it k := by
    intro k hk
    have hkn : k ≠ n := fun heq => hn (heq ▸ hk)
    rw [Function.update_of_ne hkn]
  refine ⟨bos', ⟨?_, ?_, ?_, ?_, ?_, h.clean⟩, ?_, fun k => ?_⟩
  · exact ((List.perm_orderedInsert _ n s.objects).nodup_iff).mpr (List.nodup_cons.mpr ⟨hn, h.nodup⟩)
  · intro k hk l hl hkl
    simp only [treeInsert] at hk hl ⊢
    rw [hmem] at hk hl
    rcases hk with rfl | hk <;> rcases hl with rfl | hl
    · exact absurd rfl hkl
    · rw [Function.update_self, hit l hl]
      exact fun hmeet => hmiss l hl ⟨hmeet.2, hmeet.1⟩
    · rw [Function.update_self, hit k hk]
      exact hmiss k hk
    · rw [hit k hk, hit l hl]
      exact h.disjoint k hk l hl hkl
  · intro k hk
    rcases (hmem k).mp hk with rfl | hk
    · simp [hnew]
    · rw [hold k hk]
      exact h.nonempty k hk
  · intro k hk c hc
    simp only [treeInsert]
    rcases (hmem k).mp hk with rfl | hk
    · rw [Function.update_self]
      rw [hnew, List.mem_cons] at hc
      rcases hc with rfl | hc
      · rw [Function.update_self]
        exact ⟨hstart, hlast⟩
      · rw [Function.update_of_ne (hnot _ (.inl rfl) c hc)]
        exact htaken c hc
    · rw [hold k hk] at hc
      rw [hit k hk, Function.update_of_ne (hnot _ (.inr (by simpa using hk)) c hc)]
      exact h.contains k hk c hc
  · intro c hc
    simp only [treeInsert] at hc ⊢
    by_cases hcb : c = b
    · rw [hcb, Function.update_self]
      exact hr
    · rw [Function.update_of_ne hcb] at hc ⊢
      exact h.valid c hc
  · have : heads (treeInsert { s with
        mn := Function.update s.mn b true
        it := Function.update s.it n ⟨start, last⟩
        links := ((s.links.init (.node n)).splice .bos (.node n)).add (.bo b) (.node n)
        range := Function.update s.range b r } n) = insert (Addr.node n) s.heads := by
      ext a
      simp only [heads, treeInsert, Set.mem_ofPred_eq, Set.mem_insert_iff, hmem]
      constructor
      · rintro ⟨k, rfl | hk, rfl⟩
        · exact .inl rfl
        · exact .inr ⟨k, hk, rfl⟩
      · rintro (rfl | ⟨k, hk, rfl⟩)
        · exact ⟨n, .inl rfl, rfl⟩
        · exact ⟨k, .inr hk, rfl⟩
    rw [this]
    exact h₂
  · simp only [treeInsert, hmem, hnodes k]
    exact or_comm

theorem Inv.register (h : s.Inv bos) {addr size : ℕ} {newNode : Option ℕ} (hb : s.mn b = false)
    (hsize : 0 < size) (hnew : ∀ m, newNode = some m → m ∉ s.nodes) :
    ∃ bos', (s.register b addr size newNode).Inv bos' := by
  cases newNode with
  | none => exact ⟨bos, h⟩
  | some m =>
    have h₀ : Merging _ _ m none addr (addr + size - 1) := h.merging (hnew m rfl)
    obtain ⟨s₁, bos₁, node, start, last, hrun, hm, hnone, hstart, hlast, hmn, hrange⟩ :=
      merge_spec h₀ le_rfl
    obtain ⟨htree, hheld, hout, hnodes, hobj, hit, hmn', hrange'⟩ := hm.choose
    simp only [Registry.register]
    rw [hrun]
    refine htree.attach hheld hout hnodes ?_ ?_ ?_ ?_ hstart hlast
    · rw [hrange']
      exact hm.taken
    · simpa [iterFirst, hobj, hit] using hnone
    · rw [hmn', hmn]
      exact hb
    · simp only
      omega

/-- A BO is out of its list and others are left in it. -/
theorem Inv.remove (h : s.Inv bos) {xs ys : List ℕ} (hn : n ∈ s.objects)
    (hbos : bos (.node n) = xs ++ b :: ys) (hmore : xs ++ ys ≠ []) :
    Inv { s with mn := Function.update s.mn b false, links := s.links.delInit (.bo b) }
      (Function.update bos (.node n) (xs ++ ys)) := by
  have hsub : ∀ k, ∀ c ∈ Function.update bos (.node n) (xs ++ ys) (.node k), c ∈ bos (.node k) := by
    intro k c hc
    by_cases hkn : k = n
    · subst hkn
      rw [Function.update_self] at hc
      rw [hbos]
      simp only [List.mem_append, List.mem_cons] at hc ⊢
      exact hc.imp_right .inr
    · rwa [Function.update_of_ne (by simpa using hkn)] at hc
  refine ⟨⟨h.tree.nodup, h.tree.disjoint, fun k hk => ?_, fun k hk c hc => ?_, fun c hc => ?_,
    h.tree.clean⟩, h.held.delInit (by simpa using hn) hbos, h.nodes⟩
  · by_cases hkn : k = n
    · rw [hkn, Function.update_self]
      exact hmore
    · rw [Function.update_of_ne (by simpa using hkn)]
      exact h.tree.nonempty k hk
  · exact h.tree.contains k hk c (hsub k c hc)
  · by_cases hcb : c = b
    · simp [hcb] at hc
    · exact h.tree.valid c (by simpa [hcb] using hc)

/-- The only BO of a node leaves, and the node is freed. -/
theorem Inv.removeNode (h : s.Inv bos) (hn : n ∈ s.objects) (hbos : bos (.node n) = [b]) :
    Inv (kfree { s with
      mn := Function.update s.mn b false
      links := s.links.delInit (.bo b)
      objects := s.objects.erase n } n) (Function.update bos (.node n) []) := by
  have hsub : ∀ k, k ∈ s.objects.erase n ↔ k ≠ n ∧ k ∈ s.objects :=
    fun k => h.tree.nodup.mem_erase_iff
  have hold : ∀ k, k ≠ n → Function.update bos (.node n) [] (.node k) = bos (.node k) :=
    fun k hk => Function.update_of_ne (by simpa using hk) _ _
  have hsplit : bos (.node n) = [] ++ b :: [] := hbos
  have hheld := (h.held.delInit (by simpa using hn) hsplit).drop (a := .node n) (by simp)
  have hheads : s.heads \ {Addr.node n} = heads (kfree { s with
      mn := Function.update s.mn b false
      links := s.links.delInit (.bo b)
      objects := s.objects.erase n } n) := by
    ext a
    simp only [heads, kfree, Set.mem_sdiff, Set.mem_ofPred_eq, Set.mem_singleton_iff, hsub]
    constructor
    · rintro ⟨⟨k, hk, rfl⟩, hne⟩
      exact ⟨k, ⟨by simpa using hne, hk⟩, rfl⟩
    · rintro ⟨k, ⟨hkn, hk⟩, rfl⟩
      exact ⟨⟨k, hk, rfl⟩, by simpa using hkn⟩
  refine ⟨⟨h.tree.nodup.erase n, fun k hk l hl => ?_, fun k hk => ?_, fun k hk => ?_, fun c hc => ?_,
    h.tree.clean, (h.nodes n).mpr hn, fun hmem => ((hsub n).mp hmem).1 rfl, fun c hc => ?_⟩, ?_,
    fun k => ?_⟩
  · exact h.tree.disjoint k ((hsub k).mp hk).2 l ((hsub l).mp hl).2
  · obtain ⟨hkn, hk⟩ := (hsub k).mp hk
    rw [hold k hkn]
    exact h.tree.nonempty k hk
  · obtain ⟨hkn, hk⟩ := (hsub k).mp hk
    rw [hold k hkn]
    exact h.tree.contains k hk
  · by_cases hcb : c = b
    · simp [hcb, kfree] at hc
    · exact h.tree.valid c (by simpa [hcb, kfree] using hc)
  · exact hheld.pointers hc (by simp) (by simp)
  · rw [← hheads]
    exact hheld
  · simp only [kfree, Finset.mem_erase, h.nodes k, hsub]

theorem Inv.unregister (h : s.Inv bos) : ∃ s' bos', s.unregister b = some s' ∧ s'.Inv bos' := by
  by_cases hb : s.mn b = false
  · exact ⟨s, bos, by simp [Registry.unregister, hb], h⟩
  obtain ⟨_, ⟨n, hn, rfl⟩, hin⟩ := (h.held.listed b).mp (by simpa using hb)
  obtain ⟨xs, ys, hbos⟩ := List.append_of_mem hin
  have hmem : Addr.node n ∈ s.heads := by simpa using hn
  have hc := h.held.circle _ hmem
  have hc' := (h.held.delInit hmem hbos).circle _ hmem
  rw [Function.update_self] at hc'
  rw [hbos, List.map_append, List.map_cons] at hc
  have hnext := hc.2.next_eq_of_append
  cases ys with
  | cons c ys =>
    -- The next entry is another BO, which is in a list.
    have hempty : (s.links.delInit (.bo b)).empty (.bo c) = false := by
      have := hc'.next_ne (x := .bo c) (by simp)
      simpa [Links.empty] using this
    refine ⟨_, _, ?_, h.remove hn hbos (by simp)⟩
    simp only [Registry.unregister, hb, hnext, List.map_cons, List.cons_append,
      List.head_cons, hempty]
    rfl
  | nil =>
    have hempty := hc'.empty_iff
    simp only [List.append_nil, List.map_eq_nil_iff] at hempty
    by_cases hxs : xs = []
    · subst hxs
      refine ⟨_, _, ?_, h.removeNode hn hbos⟩
      simp only [Registry.unregister, hb, hnext, List.map_nil, List.nil_append,
        List.head_cons, hempty.mpr rfl, if_true, hn]
      rfl
    · refine ⟨_, _, ?_, h.remove hn hbos (by simpa using hxs)⟩
      have hfalse : (s.links.delInit (.bo b)).empty (.node n) = false := by
        rw [← Bool.not_eq_true, hempty]
        exact hxs
      simp only [Registry.unregister, hb, hnext, List.map_nil, List.nil_append,
        List.head_cons, hfalse]
      rfl

theorem Inv.listed (h : s.Inv bos) (hn : n ∈ s.objects) {fuel : ℕ}
    (hfuel : (bos (.node n)).length < fuel) : s.listed fuel n = some (bos (.node n)) := by
  have hc := h.held.circle (.node n) (by simpa using hn)
  rw [Registry.listed, hc.entries (by simpa using hfuel)]
  exact mapM_bo _

/-- The BOs of all nodes that meet the interval are visited, and no BO twice. -/
theorem Inv.invalidated (h : s.Inv bos) (start last : ℕ) :
    ∃ called, (∃ fuel₀, ∀ fuel, fuel₀ ≤ fuel → s.invalidated fuel start last = some called) ∧
      ∀ b, s.mn b = true → (s.range b).Meets start last → called.count b = 1 := by
  have hlists : ∀ l : List ℕ, (∀ n ∈ l, n ∈ s.objects) → ∃ fuel₀, ∀ fuel, fuel₀ ≤ fuel →
      l.mapM (s.listed fuel) = some (l.map fun n => bos (.node n)) := by
    intro l hl
    induction l with
    | nil => exact ⟨0, fun _ _ => rfl⟩
    | cons n l ih =>
      obtain ⟨fuel₀, hfuel₀⟩ := ih fun k hk => hl k (by simp [hk])
      refine ⟨fuel₀ + (bos (.node n)).length + 1, fun fuel hfuel => ?_⟩
      rw [List.mapM_cons, h.listed (hl n (by simp)) (by omega), hfuel₀ fuel (by omega)]
      rfl
  generalize hmeet : s.objects.filter (fun n => (s.it n).Meets start last) = met
  have hsub : ∀ n ∈ met, n ∈ s.objects := fun n hn => by
    rw [← hmeet] at hn
    exact List.mem_of_mem_filter hn
  refine ⟨met.flatMap fun n => bos (.node n), ?_, fun b hb hmeets => ?_⟩
  · obtain ⟨fuel₀, hfuel₀⟩ := hlists met hsub
    refine ⟨fuel₀, fun fuel hfuel => ?_⟩
    rw [Registry.invalidated, hmeet, hfuel₀ fuel hfuel]
    simp [List.flatMap_def]
  · obtain ⟨_, ⟨n, hn, rfl⟩, hin⟩ := (h.held.listed b).mp hb
    have hcont := h.tree.contains n hn b hin
    have hnmet : n ∈ met := by
      rw [← hmeet, List.mem_filter, decide_eq_true_eq]
      exact ⟨hn, hcont.1.trans hmeets.1, hmeets.2.trans hcont.2⟩
    refine List.count_eq_one_of_mem ?_ (List.mem_flatMap.mpr ⟨n, hnmet, hin⟩)
    refine List.nodup_flatMap.mpr ⟨fun k hk => ?_, ?_⟩
    · have := (h.held.circle (.node k) (by simpa using hsub k hk)).1
      exact (List.nodup_cons.mp this).2.of_map
    · have hnodup : met.Nodup := hmeet ▸ h.tree.nodup.filter _
      refine hnodup.imp_of_mem fun {k l} hk hl hkl => ?_
      intro c hc hc'
      have := h.held.unique (.node k) (by simpa using hsub k hk) (.node l) (by simpa using hsub l hl)
        c hc hc'
      exact hkl (by simpa using this)

theorem listed_mono {xs : List ℕ} {fuel fuel' : ℕ} (hs : s.listed fuel n = some xs)
    (hle : fuel ≤ fuel') : s.listed fuel' n = some xs := by
  obtain ⟨entries, hentries, hs⟩ := Option.bind_eq_some_iff.mp hs
  rw [Registry.listed, Links.entries_mono hentries hle]
  exact hs

theorem invalidated_mono {called : List ℕ} {fuel fuel' : ℕ}
    (hs : s.invalidated fuel start last = some called) (hle : fuel ≤ fuel') :
    s.invalidated fuel' start last = some called := by
  have hmono : ∀ (l : List ℕ) (ys : List (List ℕ)), l.mapM (s.listed fuel) = some ys →
      l.mapM (s.listed fuel') = some ys := by
    intro l
    induction l with
    | nil => exact fun _ h => h
    | cons n l ih =>
      intro ys hys
      rw [List.mapM_cons] at hys ⊢
      obtain ⟨xs, hxs, hys⟩ := Option.bind_eq_some_iff.mp hys
      obtain ⟨rest, hrest, hys⟩ := Option.bind_eq_some_iff.mp hys
      rw [listed_mono hxs hle, ih rest hrest]
      exact hys
  obtain ⟨lists, hlists, hs⟩ := Option.bind_eq_some_iff.mp hs
  rw [Registry.invalidated, hmono _ _ hlists]
  exact hs

/-- Whatever the fuel, a walk that comes to its end has visited every BO that it should, once. -/
theorem Inv.count_invalidated (h : s.Inv bos) {called : List ℕ} {fuel : ℕ}
    (hs : s.invalidated fuel start last = some called) (hb : s.mn b = true)
    (hmeets : (s.range b).Meets start last) : called.count b = 1 := by
  obtain ⟨called', ⟨fuel₀, hfuel₀⟩, hcount⟩ := h.invalidated start last
  have heq := (invalidated_mono hs (le_max_left fuel fuel₀)).symm.trans
    (hfuel₀ _ (le_max_right fuel fuel₀))
  cases heq
  exact hcount b hb hmeets

end Registry

end Gsgpu.Mn
