import Gsgpu.Basic
import Gsgpu.Lib.Intrusive
import Mathlib.Data.Finset.Card
import Mathlib.Data.List.Sort

/-! The registry of userptr BOs of one process: nodes of an interval tree, each with the list of
the BOs in its range. Registering a BO merges all nodes that it meets; unregistering one finds its
node from the next entry of the list. -/
namespace Gsgpu.Mn

open Intrusive

/-- An interval of addresses, both ends included. -/
structure Range where
  start : ℕ
  last : ℕ
deriving DecidableEq

def Range.Meets (r : Range) (start last : ℕ) : Prop := r.start ≤ last ∧ start ≤ r.last

instance (r : Range) (start last : ℕ) : Decidable (r.Meets start last) :=
  inferInstanceAs (Decidable (_ ∧ _))

/-- The list heads: `bos` of a node, `mn_list` of a BO, and `bos` on the stack of
`gsgpu_mn_register`. -/
inductive Addr
  | node (n : ℕ)
  | bo (b : ℕ)
  | bos
deriving DecidableEq

/-- `struct gsgpu_mn` with its nodes and BOs; the interval tree is the nodes in the order of their
ranges, and `mn` tells that `bo->mn` is set. Remembered here only: the range of a registered BO,
and whether all nodes were freed as they should be. -/
structure Registry where
  links : Links Addr
  it : ℕ → Range
  objects : List ℕ
  nodes : Finset ℕ
  mn : ℕ → Bool
  range : ℕ → Range
  clean : Prop

namespace Registry

/-- `kfree` of a node, which should be out of the tree, with no BO in its list. -/
def kfree (s : Registry) (n : ℕ) : Registry :=
  { s with
    nodes := s.nodes.erase n
    clean := s.clean ∧ n ∈ s.nodes ∧ n ∉ s.objects ∧
      ∀ b, s.mn b = true → s.links.next (.bo b) ≠ .node n ∧ s.links.prev (.bo b) ≠ .node n }

/-- `interval_tree_iter_first`. -/
def iterFirst (s : Registry) (start last : ℕ) : Option ℕ :=
  s.objects.find? fun n => (s.it n).Meets start last

/-- `interval_tree_insert`. -/
def treeInsert (s : Registry) (n : ℕ) : Registry :=
  { s with objects := s.objects.orderedInsert (fun a b => (s.it a).start < (s.it b).start) n }

/-- The loop of `gsgpu_mn_register`, with its variables `node`, `addr` and `end`. It removes a node
in every round. -/
def merge : ℕ → Registry → Option ℕ → ℕ → ℕ → Registry × Option ℕ × ℕ × ℕ
  | 0, s, node, addr, last => (s, node, addr, last)
  | fuel + 1, s, node, addr, last =>
    match s.iterFirst addr last with
    | none => (s, node, addr, last)
    | some n =>
      let s := node.elim s s.kfree
      let s := { s with
        objects := s.objects.erase n
        links := s.links.splice (.node n) .bos }
      merge fuel s (some n) (min (s.it n).start addr) (max (s.it n).last last)

/-- `gsgpu_mn_register`; `newNode` is none if there is no notifier or no memory. -/
def register (s : Registry) (b addr size : ℕ) (newNode : Option ℕ) : Registry :=
  match newNode with
  | none => s
  | some m =>
    let s₀ := { s with nodes := insert m s.nodes, links := s.links.init .bos }
    let (s₁, node, start, last) := merge s₀.objects.length s₀ none addr (addr + size - 1)
    let s₂ := node.elim s₁ fun _ => s₁.kfree m
    let n := node.getD m
    let s₃ := { s₂ with
      mn := Function.update s₂.mn b true
      it := Function.update s₂.it n ⟨start, last⟩
      links := ((s₂.links.init (.node n)).splice .bos (.node n)).add (.bo b) (.node n)
      range := Function.update s₂.range b ⟨addr, addr + size - 1⟩ }
    s₃.treeInsert n

/-- `gsgpu_mn_unregister`; none if what it takes for a node of the tree is not one. -/
def unregister (s : Registry) (b : ℕ) : Option Registry :=
  if s.mn b = false then some s
  else
    let head := s.links.next (.bo b)
    let s := { s with
      mn := Function.update s.mn b false
      links := s.links.delInit (.bo b) }
    if s.links.empty head then
      match head with
      | .node n =>
        if n ∈ s.objects then some ({ s with objects := s.objects.erase n }.kfree n) else none
      | _ => none
    else some s

/-- The BOs of a node as `gsgpu_mn_invalidate_node` goes through them. -/
def listed (s : Registry) (fuel n : ℕ) : Option (List ℕ) := do
  let entries ← s.links.entries (.node n) fuel (s.links.next (.node n))
  entries.mapM fun
    | .bo b => some b
    | _ => none

theorem mapM_bo (l : List ℕ) : (l.map Addr.bo).mapM (fun
    | .bo b => some b
    | _ => none) = some l := by
  induction l with
  | nil => rfl
  | cons b l ih => simp [ih]

/-- The BOs that the loop of `gsgpu_mn_invalidate_range_start_gfx` calls
`gsgpu_ttm_tt_affect_userptr` for. -/
def invalidated (s : Registry) (fuel start last : ℕ) : Option (List ℕ) := do
  let lists ← (s.objects.filter fun n => (s.it n).Meets start last).mapM (s.listed fuel)
  return lists.flatten

end Registry

end Gsgpu.Mn
