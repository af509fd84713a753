import Gsgpu.Chash.Find
import Mathlib.Data.Set.Card

/-! A hash table is a finite map, over all sequences of operations with keys that fit into it. -/
namespace Gsgpu.Chash

open Cyclic

variable {V : Type} {H : Hashes} {t t' : Table V}

namespace Table

/-- The table holds the entries of a map. -/
def Represents (t : Table V) (f : ℕ → Option V) : Prop := ∀ key v, t.Holds key v ↔ f key = some v

theorem Represents.none_iff {f : ℕ → Option V} (h : t.Represents f) {key : ℕ} :
    f key = none ↔ ∀ x < t.size, t.valid x = true → t.keys x ≠ key := by
  constructor
  · intro hnone x hx hv hkey
    have := (h key (t.values x)).mp ⟨x, hx, hv, hkey, rfl⟩
    rw [hnone] at this
    cases this
  · intro habsent
    cases hf : f key with
    | none => rfl
    | some v =>
      obtain ⟨x, hx, hv, hkey, -⟩ := (h key v).mpr hf
      exact (habsent x hx hv hkey).elim

theorem Same.represents {f : ℕ → Option V} (h : Same t t') (hf : t.Represents f) :
    t'.Represents f :=
  fun key v => (h.holds key v).trans (hf key v)

/-- A key that fits into the slots for keys. -/
def Fits (t : Table V) (key : ℕ) : Prop := t.storedKey key = key

/-- Replacing the value of an entry. -/
theorem Inv.setValue (h : t.Inv H) {f : ℕ → Option V} (hf : t.Represents f) {s key : ℕ}
    (hs : s < t.size) (hv : t.valid s = true) (hkey : t.keys s = key) (v : V) :
    Inv H { t with values := Function.update t.values s v } ∧
      Represents { t with values := Function.update t.values s v }
        (Function.update f key (some v)) := by
  refine ⟨⟨⟨h.sized.six_le, h.sized.lt⟩, h.occup, h.way, h.unique⟩, fun k w => ?_⟩
  by_cases hk : k = key
  · subst hk
    rw [Function.update_self, Option.some.injEq]
    constructor
    · rintro ⟨x, hx, hxv, hxk, hxw⟩
      obtain rfl := h.unique x hx s hs hxv hv (hxk.trans hkey.symm)
      rw [← hxw]
      exact (Function.update_self x v t.values).symm
    · rintro rfl
      exact ⟨s, hs, hv, hkey, Function.update_self s v t.values⟩
  · rw [Function.update_of_ne hk, ← hf k w]
    have hne : ∀ x, t.keys x = k → x ≠ s := by
      rintro x hx rfl
      exact hk (hx.symm.trans hkey)
    constructor
    · rintro ⟨x, hx, hxv, hxk, hxw⟩
      exact ⟨x, hx, hxv, hxk, (Function.update_of_ne (hne x hxk) v t.values).symm.trans hxw⟩
    · rintro ⟨x, hx, hxv, hxk, hxw⟩
      exact ⟨x, hx, hxv, hxk, (Function.update_of_ne (hne x hxk) v t.values).trans hxw⟩

/-- A new entry, in a free slot that the key leads to. -/
theorem Inv.insert (h : t.Inv H) {f : ℕ → Option V} (hf : t.Represents f) {it : Iter} {key : ℕ}
    (hsync : it.Synced) (hs : it.slot < t.size) (hfree : t.valid it.slot = false)
    (hway : ∀ x < t.size, t.OnWay (t.hash H key) it.slot x → t.occup x = true)
    (habsent : ∀ x < t.size, t.valid x = true → t.keys x ≠ key) (v : V) :
    Inv H { t.setValid it with
      keys := Function.update t.keys it.slot key
      values := Function.update t.values it.slot v } ∧
    Represents { t.setValid it with
      keys := Function.update t.keys it.slot key
      values := Function.update t.values it.slot v } (Function.update f key (some v)) := by
  generalize ht' : ({ t.setValid it with
    keys := Function.update t.keys it.slot key
    values := Function.update t.values it.slot v } : Table V) = t'
  have hbits : t'.bits = t.bits := by rw [← ht']; rfl
  have hsize : t'.size = t.size := by rw [size, size, hbits]
  have hhash : ∀ k, t'.hash H k = t.hash H k := by
    intro k
    rw [← ht']
    rfl
  have hvalid : ∀ x, t'.valid x = (decide (x = it.slot) || t.valid x) := by
    intro x
    rw [← ht']
    exact valid_setValid hsync x
  have hoccup : ∀ x, t'.occup x = (decide (x = it.slot) || t.occup x) := by
    intro x
    rw [← ht']
    exact occup_setValid hsync x
  have hkeys : t'.keys = Function.update t.keys it.slot key := by rw [← ht']
  have hvalues : t'.values = Function.update t.values it.slot v := by rw [← ht']
  have hself : t'.keys it.slot = key := by rw [hkeys, Function.update_self]
  have hother : ∀ x, x ≠ it.slot → t'.keys x = t.keys x := by
    intro x hx
    rw [hkeys, Function.update_of_ne hx]
  have hcases : ∀ x, t'.valid x = true → x = it.slot ∨ x ≠ it.slot ∧ t.valid x = true := by
    intro x hx
    by_cases hxs : x = it.slot
    · exact .inl hxs
    · rw [hvalid, decide_eq_false hxs, Bool.false_or] at hx
      exact .inr ⟨hxs, hx⟩
  refine ⟨⟨⟨hbits ▸ h.sized.six_le, hbits ▸ h.sized.lt⟩, ?_, ?_, ?_⟩, ?_⟩
  · intro x hx hv
    rw [hsize] at hx
    rcases hcases x hv with rfl | ⟨-, hv'⟩
    · simp [hoccup]
    · rw [hoccup, h.occup x hx hv', Bool.or_true]
  · intro s hs' hv x hx hon
    rw [hsize] at hs' hx
    rw [OnWay, hsize, home, hhash] at hon
    rw [hoccup, Bool.or_eq_true]
    right
    rcases hcases s hv with rfl | ⟨hne, hv'⟩
    · rw [hself] at hon
      exact hway x hx hon
    · rw [hother s hne] at hon
      exact h.way s hs' hv' x hx hon
  · intro a ha b hb hva hvb hkey
    rw [hsize] at ha hb
    rcases hcases a hva with rfl | ⟨hna, hva'⟩ <;> rcases hcases b hvb with rfl | ⟨hnb, hvb'⟩
    · rfl
    · rw [hself, hother b hnb] at hkey
      exact (habsent b hb hvb' hkey.symm).elim
    · rw [hself, hother a hna] at hkey
      exact (habsent a ha hva' hkey).elim
    · rw [hother a hna, hother b hnb] at hkey
      exact h.unique a ha b hb hva' hvb' hkey
  · intro k w
    by_cases hk : k = key
    · subst hk
      rw [Function.update_self, Option.some.injEq]
      constructor
      · rintro ⟨x, hx, hxv, hxk, hxw⟩
        rw [hsize] at hx
        rcases hcases x hxv with rfl | ⟨hne, hxv'⟩
        · rw [← hxw, hvalues, Function.update_self]
        · rw [hother x hne] at hxk
          exact (habsent x hx hxv' hxk).elim
      · rintro rfl
        refine ⟨it.slot, hsize.symm ▸ hs, by simp [hvalid], hself, ?_⟩
        rw [hvalues, Function.update_self]
    · rw [Function.update_of_ne hk, ← hf k w]
      constructor
      · rintro ⟨x, hx, hxv, hxk, hxw⟩
        rw [hsize] at hx
        rcases hcases x hxv with rfl | ⟨hne, hxv'⟩
        · exact (hk (hxk.symm.trans hself)).elim
        · refine ⟨x, hx, hxv', (hother x hne).symm.trans hxk, ?_⟩
          rw [← hxw, hvalues, Function.update_of_ne hne]
      · rintro ⟨x, hx, hxv, hxk, hxw⟩
        have hne : x ≠ it.slot := by
          rintro rfl
          rw [hfree] at hxv
          cases hxv
        refine ⟨x, hsize.symm ▸ hx, by simp [hvalid, hxv], (hother x hne).trans hxk, ?_⟩
        rw [hvalues, Function.update_of_ne hne, hxw]

/-- Removing an entry leaves a tombstone. -/
theorem Inv.setInvalid (h : t.Inv H) {f : ℕ → Option V} (hf : t.Represents f) {it : Iter} {key : ℕ}
    (hsync : it.Synced) (hs : it.slot < t.size) (hv : t.valid it.slot = true)
    (hkey : t.keys it.slot = key) :
    (t.setInvalid it).Inv H ∧ (t.setInvalid it).Represents (Function.update f key none) := by
  have hvalid := valid_setInvalid (t := t) hsync
  have hcases : ∀ x, (t.setInvalid it).valid x = true ↔ x ≠ it.slot ∧ t.valid x = true := by
    intro x
    rw [hvalid, Bool.and_eq_true]
    simp
  refine ⟨⟨⟨h.sized.six_le, h.sized.lt⟩, ?_, ?_, ?_⟩, ?_⟩
  · intro x hx hxv
    exact h.occup x hx ((hcases x).mp hxv).2
  · intro x hx hxv
    exact h.way x hx ((hcases x).mp hxv).2
  · intro a ha b hb hva hvb
    exact h.unique a ha b hb ((hcases a).mp hva).2 ((hcases b).mp hvb).2
  · intro k w
    by_cases hk : k = key
    · subst hk
      rw [Function.update_self]
      constructor
      · rintro ⟨x, hx, hxv, hxk, -⟩
        obtain ⟨hne, hxv'⟩ := (hcases x).mp hxv
        exact (hne (h.unique x hx _ hs hxv' hv (hxk.trans hkey.symm))).elim
      · exact nofun
    · rw [Function.update_of_ne hk, ← hf k w]
      constructor
      · rintro ⟨x, hx, hxv, hrest⟩
        exact ⟨x, hx, ((hcases x).mp hxv).2, hrest⟩
      · rintro ⟨x, hx, hxv, hxk, hxw⟩
        refine ⟨x, hx, (hcases x).mpr ⟨?_, hxv⟩, hxk, hxw⟩
        rintro rfl
        exact hk (hxk.symm.trans hkey)

end Table

/-- The operations on a table; a NULL value is `none`. -/
inductive Op (V : Type)
  | copyIn (key : ℕ) (value : Option V)
  | copyOut (key : ℕ)
  | remove (key : ℕ)

def Op.key : Op V → ℕ
  | .copyIn key _ | .copyOut key | .remove key => key

inductive Result (V : Type)
  | wrote (r : Except Errno ℕ)
  | read (r : Except Errno (ℕ × V))

/-- The keys that a map has. -/
def live (f : ℕ → Option V) : Set ℕ := {key | f key ≠ none}

/-- Looking up a key in a map. Which slot a table has it in is not for the map to say. -/
def MapRead (f : ℕ → Option V) (key : ℕ) (r : Except Errno (ℕ × V)) : Prop :=
  match f key with
  | some v => ∃ slot, r = .ok (slot, v)
  | none => r = .error .einval

/-- The operations on a map with room for `size` keys. An entry that is added with a NULL value has
any value. -/
def MapStep (size : ℕ) (f : ℕ → Option V) : Op V → Result V → (ℕ → Option V) → Prop
  | .copyIn key value, .wrote r, f' =>
    match f key with
    | some v => r = .ok 1 ∧ f' = Function.update f key (some (value.getD v))
    | none =>
      (r = .error .enomem ∧ (live f).ncard = size ∧ f' = f) ∨
      (r = .ok 0 ∧ (live f).ncard < size ∧
        ∃ v, (∀ w ∈ value, v = w) ∧ f' = Function.update f key (some v))
  | .copyOut key, .read r, f' => MapRead f key r ∧ f' = f
  | .remove key, .read r, f' => MapRead f key r ∧ f' = Function.update f key none
  | _, _, _ => False

namespace Table

def step (H : Hashes) (t : Table V) : Op V → Option (Result V × Table V)
  | .copyIn key value => (t.copyIn H key value).map fun p => (.wrote p.1, p.2)
  | .copyOut key => (t.copyOut H key false).map fun p => (.read p.1, p.2)
  | .remove key => (t.copyOut H key true).map fun p => (.read p.1, p.2)

/-- What a sequence of operations returns, and the table after each. -/
def trace (H : Hashes) : Table V → List (Op V) → Option (List (Result V × Table V))
  | _, [] => some []
  | t, op :: ops => do
    let (r, t) ← t.step H op
    let rest ← trace H t ops
    some ((r, t) :: rest)

/-- A slot that is returned has the key. -/
def AtSlot (t : Table V) (op : Op V) : Result V → Prop
  | .read (.ok (slot, _)) => slot < t.size ∧ t.keys slot = op.key
  | _ => True

/-- An operation on a table that holds `f` has returned `r` and left `t'`. -/
structure Refines (H : Hashes) (t : Table V) (f : ℕ → Option V) (op : Op V) (r : Result V)
    (t' : Table V) : Prop where
  bits : t'.bits = t.bits
  keySize : t'.keySize = t.keySize
  inv : t'.Inv H
  slot : t'.AtSlot op r
  map : ∃ f', t'.Represents f' ∧ MapStep t.size f op r f'

section Operations

variable {f : ℕ → Option V} {key : ℕ}

/-- The valid slots are as many as the keys. -/
theorem Inv.live_ncard (h : t.Inv H) (hf : t.Represents f) :
    (live f).ncard = ((Finset.range t.size).filter fun s => t.valid s = true).card := by
  have himage : live f =
      (((Finset.range t.size).filter fun s => t.valid s = true).image t.keys : Finset ℕ) := by
    ext key
    simp only [live, Set.mem_ofPred_eq, Finset.coe_image, Set.mem_image, Finset.mem_coe,
      Finset.mem_filter, Finset.mem_range, Ne, hf.none_iff]
    push Not
    exact ⟨fun ⟨x, hx, hv, hk⟩ => ⟨x, ⟨hx, hv⟩, hk⟩, fun ⟨x, ⟨hx, hv⟩, hk⟩ => ⟨x, hx, hv, hk⟩⟩
  rw [himage, Set.ncard_coe_finset, Finset.card_image_of_injOn]
  intro a ha b hb hkey
  simp only [Finset.coe_filter, Finset.mem_range, Set.mem_ofPred_eq] at ha hb
  exact h.unique a ha.1 b hb.1 ha.2 hb.2 hkey

theorem Inv.live_full (h : t.Inv H) (hf : t.Represents f) (hall : ∀ s < t.size, t.valid s = true) :
    (live f).ncard = t.size := by
  rw [h.live_ncard hf, Finset.filter_true_of_mem, Finset.card_range]
  intro s hs
  exact hall s (Finset.mem_range.mp hs)

theorem Inv.live_lt (h : t.Inv H) (hf : t.Represents f) {s : ℕ} (hs : s < t.size)
    (hfree : t.valid s = false) : (live f).ncard < t.size := by
  rw [h.live_ncard hf]
  calc _ < (Finset.range t.size).card := by
        refine Finset.card_lt_card (Finset.filter_ssubset.mpr ⟨s, Finset.mem_range.mpr hs, ?_⟩)
        rw [hfree]
        exact Bool.false_ne_true
    _ = t.size := Finset.card_range _

/-- A slot with the key says what the map has. -/
theorem Represents.of_slot (hf : t.Represents f) {s : ℕ} (hs : s < t.size)
    (hv : t.valid s = true) (hkey : t.keys s = key) : f key = some (t.values s) :=
  (hf key (t.values s)).mp ⟨s, hs, hv, hkey, rfl⟩

/-- `chash_table_copy_in`. -/
theorem Inv.copyIn (h : t.Inv H) (hf : t.Represents f) (hfit : t.Fits key) (value : Option V) :
    ∃ r t', t.step H (.copyIn key value) = some (r, t') ∧ Refines H t f (.copyIn key value) r t' := by
  obtain ⟨found, t₁, hfind, hinv₁, hsame, hspec⟩ := h.find key false
  have hf₁ := hsame.represents hf
  have hsize := hsame.size
  simp only [step, Table.copyIn, hfind, Option.bind_eq_bind, Option.bind_some]
  cases found with
  | found it =>
    obtain ⟨-, hlt, hv, hkey⟩ := hspec
    obtain ⟨hinv₂, hf₂⟩ := hinv₁.setValue hf₁ hlt hv hkey (value.getD (t₁.values it.slot))
    refine ⟨_, _, rfl, hsame.bits, hsame.keySize, hinv₂, trivial, _, hf₂, ?_⟩
    simp only [MapStep, hf₁.of_slot hlt hv hkey, and_self]
  | notFound it =>
    obtain ⟨habsent, hspec⟩ := hspec
    have hnone := hf₁.none_iff.mpr habsent
    cases it with
    | none =>
      refine ⟨_, _, rfl, hsame.bits, hsame.keySize, hinv₁, trivial, _, hf₁, ?_⟩
      simp only [MapStep, hnone, hsize ▸ hinv₁.live_full hf₁ (hspec rfl), and_self, true_or]
    | some it =>
      obtain ⟨hsync, hlt, hfree, hway⟩ := hspec rfl
      have hstored : (t₁.setValid it).storedKey key = key := by
        have hkeySize : (t₁.setValid it).keySize = t.keySize := hsame.keySize
        rw [storedKey, hkeySize]
        exact hfit
      rw [← hsame.hash key] at hway
      obtain ⟨hinv₂, hf₂⟩ := hinv₁.insert hf₁ hsync hlt hfree hway habsent
        (value.getD (t₁.values it.slot))
      simp only [hstored]
      refine ⟨_, _, rfl, hsame.bits, hsame.keySize, hinv₂, trivial, _, hf₂, ?_⟩
      simp only [MapStep, hnone]
      refine .inr ⟨trivial, hsize ▸ hinv₁.live_lt hf₁ hlt hfree, _, ?_, rfl⟩
      intro w hw
      rw [Option.mem_def.mp hw, Option.getD_some]

/-- `chash_table_copy_out` and `chash_table_remove`, up to what becomes of an entry. -/
theorem Inv.copyOut (h : t.Inv H) (hf : t.Represents f) (key : ℕ) (remove : Bool) :
    ∃ r t', t.copyOut H key remove = some (r, t') ∧ t'.bits = t.bits ∧ t'.keySize = t.keySize ∧
      t'.Inv H ∧ (∀ slot v, r = .ok (slot, v) → slot < t'.size ∧ t'.keys slot = key) ∧
      MapRead f key r ∧ t'.Represents (if remove then Function.update f key none else f) := by
  obtain ⟨found, t₁, hfind, hinv₁, hsame, hspec⟩ := h.find key remove
  have hf₁ := hsame.represents hf
  simp only [Table.copyOut, hfind, Option.bind_eq_bind, Option.bind_some]
  cases found with
  | found it =>
    obtain ⟨hsync, hlt, hv, hkey⟩ := hspec
    have hread : MapRead f key (.ok (it.slot, t₁.values it.slot)) := by
      simp only [MapRead, hf₁.of_slot hlt hv hkey]
      exact ⟨_, rfl⟩
    cases remove with
    | false =>
      refine ⟨_, _, rfl, hsame.bits, hsame.keySize, hinv₁, ?_, hread, hf₁⟩
      rintro slot v ⟨⟩
      exact ⟨hlt, hkey⟩
    | true =>
      obtain ⟨hinv₂, hf₂⟩ := hinv₁.setInvalid hf₁ hsync hlt hv hkey
      refine ⟨_, _, rfl, hsame.bits, hsame.keySize, hinv₂, ?_, hread, hf₂⟩
      rintro slot v ⟨⟩
      exact ⟨hlt, hkey⟩
  | notFound it =>
    have hnone := hf₁.none_iff.mpr hspec.1
    refine ⟨_, _, rfl, hsame.bits, hsame.keySize, hinv₁, nofun, ?_, ?_⟩
    · simp only [MapRead, hnone]
    · have hsame' : Function.update f key none = f := by rw [← hnone, Function.update_eq_self]
      cases remove with
      | false => exact hf₁
      | true => exact hsame'.symm ▸ hf₁

/-- Every operation does to the table what it does to the map. -/
theorem Inv.step (h : t.Inv H) (hf : t.Represents f) (op : Op V) (hfit : t.Fits op.key) :
    ∃ r t', t.step H op = some (r, t') ∧ Refines H t f op r t' := by
  cases op with
  | copyIn key value => exact h.copyIn hf hfit value
  | copyOut key =>
    obtain ⟨r, t', hrun, hbits, hkeySize, hinv, hslot, hread, hf'⟩ := h.copyOut hf key false
    refine ⟨.read r, t', by simp [Table.step, hrun], hbits, hkeySize, hinv, ?_, _, hf', hread, rfl⟩
    rcases r with _ | ⟨slot, v⟩
    · trivial
    · exact hslot slot v rfl
  | remove key =>
    obtain ⟨r, t', hrun, hbits, hkeySize, hinv, hslot, hread, hf'⟩ := h.copyOut hf key true
    refine ⟨.read r, t', by simp [Table.step, hrun], hbits, hkeySize, hinv, ?_, _, hf', hread, rfl⟩
    rcases r with _ | ⟨slot, v⟩
    · trivial
    · exact hslot slot v rfl

end Operations

/-- A run of operations that agrees with a map: after each of them the table is well formed and
holds what the map has. -/
inductive Agrees (H : Hashes) : (ℕ → Option V) → List (Op V) → List (Result V × Table V) → Prop
  | nil (f : ℕ → Option V) : Agrees H f [] []
  | cons {f f' : ℕ → Option V} {op : Op V} {ops : List (Op V)} {r : Result V} {t : Table V}
      {rest : List (Result V × Table V)} :
      MapStep t.size f op r f' → t.Inv H → t.Represents f' → t.AtSlot op r →
      Agrees H f' ops rest → Agrees H f (op :: ops) ((r, t) :: rest)

theorem Inv.trace (h : t.Inv H) {f : ℕ → Option V} (hf : t.Represents f) (ops : List (Op V))
    (hfit : ∀ op ∈ ops, t.Fits op.key) : ∃ tr, t.trace H ops = some tr ∧ Agrees H f ops tr := by
  induction ops generalizing t f with
  | nil => exact ⟨[], rfl, .nil f⟩
  | cons op ops ih =>
    obtain ⟨r, t', hstep, href⟩ := h.step hf op (hfit op List.mem_cons_self)
    obtain ⟨f', hf', hmap⟩ := href.map
    have hfit' : ∀ op ∈ ops, t'.Fits op.key := by
      intro o ho
      rw [Fits, storedKey, href.keySize]
      exact hfit o (List.mem_cons_of_mem _ ho)
    obtain ⟨rest, hrest, hagrees⟩ := ih href.inv hf' hfit'
    have hsize : t'.size = t.size := by rw [size, size, href.bits]
    exact ⟨(r, t') :: rest, by simp [Table.trace, hstep, hrest],
      .cons (hsize.symm ▸ hmap) href.inv hf' href.slot hagrees⟩

/-- A fresh table is empty. -/
theorem tableAlloc_inv {bits keySize : ℕ} {zero : V} {allocOk : Bool} (hbits : 6 ≤ bits)
    (halloc : tableAlloc bits keySize zero allocOk = .ok t) :
    t.Inv H ∧ t.Represents fun _ => none := by
  simp only [tableAlloc] at halloc
  split at halloc
  · cases halloc
  · next hle =>
    split at halloc
    · cases halloc
    · split at halloc
      · cases halloc
      · obtain rfl := Except.ok.inj halloc
        have hfree : ∀ s, Table.valid ⟨bits, keySize, fun _ => 0, fun _ => 0, fun _ => 0,
            fun _ => zero⟩ s = false := fun s => BitVec.getLsbD_zero
        have hnot : ∀ s, ¬ Table.valid ⟨bits, keySize, fun _ => 0, fun _ => 0, fun _ => 0,
            fun _ => zero⟩ s = true := fun s => Bool.eq_false_iff.mp (hfree s)
        refine ⟨⟨⟨hbits, Nat.lt_succ_of_le (Nat.le_of_not_lt hle)⟩, fun s _ hv => (hnot s hv).elim,
          fun s _ hv => (hnot s hv).elim, fun s _ _ _ hv => (hnot s hv).elim⟩, fun key v => ?_⟩
        exact ⟨fun ⟨s, _, hv, _⟩ => (hnot s hv).elim, nofun⟩

theorem tableAlloc_keySize {bits keySize : ℕ} {zero : V} {allocOk : Bool}
    (halloc : tableAlloc bits keySize zero allocOk = .ok t) :
    t.keySize = keySize ∧ (keySize = 4 ∨ keySize = 8) := by
  simp only [tableAlloc] at halloc
  split at halloc
  · cases halloc
  · split at halloc
    · cases halloc
    · next hkey =>
      split at halloc
      · cases halloc
      · obtain rfl := Except.ok.inj halloc
        exact ⟨rfl, by omega⟩

theorem fits_of_lt (hsize : t.keySize = 4 ∨ t.keySize = 8) {key : ℕ}
    (hlt : key < 2 ^ (8 * t.keySize)) : t.Fits key := by
  rw [Fits, storedKey]
  rcases hsize with h | h <;> rw [h] at hlt ⊢
  · exact Nat.mod_eq_of_lt hlt
  · exact Nat.mod_eq_of_lt hlt

end Table

open Table in
/-- From a fresh table of at least one word of the bitmaps, every sequence of operations with keys of
the table's key size runs as on a finite map. -/
theorem table_refines_map (H : Hashes) {bits keySize : ℕ} {zero : V} {allocOk : Bool}
    (hbits : 6 ≤ bits) (halloc : tableAlloc bits keySize zero allocOk = .ok t) (ops : List (Op V))
    (hkeys : ∀ op ∈ ops, op.key < 2 ^ (8 * keySize)) :
    ∃ tr, t.trace H ops = some tr ∧ Agrees H (fun _ => none) ops tr := by
  obtain ⟨hinv, hf⟩ := tableAlloc_inv (H := H) hbits halloc
  obtain ⟨hkeySize, hcases⟩ := tableAlloc_keySize halloc
  refine hinv.trace hf ops fun op hop => fits_of_lt (hkeySize ▸ hcases) ?_
  rw [hkeySize]
  exact hkeys op hop

/-- The hashes of the kernel: the upper bits of the product with the golden ratio. -/
def goldenRatio : Hashes where
  hash32 key bits := (key * 0x61C88647 % 2 ^ 32) >>> (32 - bits)
  hash64 key bits := (key * 0x61C8864680B583EB % 2 ^ 64) >>> (64 - bits)
  hash32_lt key bits hbits := by
    rw [Nat.shiftRight_eq_div_pow, Nat.div_lt_iff_lt_mul (Nat.two_pow_pos _), ← Nat.pow_add,
      Nat.add_sub_cancel' hbits.le]
    exact Nat.mod_lt _ (Nat.two_pow_pos _)
  hash64_lt key bits hbits := by
    rw [Nat.shiftRight_eq_div_pow, Nat.div_lt_iff_lt_mul (Nat.two_pow_pos _), ← Nat.pow_add,
      Nat.add_sub_cancel' (by omega)]
    exact Nat.mod_lt _ (Nat.two_pow_pos _)

/-- A fresh table of 64 slots. -/
def fresh (keySize : ℕ) : Table ℕ := ⟨6, keySize, fun _ => 0, fun _ => 0, fun _ => 0, fun _ => 0⟩

theorem table_refines_map_page_faults : tableAlloc 6 8 0 true = .ok (fresh 8) ∧ ∃ tr,
    (fresh 8).trace goldenRatio [.copyIn (2 ^ 40) none, .copyIn 7 (some 3), .remove (2 ^ 40)] =
      some tr ∧ Table.Agrees goldenRatio (fun _ => none)
        [.copyIn (2 ^ 40) none, .copyIn 7 (some 3), .remove (2 ^ 40)] tr := by
  have halloc : tableAlloc 6 8 0 true = .ok (fresh 8) := rfl
  exact ⟨halloc, table_refines_map goldenRatio (by decide) halloc _ (by decide)⟩

/-- With keys of 4 bytes a longer key is cut when it is stored and not when it is compared, so the
entry is never found. -/
theorem table_loses_long_key : tableAlloc 6 4 0 true = .ok (fresh 4) ∧ ∃ tr,
    (fresh 4).trace goldenRatio [.copyIn (2 ^ 32) (some 1), .copyOut (2 ^ 32)] = some tr ∧
      ¬ Table.Agrees goldenRatio (fun _ => none) [.copyIn (2 ^ 32) (some 1), .copyOut (2 ^ 32)] tr := by
  obtain ⟨t₁, t₂, htrace⟩ : ∃ t₁ t₂,
      (fresh 4).trace goldenRatio [.copyIn (2 ^ 32) (some 1), .copyOut (2 ^ 32)] =
        some [(.wrote (.ok 0), t₁), (.read (.error .einval), t₂)] := ⟨_, _, rfl⟩
  refine ⟨rfl, _, htrace, ?_⟩
  rintro (_ | ⟨hin, -, -, -, _ | ⟨hout, -, -, -, -⟩⟩)
  obtain ⟨h, -⟩ | ⟨-, -, v, -, rfl⟩ := hin
  · cases h
  · simp [MapStep, MapRead] at hout

end Gsgpu.Chash
