import Gsgpu.Chash.Slots
import Gsgpu.Lib.Cyclic

/-! What makes probing work: on the way from the hash of an entry to its slot there is no empty
slot. An entry may move to a tombstone on its way, and a tombstone may be emptied that is on no
entry's way. -/
namespace Gsgpu.Chash

open Cyclic

variable {V : Type} {H : Hashes} {t t' : Table V}

namespace Table

/-- The sizes for which slots and words of the bitmaps wrap together. -/
structure Sized (t : Table V) : Prop where
  six_le : 6 ≤ t.bits
  lt : t.bits < 32

theorem Sized.size_pos (_h : t.Sized) : 0 < t.size := Nat.two_pow_pos _

theorem hash_lt (h : t.Sized) (key : ℕ) : t.hash H key < t.size := by
  rw [hash]
  split
  · exact H.hash32_lt _ _ h.lt
  · exact H.hash64_lt _ _ h.lt

/-- Where the search for the entry of a slot begins. -/
def home (H : Hashes) (t : Table V) (s : ℕ) : ℕ := t.hash H (t.keys s)

/-- Slot `x` is on the way from `h` to slot `s`. -/
def OnWay (t : Table V) (h s x : ℕ) : Prop := dist t.size h x < dist t.size h s

/-- What holds of a table between operations. -/
structure Inv (H : Hashes) (t : Table V) : Prop where
  sized : t.Sized
  occup : ∀ s < t.size, t.valid s = true → t.occup s = true
  way : ∀ s < t.size, t.valid s = true → ∀ x < t.size, t.OnWay (t.home H s) s x → t.occup x = true
  unique : ∀ s < t.size, ∀ s' < t.size, t.valid s = true → t.valid s' = true →
    t.keys s = t.keys s' → s = s'

/-- The entries of a table. -/
def Holds (t : Table V) (key : ℕ) (v : V) : Prop :=
  ∃ s < t.size, t.valid s = true ∧ t.keys s = key ∧ t.values s = v

/-- The same parameters and the same entries. -/
structure Same (t t' : Table V) : Prop where
  bits : t'.bits = t.bits
  keySize : t'.keySize = t.keySize
  holds : ∀ key v, t'.Holds key v ↔ t.Holds key v

theorem Same.refl (t : Table V) : Same t t := ⟨rfl, rfl, fun _ _ => Iff.rfl⟩

theorem Same.trans {t'' : Table V} (h : Same t t') (h' : Same t' t'') : Same t t'' :=
  ⟨h'.bits.trans h.bits, h'.keySize.trans h.keySize,
    fun key v => (h'.holds key v).trans (h.holds key v)⟩

theorem Same.size (h : Same t t') : t'.size = t.size := by rw [Table.size, Table.size, h.bits]

theorem Same.hash (h : Same t t') (key : ℕ) : t'.hash H key = t.hash H key := by
  rw [Table.hash, Table.hash, h.bits, h.keySize]

/-- An entry has moved from `src` to `dst`. -/
structure Moved (t t' : Table V) (dst src : ℕ) : Prop where
  bits : t'.bits = t.bits
  keySize : t'.keySize = t.keySize
  valid : ∀ x, t'.valid x = (!decide (x = src) && (decide (x = dst) || t.valid x))
  occup : ∀ x, t'.occup x = (decide (x = dst) || t.occup x)
  keys : t'.keys = Function.update t.keys dst (t.keys src)
  values : t'.values = Function.update t.values dst (t.values src)

theorem relocate_moved {dst src : Iter} (hdst : dst.Synced) (hsrc : src.Synced)
    (hne : dst.slot ≠ src.slot) :
    ∃ t', t.relocate dst src = some t' ∧ Moved t t' dst.slot src.slot := by
  refine ⟨_, if_neg hne.symm, rfl, rfl, ?_, ?_, rfl, rfl⟩
  · intro x
    rw [valid_setInvalid hsrc, valid_setValid hdst]
    rfl
  · intro x
    rw [occup_setInvalid, occup_setValid hdst]
    rfl

namespace Moved

variable {dst src : ℕ}

theorem size (h : Moved t t' dst src) : t'.size = t.size := by rw [Table.size, Table.size, h.bits]

theorem hash (h : Moved t t' dst src) (key : ℕ) : t'.hash H key = t.hash H key := by
  rw [Table.hash, Table.hash, h.bits, h.keySize]

theorem valid_dst (h : Moved t t' dst src) (hne : dst ≠ src) : t'.valid dst = true := by
  simp [h.valid, hne]

theorem valid_src (h : Moved t t' dst src) : t'.valid src = false := by simp [h.valid]

theorem valid_of_ne (h : Moved t t' dst src) {x : ℕ} (hd : x ≠ dst) (hs : x ≠ src) :
    t'.valid x = t.valid x := by
  simp [h.valid, hd, hs]

/-- An entry after the move is the one that moved or another one. -/
theorem valid_cases (h : Moved t t' dst src) {x : ℕ} (hx : t'.valid x = true) :
    x = dst ∨ x ≠ dst ∧ x ≠ src ∧ t.valid x = true := by
  by_cases hd : x = dst
  · exact .inl hd
  · have := h.valid x
    rw [hx] at this
    simp only [hd, decide_false, Bool.false_or] at this
    have := Bool.and_eq_true_iff.mp this.symm
    exact .inr ⟨hd, by simpa using this.1, this.2⟩

theorem keys_dst (h : Moved t t' dst src) : t'.keys dst = t.keys src := by
  rw [h.keys, Function.update_self]

theorem keys_of_ne (h : Moved t t' dst src) {x : ℕ} (hd : x ≠ dst) : t'.keys x = t.keys x := by
  rw [h.keys, Function.update_of_ne hd]

theorem home_dst (h : Moved t t' dst src) : t'.home H dst = t.home H src := by
  rw [home, home, h.hash, h.keys_dst]

theorem home_of_ne (h : Moved t t' dst src) {x : ℕ} (hd : x ≠ dst) : t'.home H x = t.home H x := by
  rw [home, home, h.hash, h.keys_of_ne hd]

/-- The entries are the same. -/
theorem same (h : Moved t t' dst src) (hsrc : src < t.size) (hdst : dst < t.size)
    (hvalid : t.valid src = true) (hfree : t.valid dst = false) : Same t t' := by
  have hne : dst ≠ src := by
    rintro rfl
    rw [hvalid] at hfree
    cases hfree
  refine ⟨h.bits, h.keySize, fun key v => ⟨?_, ?_⟩⟩
  · rintro ⟨s, hs, hv, hk, hval⟩
    rw [h.size] at hs
    rcases h.valid_cases hv with rfl | ⟨hd, -, hv'⟩
    · refine ⟨src, hsrc, hvalid, h.keys_dst.symm.trans hk, ?_⟩
      rw [← hval, h.values, Function.update_self]
    · refine ⟨s, hs, hv', (h.keys_of_ne hd).symm.trans hk, ?_⟩
      rw [← hval, h.values, Function.update_of_ne hd]
  · rintro ⟨s, hs, hv, hk, hval⟩
    by_cases hsrc' : s = src
    · subst hsrc'
      refine ⟨dst, h.size ▸ hdst, h.valid_dst hne, h.keys_dst.trans hk, ?_⟩
      rw [h.values, Function.update_self, hval]
    · have hd : s ≠ dst := by
        rintro rfl
        rw [hv] at hfree
        cases hfree
      refine ⟨s, h.size ▸ hs, (h.valid_of_ne hd hsrc').trans hv, (h.keys_of_ne hd).trans hk, ?_⟩
      rw [h.values, Function.update_of_ne hd, hval]

/-- Moving an entry to a tombstone on its way keeps every way free of empty slots. -/
theorem inv (h : Moved t t' dst src) (hinv : t.Inv H) (hsrc : src < t.size) (hdst : dst < t.size)
    (hvalid : t.valid src = true) (hfree : t.valid dst = false)
    (hway : t.OnWay (t.home H src) src dst) : t'.Inv H := by
  have hoccup : ∀ x, t.occup x = true → t'.occup x = true := by
    intro x hx
    rw [h.occup, hx, Bool.or_true]
  have hdiff : ∀ s < t.size, s ≠ src → t.valid s = true → t.keys s ≠ t.keys src := by
    intro s hs hne hv hkey
    exact hne (hinv.unique s hs src hsrc hv hvalid hkey)
  refine ⟨⟨h.bits ▸ hinv.sized.six_le, h.bits ▸ hinv.sized.lt⟩, ?_, ?_, ?_⟩
  · intro s hs hv
    rw [h.size] at hs
    rcases h.valid_cases hv with rfl | ⟨-, -, hv'⟩
    · simp [h.occup]
    · exact hoccup s (hinv.occup s hs hv')
  · intro s hs hv x hx hon
    rw [OnWay, h.size] at hon
    rw [h.size] at hs hx
    apply hoccup
    rcases h.valid_cases hv with rfl | ⟨hd, -, hv'⟩
    · rw [h.home_dst] at hon
      exact hinv.way src hsrc hvalid x hx (hon.trans hway)
    · rw [h.home_of_ne hd] at hon
      exact hinv.way s hs hv' x hx hon
  · intro s hs s' hs' hv hv' hkey
    rw [h.size] at hs hs'
    rcases h.valid_cases hv with rfl | ⟨hd, hne, hv⟩ <;>
      rcases h.valid_cases hv' with rfl | ⟨hd', hne', hv'⟩
    · rfl
    · rw [h.keys_dst, h.keys_of_ne hd'] at hkey
      exact (hdiff s' hs' hne' hv' hkey.symm).elim
    · rw [h.keys_dst, h.keys_of_ne hd] at hkey
      exact (hdiff s hs hne hv hkey).elim
    · rw [h.keys_of_ne hd, h.keys_of_ne hd'] at hkey
      exact hinv.unique s hs s' hs' hv hv' hkey

end Moved

section Walks

-- `base` is a slot that distances are counted from
variable {base : ℕ} {it : Iter}

theorem inc_dist (hbase : base < t.size) (hslot : it.slot < t.size)
    (hlt : dist t.size base it.slot + 1 < t.size) :
    dist t.size base (t.inc it).slot = dist t.size base it.slot + 1 := by
  rw [inc_slot, dist_succ hbase hslot, if_neg hlt.ne]

theorem inc_lt (hsized : t.Sized) : (t.inc it).slot < t.size := by
  rw [inc_slot]
  exact Nat.mod_lt _ hsized.size_pos

/-- Advancing past valid slots ends at the first one that is not. -/
theorem skipValid_spec (hsized : t.Sized) (hbase : base < t.size) {n : ℕ} (hsync : it.Synced)
    (hslot : it.slot < t.size) {e : ℕ} (he : e < t.size) (hfree : t.valid e = false)
    (hle : dist t.size base it.slot ≤ dist t.size base e)
    (hfuel : dist t.size base e < dist t.size base it.slot + n) :
    ∃ it', t.skipValid n it = some it' ∧ it'.Synced ∧ it'.slot < t.size ∧
      t.valid it'.slot = false ∧ dist t.size base it.slot ≤ dist t.size base it'.slot ∧
      dist t.size base it'.slot ≤ dist t.size base e ∧
      ∀ y < t.size, dist t.size base it.slot ≤ dist t.size base y →
        dist t.size base y < dist t.size base it'.slot → t.valid y = true := by
  induction n generalizing it with
  | zero => omega
  | succ n ih =>
    rw [skipValid, isValid_eq hsync]
    cases hv : t.valid it.slot with
    | false =>
      refine ⟨it, rfl, hsync, hslot, hv, le_rfl, hle, ?_⟩
      intro y _ h₁ h₂
      omega
    | true =>
      have hne : dist t.size base it.slot ≠ dist t.size base e := by
        rw [Ne, dist_inj hbase hslot he]
        rintro rfl
        rw [hv] at hfree
        cases hfree
      have hinc := inc_dist hbase hslot
        (by have := dist_lt (a := base) (b := e) hsized.size_pos; omega)
      obtain ⟨it', hskip, hsync', hslot', hfree', hle', hle'', hbetween⟩ :=
        ih (hsync.inc hsized.six_le) (inc_lt hsized) (by omega) (by omega)
      refine ⟨it', hskip, hsync', hslot', hfree', by omega, hle'', ?_⟩
      intro y hy h₁ h₂
      rcases h₁.eq_or_lt with heq | hlt
      · obtain rfl := (dist_inj hbase hslot hy).mp heq
        exact hv
      · exact hbetween y hy (by omega) h₂

/-- Looking for a free slot ends at the first one, or where it has to stop. -/
theorem skipValidTo_spec (hsized : t.Sized) (hbase : base < t.size) {n : ℕ} (hsync : it.Synced)
    (hslot : it.slot < t.size) {stop : ℕ} (hstop : stop < t.size)
    (hle : dist t.size base it.slot ≤ dist t.size base stop)
    (hfuel : dist t.size base stop < dist t.size base it.slot + n) :
    ∃ it', t.skipValidTo stop n it = some it' ∧ it'.Synced ∧ it'.slot < t.size ∧
      (it'.slot = stop ∨ t.valid it'.slot = false) ∧
      dist t.size base it.slot ≤ dist t.size base it'.slot ∧
      dist t.size base it'.slot ≤ dist t.size base stop ∧
      ∀ y < t.size, dist t.size base it.slot ≤ dist t.size base y →
        dist t.size base y < dist t.size base it'.slot → t.valid y = true := by
  induction n generalizing it with
  | zero => omega
  | succ n ih =>
    rw [skipValidTo, isValid_eq hsync]
    split
    · next hgo =>
      obtain ⟨hne, hv⟩ := hgo
      have hne' : dist t.size base it.slot ≠ dist t.size base stop := by
        rwa [Ne, dist_inj hbase hslot hstop]
      have hinc := inc_dist hbase hslot
        (by have := dist_lt (a := base) (b := stop) hsized.size_pos; omega)
      obtain ⟨it', hskip, hsync', hslot', hend, hle', hle'', hbetween⟩ :=
        ih (hsync.inc hsized.six_le) (inc_lt hsized) (by omega) (by omega)
      refine ⟨it', hskip, hsync', hslot', hend, by omega, hle'', ?_⟩
      intro y hy h₁ h₂
      rcases h₁.eq_or_lt with heq | hlt
      · obtain rfl := (dist_inj hbase hslot hy).mp heq
        exact hv
      · exact hbetween y hy (by omega) h₂
    · next hend =>
      refine ⟨it, rfl, hsync, hslot, ?_, le_rfl, hle, ?_⟩
      · by_cases heq : it.slot = stop
        · exact .inl heq
        · exact .inr (by simpa using not_and.mp hend heq)
      · intro y _ h₁ h₂
        omega

/-- Some tombstones have been emptied. -/
structure Cleaned (t t' : Table V) (gone : ℕ → Prop) : Prop where
  bits : t'.bits = t.bits
  keySize : t'.keySize = t.keySize
  valid : ∀ x, t'.valid x = t.valid x
  keys : t'.keys = t.keys
  values : t'.values = t.values
  occup : ∀ x < t.size, ¬ gone x → t'.occup x = t.occup x

theorem cleanUp_spec (hsized : t.Sized) (hbase : base < t.size) {n : ℕ} (hsync : it.Synced)
    (hslot : it.slot < t.size) {stop : ℕ} (hstop : stop < t.size)
    (hle : dist t.size base it.slot ≤ dist t.size base stop)
    (hfuel : dist t.size base stop < dist t.size base it.slot + n) :
    ∃ t', cleanUp stop n t it = some t' ∧ Cleaned t t' fun x =>
      t.valid x = false ∧ dist t.size base it.slot ≤ dist t.size base x ∧
        dist t.size base x < dist t.size base stop := by
  induction n generalizing t it with
  | zero => omega
  | succ n ih =>
    rw [cleanUp]
    split
    · exact ⟨t, rfl, rfl, rfl, fun _ => rfl, rfl, rfl, fun _ _ _ => rfl⟩
    · next hne =>
      have hne' : dist t.size base it.slot ≠ dist t.size base stop := by
        rwa [Ne, dist_inj hbase hslot hstop]
      have hinc := inc_dist hbase hslot
        (by have := dist_lt (a := base) (b := stop) hsized.size_pos; omega)
      -- the slot is emptied or left
      obtain ⟨t₁, ht₁, hbits, hkeySize, hvalid, hkeys, hvalues, hoccup⟩ : ∃ t₁,
          (if !t.isValid it then t.setEmpty it else t) = t₁ ∧ t₁.bits = t.bits ∧
          t₁.keySize = t.keySize ∧ (∀ x, t₁.valid x = t.valid x) ∧ t₁.keys = t.keys ∧
          t₁.values = t.values ∧
          ∀ x, ¬ (t.valid x = false ∧ x = it.slot) → t₁.occup x = t.occup x := by
        refine ⟨_, rfl, ?_⟩
        split
        · next hv =>
          rw [isValid_eq hsync] at hv
          refine ⟨rfl, rfl, fun _ => rfl, rfl, rfl, ?_⟩
          intro x hx
          rw [occup_setEmpty hsync]
          have : x ≠ it.slot := by
            rintro rfl
            exact hx ⟨by simpa using hv, rfl⟩
          simp [this]
        · exact ⟨rfl, rfl, fun _ => rfl, rfl, rfl, fun _ _ => rfl⟩
      rw [ht₁]
      have hsize : t₁.size = t.size := by rw [size, size, hbits]
      have hinc₁ : t.inc it = t₁.inc it := by rw [inc, inc, sizeMask, sizeMask, hbits]
      rw [hinc₁] at hinc ⊢
      rw [← hsize] at hbase hslot hstop hinc hle hne'
      obtain ⟨t', ht', hclean⟩ := ih (t := t₁) ⟨hbits ▸ hsized.six_le, hbits ▸ hsized.lt⟩ hbase
        (hsync.inc (hbits ▸ hsized.six_le)) (inc_lt ⟨hbits ▸ hsized.six_le, hbits ▸ hsized.lt⟩)
        hstop (by omega) (by rw [← hsize] at hfuel; omega)
      refine ⟨t', ht', hclean.bits.trans hbits, hclean.keySize.trans hkeySize,
        fun x => (hclean.valid x).trans (hvalid x), hclean.keys.trans hkeys,
        hclean.values.trans hvalues, ?_⟩
      intro x hx hgone
      have hfirst : ¬ (t.valid x = false ∧ x = it.slot) := by
        rintro ⟨hv, rfl⟩
        refine hgone ⟨hv, le_rfl, ?_⟩
        rw [← hsize]
        omega
      rw [hclean.occup x (hsize.symm ▸ hx) ?_, hoccup x hfirst]
      rintro ⟨hv, h₁, h₂⟩
      rw [hvalid] at hv
      rw [hsize] at h₁ h₂ hinc
      exact hgone ⟨hv, by omega, h₂⟩

end Walks

/-- Emptying tombstones that are on no entry's way. -/
theorem Cleaned.inv {gone : ℕ → Prop} (h : Cleaned t t' gone) (hinv : t.Inv H)
    (hgone : ∀ x < t.size, gone x → t.valid x = false ∧ ∀ s < t.size, t.valid s = true →
      ¬ t.OnWay (t.home H s) s x) : t'.Inv H ∧ Same t t' := by
  have hsize : t'.size = t.size := by rw [Table.size, Table.size, h.bits]
  have hhome : ∀ s, t'.home H s = t.home H s := by
    intro s
    rw [home, home, Table.hash, Table.hash, h.bits, h.keySize, h.keys]
  refine ⟨⟨⟨h.bits ▸ hinv.sized.six_le, h.bits ▸ hinv.sized.lt⟩, ?_, ?_, ?_⟩,
    ⟨h.bits, h.keySize, ?_⟩⟩
  · intro s hs hv
    rw [hsize] at hs
    rw [h.valid] at hv
    rw [h.occup s hs]
    · exact hinv.occup s hs hv
    · intro hg
      rw [(hgone s hs hg).1] at hv
      cases hv
  · intro s hs hv x hx hon
    rw [hsize] at hs hx
    rw [h.valid] at hv
    rw [OnWay, hsize, hhome] at hon
    rw [h.occup x hx]
    · exact hinv.way s hs hv x hx hon
    · exact fun hg => (hgone x hx hg).2 s hs hv hon
  · intro s hs s' hs' hv hv' hkey
    rw [hsize] at hs hs'
    rw [h.valid] at hv hv'
    rw [h.keys] at hkey
    exact hinv.unique s hs s' hs' hv hv' hkey
  · intro key v
    simp only [Holds, hsize, h.valid, h.keys, h.values]

end Table

end Gsgpu.Chash
