import Gsgpu.Chash.Probing

/-! The search of `chash_table_find`. As it probes, every entry behind the first redundant
tombstone is brought to where it needs none of the tombstones any more, so when the search meets
an empty slot these tombstones lead nowhere. -/
namespace Gsgpu.Chash

open Cyclic

variable {V : Type} {H : Hashes} {t t' : Table V}

namespace Table

/-- What is known of the first redundant tombstone after `d` slots: the entries behind it have only
valid slots on their way. -/
structure Redundant (H : Hashes) (t : Table V) (base d : ℕ) (m : Marks) (first : Iter) : Prop where
  synced : first.Synced
  lt : first.slot < t.size
  before : dist t.size base first.slot < d
  free : t.valid first.slot = false
  avail : ∀ a, m.firstAvail = some a → dist t.size base a < dist t.size base first.slot
  direct : ∀ p < t.size, t.valid p = true → dist t.size base first.slot < dist t.size base p →
    dist t.size base p < d → ∀ x < t.size, t.OnWay (t.home H p) p x → t.valid x = true

/-- What is known after `d` slots from `base` have been probed. -/
structure Probing (H : Hashes) (t : Table V) (key base d : ℕ) (forRemoval : Bool) (m : Marks) :
    Prop where
  inv : t.Inv H
  base_lt : base < t.size
  passed : ∀ x < t.size, dist t.size base x < d →
    t.occup x = true ∧ (t.valid x = true → t.keys x ≠ key)
  avail : ∀ a, m.firstAvail = some a →
    a < t.size ∧ dist t.size base a < d ∧ t.valid a = false
  redundant : ∀ first, m.firstRedundant = some first → Redundant H t base d m first
  removal : forRemoval = true → m.firstAvail = none
  full : forRemoval = false → m.firstAvail = none →
    ∀ x < t.size, dist t.size base x < d → t.valid x = true

variable {key base d : ℕ} {forRemoval : Bool} {m : Marks} {it first : Iter}

/-- `CHASH_SUB` is the distance, also from one past the end. -/
theorem sub_eq (hsized : t.Sized) {a b : ℕ} (ha : a < t.size) (hb : b < t.size) :
    t.sub a (b + 1) = dist t.size ((b + 1) % t.size) a := by
  obtain ⟨c, hc⟩ : t.size ∣ 2 ^ 32 := Nat.pow_dvd_pow 2 hsized.lt.le
  have hcpos : 0 < c := by
    rcases Nat.eq_zero_or_pos c with rfl | hpos
    · simp at hc
    · exact hpos
  have hmul : t.size * c = t.size + t.size * (c - 1) := by
    obtain ⟨c, rfl⟩ := Nat.exists_eq_succ_of_ne_zero hcpos.ne'
    rw [Nat.mul_succ, Nat.succ_sub_one, Nat.add_comm]
  have hmask : ∀ x, x &&& t.sizeMask = x % t.size := fun x => Nat.and_two_pow_sub_one_eq_mod x t.bits
  rw [sub, hmask, hc, Nat.mod_mul_right_mod, Cyclic.dist, hmul]
  rw [show a + (t.size + t.size * (c - 1)) - (b + 1) = a + t.size - (b + 1) + t.size * (c - 1) by
    omega, Nat.add_mul_mod_self_left]
  rcases Nat.lt_or_ge (b + 1) t.size with hlt | hge
  · rw [Nat.mod_eq_of_lt hlt]
  · rw [show b + 1 = t.size by omega, Nat.mod_self]
    simp

/-- The home of an entry is between the first redundant tombstone and its slot. -/
theorem inRange_iff (hsized : t.Sized) (hbase : base < t.size) {cur f s : ℕ} (hcur : cur < t.size)
    (hf : f < t.size) (hs : s < t.size) (hlt : dist t.size base f < dist t.size base s) :
    t.inRange cur (f + 1) s = true ↔
      dist t.size base f < dist t.size base cur ∧ dist t.size base cur ≤ dist t.size base s := by
  have hlt' := dist_lt (a := base) (b := s) hsized.size_pos
  have hnext : (f + 1) % t.size < t.size := Nat.mod_lt _ hsized.size_pos
  have hf₁ : dist t.size base ((f + 1) % t.size) = dist t.size base f + 1 := by
    rw [dist_succ hbase hf, if_neg (by omega)]
  have hcur' := dist_lt (a := base) (b := cur) hsized.size_pos
  rw [inRange, decide_eq_true_iff, sub_eq hsized hcur hf, sub_eq hsized hs hf,
    dist_coord hbase hnext hcur, dist_coord hbase hnext hs, hf₁]
  split <;> split <;> omega

/-- On the way of an entry between the first redundant tombstone and a slot that slot is not. -/
theorem Redundant.not_onWay (h : Redundant H t base d m first) (hsized : t.Sized)
    (hbase : base < t.size) {s : ℕ} (hs : s < t.size) (hd : dist t.size base s = d) {p : ℕ}
    (hp : p < t.size) (hvalid : t.valid p = true)
    (hlt : dist t.size base first.slot < dist t.size base p) (hpd : dist t.size base p < d) :
    ¬ t.OnWay (t.home H p) p s := by
  intro hon
  have hhome : t.home H p < t.size := hash_lt hsized _
  have hfirst : t.OnWay (t.home H p) p first.slot := by
    rw [OnWay, dist_lt_dist_iff hbase hhome hp hs] at hon
    rw [OnWay, dist_lt_dist_iff hbase hhome hp h.lt]
    omega
  have := h.direct p hp hvalid hlt hpd _ h.lt hfirst
  rw [h.free] at this
  cases this

/-- What the loop is at: the slot `d` behind the base, not empty and without the key. -/
structure At (t : Table V) (key base d : ℕ) (it : Iter) : Prop where
  synced : it.Synced
  lt : it.slot < t.size
  dist_eq : dist t.size base it.slot = d
  occup : t.occup it.slot = true
  other : t.valid it.slot = true → t.keys it.slot ≠ key

theorem At.eq_of_dist (h : At t key base d it) (hbase : base < t.size) {x : ℕ} (hx : x < t.size)
    (hlt : dist t.size base x < d + 1) (hge : ¬ dist t.size base x < d) : x = it.slot := by
  refine (dist_inj hbase hx h.lt).mp ?_
  have := h.dist_eq
  omega

/-- The slots up to the current one. -/
theorem Probing.passed_succ (h : Probing H t key base d forRemoval m) (hat : At t key base d it)
    {x : ℕ} (hx : x < t.size) (hlt : dist t.size base x < d + 1) :
    t.occup x = true ∧ (t.valid x = true → t.keys x ≠ key) := by
  by_cases hbefore : dist t.size base x < d
  · exact h.passed x hx hbefore
  · obtain rfl := hat.eq_of_dist h.base_lt hx hlt hbefore
    exact ⟨hat.occup, hat.other⟩

/-- The table is left as it is, and the entry at the slot needs no tombstone. -/
theorem Redundant.succ (h : Redundant H t base d m first) (hbase : base < t.size)
    (hat : At t key base d it) (hway : t.valid it.slot = true → ∀ x < t.size,
      t.OnWay (t.home H it.slot) it.slot x → t.valid x = true) :
    Redundant H t base (d + 1) m first := by
  refine { h with before := h.before.trans (Nat.lt_succ_self d), direct := ?_ }
  intro p hp hv hlt hpd
  by_cases hbefore : dist t.size base p < d
  · exact h.direct p hp hv hlt hbefore
  · obtain rfl := hat.eq_of_dist hbase hp hpd hbefore
    exact hway hv

/-- A redundant tombstone follows an available one. -/
theorem Probing.not_full (h : Probing H t key base d forRemoval m)
    (hfirst : m.firstRedundant = some first) : ¬ (forRemoval = false ∧ m.firstAvail = none) := by
  rintro ⟨hrem, hnone⟩
  have hred := h.redundant first hfirst
  have := h.full hrem hnone _ hred.lt hred.before
  rw [hred.free] at this
  cases this

/-- The table and the marks are left as they are. -/
theorem Probing.succ (h : Probing H t key base d forRemoval m) (hat : At t key base d it)
    (hvalid : t.valid it.slot = true ∨ m.firstRedundant.isSome)
    (hway : t.valid it.slot = true → m.firstRedundant.isSome → ∀ x < t.size,
      t.OnWay (t.home H it.slot) it.slot x → t.valid x = true) :
    Probing H t key base (d + 1) forRemoval m := by
  refine { h with passed := fun x => h.passed_succ hat, avail := ?_, redundant := ?_, full := ?_ }
  · intro a ha
    obtain ⟨hlt, hbefore, hfree⟩ := h.avail a ha
    exact ⟨hlt, hbefore.trans (Nat.lt_succ_self d), hfree⟩
  · intro first hfirst
    exact (h.redundant first hfirst).succ h.base_lt hat fun hv => hway hv (hfirst ▸ rfl)
  · intro hrem hnone x hx hlt
    by_cases hbefore : dist t.size base x < d
    · exact h.full hrem hnone x hx hbefore
    · obtain rfl := hat.eq_of_dist h.base_lt hx hlt hbefore
      refine hvalid.resolve_right fun hsome => ?_
      obtain ⟨first, hfirst⟩ := Option.isSome_iff_exists.mp hsome
      exact h.not_full hfirst ⟨hrem, hnone⟩

/-- A tombstone. -/
theorem Probing.tombstone (h : Probing H t key base d forRemoval m) (hat : At t key base d it)
    (hfree : t.valid it.slot = false) : ∃ m', t.probe H forRemoval it m = some (t, m') ∧
      Probing H t key base (d + 1) forRemoval m' := by
  rw [probe, isValid_eq hat.synced, hfree]
  have hfreeNot : ¬ t.valid it.slot = true := by simp [hfree]
  simp only [Bool.not_false, if_true]
  split
  · next hnone =>
    -- the first one: nothing before it is redundant
    have hrem : forRemoval = false := by simpa using (Bool.and_eq_true_iff.mp hnone).1
    have hav : m.firstAvail = none := by simpa using (Bool.and_eq_true_iff.mp hnone).2
    refine ⟨_, rfl, { h with
      passed := fun x => h.passed_succ hat, avail := ?_, redundant := ?_, removal := ?_, full := ?_ }⟩
    · intro a ha
      obtain rfl := Option.some.inj ha
      exact ⟨hat.lt, hat.dist_eq.trans_lt (Nat.lt_succ_self d), hfree⟩
    · intro first hfirst
      exact (h.not_full hfirst ⟨hrem, hav⟩).elim
    · intro htrue
      rw [hrem] at htrue
      cases htrue
    · intro _ hsome
      cases hsome
  · next hsome =>
    split
    · next hnone =>
      have hnone : m.firstRedundant = none := by simpa using hnone
      refine ⟨_, rfl, { h with
        passed := fun x => h.passed_succ hat, avail := ?_, redundant := ?_, full := ?_ }⟩
      · intro a ha
        obtain ⟨hlt, hbefore, hfree⟩ := h.avail a ha
        exact ⟨hlt, hbefore.trans (Nat.lt_succ_self d), hfree⟩
      · intro first hfirst
        obtain rfl := Option.some.inj hfirst
        refine ⟨Iter.init_synced _, hat.lt, hat.dist_eq.trans_lt (Nat.lt_succ_self d), hfree, ?_, ?_⟩
        · intro a ha
          exact (h.avail a ha).2.1.trans_eq hat.dist_eq.symm
        · intro p _ _ hlt hpd
          have := hat.dist_eq
          have hlt : dist t.size base it.slot < dist t.size base p := hlt
          omega
      · intro hrem hav
        exact (hsome (by simp [hrem, show m.firstAvail = none from hav])).elim
    · next hred =>
      refine ⟨_, rfl, h.succ hat (.inr ?_) fun hv => (hfreeNot hv).elim⟩
      simpa [Option.isSome_iff_ne_none] using hred

/-- The entry at the slot has moved to a tombstone that is not before the first redundant one. -/
theorem Probing.moved (h : Probing H t key base d forRemoval m) (hat : At t key base d it)
    (hfirst : m.firstRedundant = some first) (hvalid : t.valid it.slot = true) {dst : ℕ}
    (hmoved : Moved t t' dst it.slot) (hdst : dst < t.size) (hfree : t.valid dst = false)
    (hge : dist t.size base first.slot ≤ dist t.size base dst)
    (hway : t.OnWay (t.home H it.slot) it.slot dst) {first' : Iter} (hsync : first'.Synced)
    (hlt : first'.slot < t.size) (hbefore : dist t.size base first'.slot < d + 1)
    (hfree' : t'.valid first'.slot = false)
    (hge' : dist t.size base first.slot ≤ dist t.size base first'.slot)
    (hdirect : dist t.size base first'.slot < dist t.size base dst → ∀ x < t.size,
      t.OnWay (t.home H it.slot) dst x → t'.valid x = true) :
    Probing H t' key base (d + 1) forRemoval { m with firstRedundant := some first' } ∧
      Same t t' := by
  have hred := h.redundant first hfirst
  have hsized := h.inv.sized
  have hsize := hmoved.size
  have hne : ∀ a, m.firstAvail = some a → a ≠ dst ∧ a ≠ it.slot := by
    intro a ha
    have h₁ := hred.avail a ha
    have h₂ := (h.avail a ha).2.1
    have h₃ := hat.dist_eq
    constructor <;> rintro rfl <;> omega
  refine ⟨⟨hmoved.inv h.inv hat.lt hdst hvalid hfree hway, hsize ▸ h.base_lt, ?_, ?_, ?_, h.removal, ?_⟩,
    hmoved.same hat.lt hdst hvalid hfree⟩
  · intro x hx hxd
    rw [hsize] at hx hxd
    obtain ⟨hocc, hother⟩ := h.passed_succ hat hx hxd
    refine ⟨by rw [hmoved.occup, hocc, Bool.or_true], ?_⟩
    intro hv
    rcases hmoved.valid_cases hv with rfl | ⟨hd, -, hv'⟩
    · rw [hmoved.keys_dst]
      exact hat.other hvalid
    · rw [hmoved.keys_of_ne hd]
      exact hother hv'
  · intro a ha
    obtain ⟨halt, habefore, hafree⟩ := h.avail a ha
    rw [hsize, hmoved.valid_of_ne (hne a ha).1 (hne a ha).2]
    exact ⟨halt, habefore.trans (Nat.lt_succ_self d), hafree⟩
  · intro f hf
    obtain rfl := Option.some.inj hf
    refine ⟨hsync, hsize ▸ hlt, hsize ▸ hbefore, hfree', ?_, ?_⟩
    · intro a ha
      rw [hsize]
      exact (hred.avail a ha).trans_le hge'
    · intro p hp hv hlt' hpd x hx hon
      rw [hsize] at hp hlt' hpd hx
      rw [OnWay, hsize] at hon
      rcases hmoved.valid_cases hv with rfl | ⟨hd, hs, hv'⟩
      · rw [hmoved.home_dst] at hon
        exact hdirect hlt' x hx hon
      · rw [hmoved.home_of_ne hd] at hon
        have hpd' : dist t.size base p < d := by
          by_contra hnot
          exact hs (hat.eq_of_dist h.base_lt hp hpd hnot)
        have hxs : x ≠ it.slot := by
          rintro rfl
          exact hred.not_onWay hsized h.base_lt hat.lt hat.dist_eq hp hv' (hge'.trans_lt hlt') hpd' hon
        have hxv := hred.direct p hp hv' (hge'.trans_lt hlt') hpd' x hx hon
        rw [hmoved.valid, hxv, Bool.or_true, Bool.and_true]
        simpa using hxs
  · intro hrem hnone
    exact (h.not_full hfirst ⟨hrem, hnone⟩).elim

/-- An entry that hashes to or before the first redundant tombstone moves there. -/
theorem Probing.toFirst (h : Probing H t key base d forRemoval m) (hat : At t key base d it)
    (hfirst : m.firstRedundant = some first) (hvalid : t.valid it.slot = true)
    (hrange : t.inRange (t.iterHash H it) (first.slot + 1) it.slot = false) :
    ∃ t₁ first', t.relocate first it = some t₁ ∧ t₁.skipValid t₁.size (t₁.inc first) = some first' ∧
      Probing H t₁ key base (d + 1) forRemoval { m with firstRedundant := some first' } ∧
      Same t t₁ := by
  have hred := h.redundant first hfirst
  have hsized := h.inv.sized
  have hcur : t.home H it.slot < t.size := hash_lt hsized _
  have hd := hat.dist_eq
  have hout : ¬ (dist t.size base first.slot < dist t.size base (t.home H it.slot) ∧
      dist t.size base (t.home H it.slot) ≤ dist t.size base it.slot) := by
    rw [← inRange_iff hsized h.base_lt hcur hred.lt hat.lt (hred.before.trans_eq hd.symm)]
    exact (Bool.eq_false_iff.mp hrange :)
  have hway : t.OnWay (t.home H it.slot) it.slot first.slot := by
    rw [OnWay, dist_lt_dist_iff h.base_lt hcur hat.lt hred.lt]
    have := hred.before
    omega
  have hne : first.slot ≠ it.slot := by
    intro heq
    rw [← heq, hred.free] at hvalid
    cases hvalid
  obtain ⟨t₁, ht₁, hmoved⟩ := relocate_moved (t := t) hred.synced hat.synced hne
  have hsize := hmoved.size
  have hsized₁ : t₁.Sized := ⟨hmoved.bits ▸ hsized.six_le, hmoved.bits ▸ hsized.lt⟩
  have hdlt := dist_lt (a := base) (b := it.slot) hsized.size_pos
  have hinc : dist t.size base (t₁.inc first).slot = dist t.size base first.slot + 1 := by
    rw [← hsize]
    refine inc_dist (hsize ▸ h.base_lt) (hsize ▸ hred.lt) ?_
    rw [hsize]
    have := hred.before
    omega
  -- the slot that the entry left is a tombstone now, so the next one is there at the latest
  obtain ⟨first', hskip, hsync', hlt', hfree', hle', hle'', -⟩ :=
    skipValid_spec hsized₁ (hsize.symm ▸ h.base_lt) (n := t₁.size)
      (hred.synced.inc hsized₁.six_le) (inc_lt hsized₁) (e := it.slot) (hsize.symm ▸ hat.lt)
      hmoved.valid_src (by rw [hsize, hinc, hd]; exact hred.before) (by rw [hsize]; omega)
  rw [hsize] at hlt' hle' hle''
  obtain ⟨hprob, hsame⟩ := h.moved hat hfirst hvalid hmoved hred.lt hred.free le_rfl hway hsync' hlt'
    (by omega) hfree' (by omega) (by omega)
  exact ⟨t₁, first', ht₁, hskip, hprob, hsame⟩

/-- An entry that hashes behind the first redundant tombstone moves as close to its hash as it can,
and has only valid slots on its way then. -/
theorem Probing.toHome (h : Probing H t key base d forRemoval m) (hat : At t key base d it)
    (hfirst : m.firstRedundant = some first) (hvalid : t.valid it.slot = true)
    (hrange : t.inRange (t.iterHash H it) (first.slot + 1) it.slot = true) :
    ∃ new, t.skipValidTo it.slot t.size (.init (t.iterHash H it)) = some new ∧
      (new.slot = it.slot → Probing H t key base (d + 1) forRemoval m) ∧
      (new.slot ≠ it.slot → ∃ t₁, t.relocate new it = some t₁ ∧
        Probing H t₁ key base (d + 1) forRemoval m ∧ Same t t₁) := by
  have hred := h.redundant first hfirst
  have hsized := h.inv.sized
  have hcur : t.iterHash H it < t.size := hash_lt hsized _
  have hd := hat.dist_eq
  have hdlt := dist_lt (a := base) (b := it.slot) hsized.size_pos
  obtain ⟨hgt, hle⟩ := (inRange_iff hsized h.base_lt hcur hred.lt hat.lt
    (hred.before.trans_eq hd.symm)).mp hrange
  obtain ⟨new, hskip, hsync, hlt, hend, hle', hle'', hbetween⟩ :=
    skipValidTo_spec hsized h.base_lt (n := t.size)
      (Iter.init_synced _) hcur hat.lt hle (hdlt.trans_le (Nat.le_add_left _ _))
  have hle' : dist t.size base (t.iterHash H it) ≤ dist t.size base new.slot := hle'
  -- what is on the way to the new slot is valid
  have hon : ∀ x < t.size, t.OnWay (t.iterHash H it) new.slot x → t.valid x = true ∧
      dist t.size base x < dist t.size base new.slot := by
    intro x hx hon
    rw [OnWay, dist_lt_dist_iff h.base_lt hcur hlt hx] at hon
    refine ⟨hbetween x hx ?_ ?_, ?_⟩
    · show dist t.size base (t.iterHash H it) ≤ dist t.size base x
      omega
    · omega
    · omega
  refine ⟨new, hskip, ?_, ?_⟩
  · intro heq
    refine h.succ hat (.inl hvalid) fun _ _ x hx hx' => (hon x hx ?_).1
    rw [heq]
    exact hx'
  · intro hne
    have hfree : t.valid new.slot = false := hend.resolve_left hne
    have hltd : dist t.size base new.slot < d := by
      have : dist t.size base new.slot ≠ dist t.size base it.slot := by
        rwa [Ne, dist_inj h.base_lt hlt hat.lt]
      omega
    obtain ⟨t₁, ht₁, hmoved⟩ := relocate_moved (t := t) hsync hat.synced hne
    have hway : t.OnWay (t.iterHash H it) it.slot new.slot := by
      rw [OnWay, dist_lt_dist_iff h.base_lt hcur hat.lt hlt]
      omega
    have hfirstNew : first.slot ≠ new.slot := by
      rintro heq
      rw [heq] at hgt
      omega
    have hfirstIt : first.slot ≠ it.slot := by
      rintro heq
      have := hred.before
      rw [heq] at this
      omega
    obtain ⟨hprob, hsame⟩ := h.moved hat hfirst hvalid hmoved hlt hfree (by omega) hway hred.synced
      hred.lt (hred.before.trans (Nat.lt_succ_self d))
      ((hmoved.valid_of_ne hfirstNew hfirstIt).trans hred.free) le_rfl (by
        intro _ x hx hx'
        obtain ⟨hxv, hxlt⟩ := hon x hx hx'
        rw [hmoved.valid, hxv, Bool.or_true, Bool.and_true]
        have : x ≠ it.slot := by
          rintro rfl
          omega
        simpa using this)
    have hm : { m with firstRedundant := some first } = m := by rw [← hfirst]
    rw [hm] at hprob
    exact ⟨t₁, ht₁, hprob, hsame⟩

/-- The body of the loop. -/
theorem Probing.probe (h : Probing H t key base d forRemoval m) (hat : At t key base d it) :
    ∃ t₁ m₁, t.probe H forRemoval it m = some (t₁, m₁) ∧
      Probing H t₁ key base (d + 1) forRemoval m₁ ∧ Same t t₁ := by
  cases hvalid : t.valid it.slot with
  | false =>
    obtain ⟨m₁, hprobe, hprob⟩ := h.tombstone hat hvalid
    exact ⟨t, m₁, hprobe, hprob, .refl t⟩
  | true =>
    rw [Table.probe, isValid_eq hat.synced, hvalid]
    simp only [Bool.not_true, Bool.false_eq_true, if_false]
    cases hfirst : m.firstRedundant with
    | none =>
      refine ⟨t, m, rfl, h.succ hat (.inl hvalid) ?_, .refl t⟩
      intro _ hsome
      simp [hfirst] at hsome
    | some first =>
      cases hrange : t.inRange (t.iterHash H it) (first.slot + 1) it.slot with
      | false =>
        obtain ⟨t₁, first', hreloc, hskip, hprob, hsame⟩ := h.toFirst hat hfirst hvalid hrange
        refine ⟨t₁, _, ?_, hprob, hsame⟩
        simp [hrange, hreloc, hskip]
      | true =>
        by_cases hhome : t.iterHash H it = it.slot
        · refine ⟨t, m, ?_, h.succ hat (.inl hvalid) ?_, .refl t⟩
          · simp only [hrange, Bool.not_true, Bool.false_eq_true, if_false]
            exact if_neg (not_not.mpr hhome)
          intro _ _ x hx hon
          -- at its hash an entry has no way to go
          have hself : dist t.size it.slot it.slot = 0 := dist_self hat.lt
          rw [OnWay, show t.home H it.slot = it.slot from hhome, hself] at hon
          omega
        · obtain ⟨new, hskip, hstay, hgo⟩ := h.toHome hat hfirst hvalid hrange
          by_cases hnew : new.slot = it.slot
          · exact ⟨t, m, by simp [hrange, hhome, hskip, hnew], hstay hnew, .refl t⟩
          · obtain ⟨t₁, hreloc, hprob, hsame⟩ := hgo hnew
            exact ⟨t₁, m, by simp [hrange, hhome, hskip, hnew, hreloc], hprob, hsame⟩

/-- What a search tells of the table that it leaves. -/
def FindSpec (t : Table V) (key base : ℕ) (forRemoval : Bool) : Found → Prop
  | .found it => it.Synced ∧ it.slot < t.size ∧ t.valid it.slot = true ∧ t.keys it.slot = key
  | .notFound it => (∀ x < t.size, t.valid x = true → t.keys x ≠ key) ∧ (forRemoval = false →
    match it with
    | none => ∀ x < t.size, t.valid x = true
    | some it => it.Synced ∧ it.slot < t.size ∧ t.valid it.slot = false ∧
        ∀ x < t.size, t.OnWay base it.slot x → t.occup x = true)

/-- The search has found the entry, and moves it to the first tombstone on its way. -/
theorem Probing.found (h : Probing H t key base d forRemoval m) (hhash : t.hash H key = base)
    (hsync : it.Synced) (hlt : it.slot < t.size) (hd : dist t.size base it.slot = d)
    (hvalid : t.valid it.slot = true) (hkey : t.keys it.slot = key) {a : ℕ}
    (ha : m.firstAvail = some a) : ∃ t₁, t.relocate (.init a) it = some t₁ ∧ t₁.Inv H ∧ Same t t₁ ∧
      t₁.FindSpec key base forRemoval (.found (.init a)) := by
  obtain ⟨halt, hbefore, hfree⟩ := h.avail a ha
  have hne : a ≠ it.slot := by
    rintro rfl
    omega
  obtain ⟨t₁, ht₁, hmoved⟩ := relocate_moved (t := t) (Iter.init_synced a) hsync hne
  have hmoved : Moved t t₁ a it.slot := hmoved
  refine ⟨t₁, ht₁, hmoved.inv h.inv hlt halt hvalid hfree ?_, hmoved.same hlt halt hvalid hfree,
    Iter.init_synced a, hmoved.size ▸ halt, hmoved.valid_dst hne, hmoved.keys_dst.trans hkey⟩
  rw [OnWay, home, hkey, hhash, hd]
  exact hbefore

/-- At an empty slot the redundant tombstones are on no entry's way. -/
theorem Redundant.cleanUp (h : Redundant H t base d m first) (hinv : t.Inv H) (hbase : base < t.size)
    (hlt : it.slot < t.size) (hd : dist t.size base it.slot = d) (hempty : t.occup it.slot = false) :
    ∃ t₁, Table.cleanUp it.slot t.size t first = some t₁ ∧ t₁.Inv H ∧ Same t t₁ ∧
      (∀ x, t₁.valid x = t.valid x) ∧ t₁.keys = t.keys ∧
      ∀ x < t.size, dist t.size base x < dist t.size base first.slot → t₁.occup x = t.occup x := by
  have hdlt := dist_lt (a := base) (b := it.slot) hinv.sized.size_pos
  have hbefore := h.before
  obtain ⟨t₁, ht₁, hclean⟩ := cleanUp_spec hinv.sized hbase (n := t.size) h.synced h.lt hlt
    (by omega) (by omega)
  obtain ⟨hinv₁, hsame⟩ := hclean.inv hinv (by
    rintro x hx ⟨hxv, hge, hxlt⟩
    refine ⟨hxv, fun s hs hv hon => ?_⟩
    have hhome : t.home H s < t.size := hash_lt hinv.sized _
    -- a way through the tombstone ends before the empty slot
    have hnot : ¬ t.OnWay (t.home H s) s it.slot := by
      intro hon'
      rw [hinv.way s hs hv _ hlt hon'] at hempty
      cases hempty
    have hsne : dist t.size base s ≠ d := by
      rw [← hd, Ne, dist_inj hbase hs hlt]
      rintro rfl
      rw [hinv.occup _ hs hv] at hempty
      cases hempty
    rw [OnWay, dist_lt_dist_iff hbase hhome hs hlt] at hnot
    have hon' := hon
    rw [OnWay, dist_lt_dist_iff hbase hhome hs hx] at hon'
    have := h.direct s hs hv (by omega) (by omega) x hx hon
    rw [hxv] at this
    cases this)
  refine ⟨t₁, ht₁, hinv₁, hsame, hclean.valid, hclean.keys, ?_⟩
  intro x hx hxlt
  refine hclean.occup x hx ?_
  rintro ⟨-, hge, -⟩
  omega

/-- Behind an empty slot there is no entry of the key. -/
theorem Probing.absent (h : Probing H t key base d forRemoval m) (hhash : t.hash H key = base)
    (hlt : it.slot < t.size) (hd : dist t.size base it.slot = d) (hempty : t.occup it.slot = false) :
    ∀ x < t.size, t.valid x = true → t.keys x ≠ key := by
  intro x hx hv hkey
  rcases Nat.lt_trichotomy (dist t.size base x) d with hbefore | heq | hafter
  · exact (h.passed x hx hbefore).2 hv hkey
  · obtain rfl := (dist_inj h.base_lt hx hlt).mp (heq.trans hd.symm)
    rw [h.inv.occup _ hx hv] at hempty
    cases hempty
  · have hon : t.OnWay (t.home H x) x it.slot := by
      rw [OnWay, home, hkey, hhash, hd]
      exact hafter
    rw [h.inv.way x hx hv _ hlt hon] at hempty
    cases hempty

/-- The search ends at an empty slot. -/
theorem Probing.empty (h : Probing H t key base d forRemoval m) (hhash : t.hash H key = base)
    (hsync : it.Synced) (hlt : it.slot < t.size) (hd : dist t.size base it.slot = d)
    (hempty : t.occup it.slot = false) :
    ∃ t₁, (match m.firstRedundant with
        | none => some t
        | some first => Table.cleanUp it.slot t.size t first) = some t₁ ∧ t₁.Inv H ∧ Same t t₁ ∧
      t₁.FindSpec key base forRemoval (.notFound (some ((m.firstAvail.map Iter.init).getD it))) := by
  have habsent := h.absent hhash hlt hd hempty
  have hfree : t.valid it.slot = false := by
    cases hv : t.valid it.slot with
    | false => rfl
    | true =>
      rw [h.inv.occup _ hlt hv] at hempty
      cases hempty
  cases hfirst : m.firstRedundant with
  | none =>
    refine ⟨t, rfl, h.inv, .refl t, habsent, fun _ => ?_⟩
    cases ha : m.firstAvail with
    | none =>
      refine ⟨hsync, hlt, hfree, fun x hx hon => (h.passed x hx ?_).1⟩
      exact hon.trans_eq hd
    | some a =>
      obtain ⟨halt, hbefore, hafree⟩ := h.avail a ha
      exact ⟨Iter.init_synced a, halt, hafree, fun x hx hon => (h.passed x hx (hon.trans hbefore)).1⟩
  | some first =>
    have hred := h.redundant first hfirst
    obtain ⟨t₁, ht₁, hinv₁, hsame, hvalid₁, hkeys₁, hoccup₁⟩ :=
      hred.cleanUp h.inv h.base_lt hlt hd hempty
    refine ⟨t₁, ht₁, hinv₁, hsame, ?_, fun hrem => ?_⟩
    · intro x hx hv
      rw [hsame.size] at hx
      rw [hvalid₁] at hv
      rw [hkeys₁]
      exact habsent x hx hv
    · cases ha : m.firstAvail with
      | none => exact (h.not_full hfirst ⟨hrem, ha⟩).elim
      | some a =>
        obtain ⟨halt, hbefore, hafree⟩ := h.avail a ha
        refine ⟨Iter.init_synced a, hsame.size.symm ▸ halt, (hvalid₁ a).trans hafree, ?_⟩
        intro x hx hon
        rw [hsame.size] at hx
        rw [OnWay, hsame.size] at hon
        rw [hoccup₁ x hx (hon.trans (hred.avail a ha))]
        exact (h.passed x hx (hon.trans hbefore)).1

/-- The search has gone around the table. -/
theorem Probing.around (h : Probing H t key base t.size forRemoval m) :
    t.FindSpec key base forRemoval (.notFound (m.firstAvail.map Iter.init)) := by
  have hall : ∀ x, dist t.size base x < t.size := fun x => dist_lt h.inv.sized.size_pos
  refine ⟨fun x hx => (h.passed x hx (hall x)).2, fun hrem => ?_⟩
  cases ha : m.firstAvail with
  | none => exact fun x hx => h.full hrem ha x hx (hall x)
  | some a =>
    obtain ⟨halt, -, hafree⟩ := h.avail a ha
    exact ⟨Iter.init_synced a, halt, hafree, fun x hx _ => (h.passed x hx (hall x)).1⟩

/-- The loop ends, with the entries that the table had. -/
theorem Probing.findLoop {n : ℕ} (h : Probing H t key base d forRemoval m)
    (hhash : t.hash H key = base) (hfuel : d + n = t.size) (hsync : it.Synced)
    (hlt : it.slot < t.size) (hd : dist t.size base it.slot = d) :
    ∃ r t₁, Table.findLoop H key forRemoval base n t it m = some (r, t₁) ∧ t₁.Inv H ∧ Same t t₁ ∧
      t₁.FindSpec key base forRemoval r := by
  induction n generalizing t it m d with
  | zero =>
    have := dist_lt (a := base) (b := it.slot) h.inv.sized.size_pos
    omega
  | succ n ih =>
    rw [Table.findLoop, isValid_eq hsync, isEmpty_eq hsync]
    by_cases hhit : t.valid it.slot = true ∧ t.keys it.slot = key
    · obtain ⟨hvalid, hkey⟩ := hhit
      simp only [hvalid, hkey, beq_self_eq_true, Bool.and_self, if_true]
      cases ha : m.firstAvail with
      | none => exact ⟨_, t, rfl, h.inv, .refl t, hsync, hlt, hvalid, hkey⟩
      | some a =>
        obtain ⟨t₁, ht₁, hrest⟩ := h.found hhash hsync hlt hd hvalid hkey ha
        exact ⟨.found (.init a), t₁, by simp [ht₁], hrest⟩
    · have hmiss : ¬ ((t.valid it.slot && t.keys it.slot == key) = true) := by simpa using hhit
      rw [if_neg hmiss]
      cases hocc : t.occup it.slot with
      | false =>
        obtain ⟨t₁, ht₁, hrest⟩ := h.empty hhash hsync hlt hd hocc
        refine ⟨_, t₁, ?_, hrest⟩
        cases hfirst : m.firstRedundant with
        | none =>
          simp only [hfirst, Option.some.injEq] at ht₁
          simp [ht₁]
        | some first =>
          simp only [hfirst] at ht₁
          simp [ht₁]
      | true =>
        have hat : At t key base d it :=
          ⟨hsync, hlt, hd, hocc, fun hv hkey => hhit ⟨hv, hkey⟩⟩
        obtain ⟨t₁, m₁, hprobe, hprob, hsame⟩ := h.probe hat
        have hsync₁ := hsync.inc (t := t₁) hprob.inv.sized.six_le
        have hlt₁ : it.slot < t₁.size := hsame.size.symm ▸ hlt
        have hd₁ : dist t₁.size base it.slot = d := hsame.size.symm ▸ hd
        have hsucc : dist t₁.size base (t₁.inc it).slot =
            if d + 1 = t₁.size then 0 else d + 1 := by
          rw [inc_slot, dist_succ hprob.base_lt hlt₁, hd₁]
        have hzero : dist t₁.size base base = 0 := dist_self hprob.base_lt
        have hback : (t₁.inc it).slot = base ↔ d + 1 = t₁.size := by
          rw [← dist_inj hprob.base_lt (inc_lt hprob.inv.sized) hprob.base_lt, hsucc, hzero]
          split <;> omega
        simp only [Bool.not_true, Bool.false_eq_true, if_false, hprobe, Option.bind_eq_bind,
          Option.bind_some, hback]
        by_cases hend : d + 1 = t₁.size
        · rw [if_pos hend]
          rw [hend] at hprob
          exact ⟨_, t₁, rfl, hprob.inv, hsame, hprob.around⟩
        · rw [if_neg hend]
          rw [if_neg hend] at hsucc
          obtain ⟨r, t₂, hloop, hinv₂, hsame₂, hspec⟩ :=
            ih hprob ((hsame.hash key).trans hhash) (by rw [hsame.size]; omega) hsync₁
              (inc_lt hprob.inv.sized) hsucc
          exact ⟨r, t₂, hloop, hinv₂, hsame.trans hsame₂, hspec⟩

/-- `chash_table_find` on a table as the operations leave it. -/
theorem Inv.find (h : t.Inv H) (key : ℕ) (forRemoval : Bool) :
    ∃ r t₁, t.find H key forRemoval = some (r, t₁) ∧ t₁.Inv H ∧ Same t t₁ ∧
      t₁.FindSpec key (t.hash H key) forRemoval r := by
  have hlt : t.hash H key < t.size := hash_lt h.sized key
  have hzero : dist t.size (t.hash H key) (t.hash H key) = 0 := dist_self hlt
  have hprob : Probing H t key (t.hash H key) 0 forRemoval ⟨none, none⟩ :=
    ⟨h, hlt, fun _ _ hx => absurd hx (Nat.not_lt_zero _), nofun, nofun, fun _ => rfl,
      fun _ _ _ _ hx => absurd hx (Nat.not_lt_zero _)⟩
  exact hprob.findLoop rfl (Nat.zero_add _) (Iter.init_synced _) hlt hzero

end Table

end Gsgpu.Chash
