import Gsgpu.Basic
import Mathlib.Algebra.Order.Ring.Int
import Mathlib.Algebra.Order.Group.Unbundled.Abs
import Mathlib.Tactic.IntervalCases

/-! The PLL of a pixel clock: which modes the CRTC accepts, the search for the dividers of their
clock, and the two words of the chip configuration that hold the dividers. The search can fail, and
`config_pll` does not look. -/
namespace Gsgpu.PixelPll

/-- `struct pixel_clock`. -/
structure PixelClock where
  l2Div : ℕ
  l1Loopc : ℕ
  l1Frefc : ℕ
deriving DecidableEq

/-- `cal_freq`, with what it stores where it returns 1. -/
def calFreq (pixclockKhz : ℕ) : Option PixelClock :=
  (List.range' 1 63).findSome? fun pstdiv =>
    let a := pixclockKhz * pstdiv
    (List.range' 3 3).findSome? fun frefc =>
      (List.range' 24 137).findSome? fun loopc =>
        if loopc < 12 * frefc ∨ loopc > 32 * frefc then none
        else
          let b := 100000 * loopc / frefc
          let c := if a > b then a - b else b - a
          if c < 1000 then some ⟨pstdiv, loopc, frefc⟩ else none

/-- What the PLL does by itself: whether its words can be mapped, and the lock bit at each read. -/
structure Hardware where
  mapped : Bool
  locked : ℕ → Bool

/-- The words of the chip configuration by their offset, and the reads so far. -/
structure Io where
  word : ℕ → BitVec 32
  reads : ℕ

/-- `dc_io_rreg`. The lock bit is in the second word of a PLL. -/
def Io.rreg (hw : Hardware) (s : Io) (offset : ℕ) : BitVec 32 × Io :=
  let val := s.word offset
  let lock := if hw.locked s.reads then 0x80#32 else 0#32
  (if offset % 16 = 4 then val &&& ~~~0x80#32 ||| lock else val, { s with reads := s.reads + 1 })

/-- `dc_io_wreg`. -/
def Io.wreg (s : Io) (offset : ℕ) (val : BitVec 32) : Io :=
  { s with word := fun k => if k = offset then val else s.word k }

/-- A word read, changed and written back. -/
def Io.change (hw : Hardware) (s : Io) (offset : ℕ) (f : BitVec 32 → BitVec 32) : Io :=
  let (val, s) := s.rreg hw offset
  s.wreg offset (f val)

/-- The new parameters in the second word. -/
def setRefc (cfg : PixelClock) (val : BitVec 32) : BitVec 32 :=
  val &&& ~~~0x7f#32 ||| BitVec.ofNat 32 cfg.l1Frefc

/-- The new parameters in the first word. -/
def setDivLoopc (cfg : PixelClock) (val : BitVec 32) : BitVec 32 :=
  (val &&& ~~~0x7f#32 ||| BitVec.ofNat 32 cfg.l2Div) &&& ~~~(0x1ff#32 <<< 21) |||
    BitVec.ofNat 32 cfg.l1Loopc <<< 21

/-- The words from `sel_pll_out0` cleared to `pll_pd` cleared. -/
def setParams (hw : Hardware) (pllReg : ℕ) (cfg : PixelClock) (s : Io) : Io :=
  let s := s.change hw (pllReg + 4) (· &&& ~~~(1#32 <<< 8))
  let s := s.change hw (pllReg + 4) (· ||| 1#32 <<< 13)
  let s := s.change hw (pllReg + 4) (· &&& ~~~(1#32 <<< 11))
  let s := s.change hw (pllReg + 4) (setRefc cfg)
  let s := s.change hw pllReg (setDivLoopc cfg)
  let s := s.change hw (pllReg + 4) (· ||| 1#32 <<< 11)
  s.change hw (pllReg + 4) (· &&& ~~~(1#32 <<< 13))

/-- The loop that waits for the lock. -/
def waitLock (hw : Hardware) (offset : ℕ) : ℕ → Io → Bool × Io
  | 0, s => (false, s)
  | n + 1, s =>
    let (val, s) := s.rreg hw offset
    if val &&& 0x80#32 = 0#32 then waitLock hw offset n s else (true, s)

/-- `config_pll`. -/
def configPll (hw : Hardware) (clock pllReg : ℕ) (s : Io) : Bool × Io :=
  if hw.mapped = false then (false, s)
  else
    let s := s.wreg (pllReg + 4) 0#32
    let s := s.wreg pllReg 0#32
    -- what `cal_freq` returns is not looked at
    let pllCfg := (calFreq clock).getD ⟨0, 0, 0⟩
    let s := setParams hw pllReg pllCfg s
    let (locked, s) := waitLock hw (pllReg + 4) 1000 s
    if locked = false then (false, s)
    else (true, s.change hw (pllReg + 4) (· ||| 1#32 <<< 8))

/-- `struct dc_timing_info`, as far as it matters to the PLL. -/
structure DcTimingInfo where
  clock : ℤ
  hdisplay : ℤ

/-- `CURRENT_REG(DC_IO_PIX_PLL, link)`. -/
def pixPll (link : ℕ) : ℕ := 0x4b0 + link * 0x10

/-- `dc_crtc_timing_set`, less its writes to the registers of the CRTC and of the HDMI port, none
of which is a word of the chip configuration. -/
def dcCrtcTimingSet (hw : Hardware) (link : ℕ) (timing : DcTimingInfo) (s : Io) : Bool × Io :=
  if link ≥ 2 then (false, s)
  else
    let clock := if timing.hdisplay = 2560 then 124750 else timing.clock
    configPll hw (clock % 4294967296).toNat (pixPll link) s

/-- `struct drm_display_mode`, as far as it is looked at. -/
structure DisplayMode where
  hdisplay : ℕ
  vdisplay : ℕ
  clock : ℤ

/-- The results of `gsgpu_dc_mode_valid`. -/
inductive ModeStatus
  | ok
  | bad
  | clockHigh
deriving DecidableEq

/-- `gsgpu_dc_mode_valid`. -/
def modeValid (mode : DisplayMode) : ModeStatus :=
  if mode.hdisplay > 2560 then .bad
  else if mode.vdisplay > 1600 then .bad
  else if mode.hdisplay < 640 then .bad
  else if mode.vdisplay < 480 then .bad
  else if mode.hdisplay % 8 ≠ 0 then .bad
  else if mode.clock > 340000 then .clockHigh
  else if mode.hdisplay = 1680 then .bad
  else .ok

/-- The timing that the commit hands down for a mode. -/
def DisplayMode.timing (mode : DisplayMode) : DcTimingInfo where
  clock := mode.clock
  hdisplay := mode.hdisplay

/-- The clock that is asked of the PLL. -/
def DisplayMode.pllClock (mode : DisplayMode) : ℕ :=
  if mode.hdisplay = 2560 then 124750 else mode.clock.toNat

/-- The field of the reference divider in the second word, and of the post divider in the first. -/
def lowField (val : BitVec 32) : BitVec 7 := val.extractLsb' 0 7

/-- The field of the loop divider in the first word. -/
def loopcField (val : BitVec 32) : BitVec 9 := val.extractLsb' 21 9

/-- The dividers that the words of a PLL hold. -/
def Io.dividers (s : Io) (pllReg : ℕ) : PixelClock where
  l2Div := (lowField (s.word pllReg)).toNat
  l1Loopc := (loopcField (s.word pllReg)).toNat
  l1Frefc := (lowField (s.word (pllReg + 4))).toNat

/-- Dividers found for a clock, that fit their fields. -/
structure PixelClock.Real (clock : ℕ) (cfg : PixelClock) : Prop where
  found : calFreq clock = some cfg
  frefc_ne : cfg.l1Frefc ≠ 0
  div_ne : cfg.l2Div ≠ 0
  near : |(clock : ℤ) * cfg.l2Div - (100000 * cfg.l1Loopc / cfg.l1Frefc : ℕ)| < 1000
  frefc_lt : cfg.l1Frefc < 2 ^ 7
  div_lt : cfg.l2Div < 2 ^ 7
  loopc_lt : cfg.l1Loopc < 2 ^ 9

/-- The frequencies that some reference and loop divider give: from 1.2 to 3.2 GHz the multiples of
20 and of 25 MHz and the thirds of the multiples of 100 MHz, rounded down. -/
def OnGrid (g : ℕ) : Prop :=
  1200000 ≤ g ∧ g ≤ 3200000 ∧ (20000 ∣ g ∨ 25000 ∣ g ∨ ∃ k, g = 100000 * k / 3)

/-- A multiple of the clock, by at most 63, is less than 1 MHz off the grid. -/
def NearGrid (clock : ℕ) : Prop :=
  ∃ p g, 1 ≤ p ∧ p ≤ 63 ∧ OnGrid g ∧ clock * p < g + 1000 ∧ g < clock * p + 1000

/-- What the loops of the search go through. -/
structure PixelClock.InRange (cfg : PixelClock) : Prop where
  one_le_div : 1 ≤ cfg.l2Div
  div_le : cfg.l2Div ≤ 63
  three_le_frefc : 3 ≤ cfg.l1Frefc
  frefc_le : cfg.l1Frefc ≤ 5
  le_loopc : 12 * cfg.l1Frefc ≤ cfg.l1Loopc
  loopc_le : cfg.l1Loopc ≤ 32 * cfg.l1Frefc

/-- Whether the search stops at some dividers. -/
def PixelClock.Near (clock : ℕ) (cfg : PixelClock) : Prop :=
  clock * cfg.l2Div < 100000 * cfg.l1Loopc / cfg.l1Frefc + 1000 ∧
    100000 * cfg.l1Loopc / cfg.l1Frefc < clock * cfg.l2Div + 1000

private theorem dist_lt_iff (a b : ℕ) :
    (if a > b then a - b else b - a) < 1000 ↔ a < b + 1000 ∧ b < a + 1000 := by
  split <;> omega

theorem calFreq_eq_some {clock : ℕ} {cfg : PixelClock} (h : calFreq clock = some cfg) :
    cfg.InRange ∧ cfg.Near clock := by
  obtain ⟨pstdiv, hp, h⟩ := List.exists_of_findSome?_eq_some h
  obtain ⟨frefc, hf, h⟩ := List.exists_of_findSome?_eq_some h
  obtain ⟨loopc, hl, h⟩ := List.exists_of_findSome?_eq_some h
  rw [List.mem_range'_1] at hp hf hl
  by_cases hr : loopc < 12 * frefc ∨ loopc > 32 * frefc
  · rw [if_pos hr] at h
    cases h
  · rw [if_neg hr] at h
    by_cases hn : (if clock * pstdiv > 100000 * loopc / frefc then
        clock * pstdiv - 100000 * loopc / frefc
      else 100000 * loopc / frefc - clock * pstdiv) < 1000
    · rw [if_pos hn] at h
      have hp' : pstdiv ≤ 63 := by omega
      have hf' : frefc ≤ 5 := by omega
      have hl' : 12 * frefc ≤ loopc ∧ loopc ≤ 32 * frefc := by omega
      cases h
      exact ⟨⟨hp.1, hp', hf.1, hf', hl'.1, hl'.2⟩, (dist_lt_iff _ _).mp hn⟩
    · rw [if_neg hn] at h
      cases h

theorem calFreq_isSome {clock : ℕ} {cfg : PixelClock} (hr : cfg.InRange) (hn : cfg.Near clock) :
    (calFreq clock).isSome := by
  obtain ⟨hp, hp', hf, hf', hl, hl'⟩ := hr
  unfold calFreq
  rw [List.findSome?_isSome_iff]
  refine ⟨cfg.l2Div, List.mem_range'_1.mpr (by omega), ?_⟩
  rw [List.findSome?_isSome_iff]
  refine ⟨cfg.l1Frefc, List.mem_range'_1.mpr (by omega), ?_⟩
  rw [List.findSome?_isSome_iff]
  refine ⟨cfg.l1Loopc, List.mem_range'_1.mpr (by omega), ?_⟩
  rw [if_neg (by omega), if_pos ((dist_lt_iff _ _).mpr hn)]
  rfl

/-- The dividers in range give the grid. -/
theorem onGrid_iff (g : ℕ) :
    OnGrid g ↔ ∃ f l, 3 ≤ f ∧ f ≤ 5 ∧ 12 * f ≤ l ∧ l ≤ 32 * f ∧ 100000 * l / f = g := by
  constructor
  · rintro ⟨hlo, hhi, ⟨k, hk⟩ | ⟨k, hk⟩ | ⟨k, hk⟩⟩
    · exact ⟨5, k, by omega⟩
    · exact ⟨4, k, by omega⟩
    · exact ⟨3, k, by omega⟩
  · intro ⟨f, l, hf, hf', hl, hl', hg⟩
    unfold OnGrid
    interval_cases f
    · exact ⟨by omega, by omega, .inr (.inr ⟨l, hg.symm⟩)⟩
    · exact ⟨by omega, by omega, .inr (.inl ⟨l, by omega⟩)⟩
    · exact ⟨by omega, by omega, .inl ⟨l, by omega⟩⟩

/-- The search finds dividers exactly for the clocks near the grid. -/
theorem calFreq_isSome_iff (clock : ℕ) : (calFreq clock).isSome ↔ NearGrid clock := by
  constructor
  · intro h
    obtain ⟨cfg, hcfg⟩ := Option.isSome_iff_exists.mp h
    obtain ⟨⟨hp, hp', hf, hf', hl, hl'⟩, hn, hn'⟩ := calFreq_eq_some hcfg
    exact ⟨cfg.l2Div, _, hp, hp', (onGrid_iff _).mpr ⟨_, _, hf, hf', hl, hl', rfl⟩, hn, hn'⟩
  · intro ⟨p, g, hp, hp', hg, hn, hn'⟩
    obtain ⟨f, l, hf, hf', hl, hl', rfl⟩ := (onGrid_iff g).mp hg
    have hr : PixelClock.InRange ⟨p, l, f⟩ := ⟨hp, hp', hf, hf', hl, hl'⟩
    exact calFreq_isSome hr ⟨hn, hn'⟩

/-- What the search finds is right and fits. -/
theorem PixelClock.real_of_found {clock : ℕ} {cfg : PixelClock} (h : calFreq clock = some cfg) :
    cfg.Real clock := by
  obtain ⟨⟨hp, hp', hf, hf', hl, hl'⟩, hn, hn'⟩ := calFreq_eq_some h
  have hnear : |(clock : ℤ) * cfg.l2Div - (100000 * cfg.l1Loopc / cfg.l1Frefc : ℕ)| < 1000 := by
    rw [abs_lt]
    omega
  exact ⟨h, by omega, by omega, hnear, by omega, by omega, by omega⟩

section Fields

@[simp] theorem lowField_and (x y : BitVec 32) : lowField (x &&& y) = lowField x &&& lowField y :=
  BitVec.extractLsb'_and

@[simp] theorem lowField_or (x y : BitVec 32) : lowField (x ||| y) = lowField x ||| lowField y :=
  BitVec.extractLsb'_or

@[simp] theorem lowField_shiftLeft (x : BitVec 32) {k : ℕ} (hk : 7 ≤ k) : lowField (x <<< k) = 0 := by
  apply BitVec.eq_of_getLsbD_eq
  intro i hi
  simp [lowField, show i < k by omega]

theorem lowField_ofNat (n : ℕ) : lowField (BitVec.ofNat 32 n) = BitVec.ofNat 7 n := by
  apply BitVec.eq_of_getLsbD_eq
  intro i hi
  rw [lowField, BitVec.getLsbD_extractLsb', BitVec.getLsbD_ofNat, BitVec.getLsbD_ofNat]
  simp [hi, show i < 32 by omega]

@[simp] theorem loopcField_and (x y : BitVec 32) :
    loopcField (x &&& y) = loopcField x &&& loopcField y :=
  BitVec.extractLsb'_and

@[simp] theorem loopcField_or (x y : BitVec 32) :
    loopcField (x ||| y) = loopcField x ||| loopcField y :=
  BitVec.extractLsb'_or

theorem loopcField_ofNat_shiftLeft (n : ℕ) :
    loopcField (BitVec.ofNat 32 n <<< 21) = BitVec.ofNat 9 n := by
  apply BitVec.eq_of_getLsbD_eq
  intro i hi
  rw [loopcField, BitVec.getLsbD_extractLsb', BitVec.getLsbD_shiftLeft, BitVec.getLsbD_ofNat,
    BitVec.getLsbD_ofNat]
  simp [hi, show i < 32 by omega, show 21 + i < 32 by omega]

variable (cfg : PixelClock) (val : BitVec 32)

theorem setRefc_low : lowField (setRefc cfg val) = BitVec.ofNat 7 cfg.l1Frefc := by
  have hmask : lowField (~~~0x7f#32) = 0 := by decide
  unfold setRefc
  rw [lowField_or, lowField_and, hmask, lowField_ofNat]
  simp

theorem setDivLoopc_low : lowField (setDivLoopc cfg val) = BitVec.ofNat 7 cfg.l2Div := by
  have hmask : lowField (~~~0x7f#32) = 0 := by decide
  have hmask' : lowField (~~~(0x1ff#32 <<< 21)) = BitVec.allOnes 7 := by decide
  unfold setDivLoopc
  rw [lowField_or, lowField_and, lowField_or, lowField_and, hmask, hmask',
    lowField_shiftLeft _ (by omega), lowField_ofNat, BitVec.and_allOnes]
  simp

theorem setDivLoopc_loopc : loopcField (setDivLoopc cfg val) = BitVec.ofNat 9 cfg.l1Loopc := by
  have hmask : loopcField (~~~(0x1ff#32 <<< 21)) = 0 := by decide
  unfold setDivLoopc
  rw [loopcField_or, loopcField_and, hmask, loopcField_ofNat_shiftLeft]
  simp

end Fields

section Registers
variable (hw : Hardware) (s : Io) (o : ℕ) (cfg : PixelClock)

theorem Io.rreg_low (offset : ℕ) : lowField (s.rreg hw offset).1 = lowField (s.word offset) := by
  have hmask : lowField (~~~0x80#32) = BitVec.allOnes 7 := by decide
  have hlock : lowField (if hw.locked s.reads then 0x80#32 else 0#32) = 0 := by
    split <;> decide
  unfold Io.rreg
  dsimp only
  split
  · rw [lowField_or, lowField_and, hmask, hlock, BitVec.and_allOnes]
    simp
  · rfl

@[simp] theorem Io.rreg_word (offset : ℕ) : (s.rreg hw offset).2.word = s.word := rfl

/-- The word that is changed, and the others. -/
theorem Io.change_word (offset : ℕ) (f : BitVec 32 → BitVec 32) (k : ℕ) :
    (s.change hw offset f).word k = if k = offset then f (s.rreg hw offset).1 else s.word k := rfl

/-- A change of the second word outside the field leaves the dividers. -/
theorem Io.change_dividers {f : BitVec 32 → BitVec 32}
    (hf : ∀ val, lowField (f val) = lowField val) :
    (s.change hw (o + 4) f).dividers o = s.dividers o := by
  have hlo : (s.change hw (o + 4) f).word o = s.word o := by
    rw [Io.change_word, if_neg (by omega)]
  have hhi : lowField ((s.change hw (o + 4) f).word (o + 4)) = lowField (s.word (o + 4)) := by
    rw [Io.change_word, if_pos rfl, hf, Io.rreg_low]
  unfold Io.dividers
  rw [hlo, hhi]

/-- A bit above the field is set. -/
theorem lowField_set (val bit : BitVec 32) (h : lowField bit = 0) :
    lowField (val ||| bit) = lowField val := by
  rw [lowField_or, h]
  simp

/-- A bit above the field is cleared. -/
theorem lowField_clear (val bit : BitVec 32) (h : lowField (~~~bit) = BitVec.allOnes 7) :
    lowField (val &&& ~~~bit) = lowField val := by
  rw [lowField_and, h, BitVec.and_allOnes]

/-- Both fields changed, the second word first. -/
theorem Io.change_params (hcfg : cfg.l1Frefc < 2 ^ 7 ∧ cfg.l2Div < 2 ^ 7 ∧ cfg.l1Loopc < 2 ^ 9) :
    ((s.change hw (o + 4) (setRefc cfg)).change hw o (setDivLoopc cfg)).dividers o = cfg := by
  obtain ⟨hf, hd, hl⟩ := hcfg
  unfold Io.dividers
  rw [Io.change_word, if_pos rfl, Io.change_word, if_neg (by omega), Io.change_word, if_pos rfl,
    setDivLoopc_low, setDivLoopc_loopc, setRefc_low, BitVec.toNat_ofNat, BitVec.toNat_ofNat,
    BitVec.toNat_ofNat, Nat.mod_eq_of_lt hf, Nat.mod_eq_of_lt hd, Nat.mod_eq_of_lt hl]

theorem setParams_dividers (hcfg : cfg.l1Frefc < 2 ^ 7 ∧ cfg.l2Div < 2 ^ 7 ∧ cfg.l1Loopc < 2 ^ 9) :
    (setParams hw o cfg s).dividers o = cfg := by
  unfold setParams
  dsimp only
  rw [Io.change_dividers hw _ o (fun val => lowField_clear val _ (by decide)),
    Io.change_dividers hw _ o (fun val => lowField_set val _ (by decide)),
    Io.change_params hw _ o cfg hcfg]

/-- The wait only reads. -/
theorem waitLock_word (offset n : ℕ) : (waitLock hw offset n s).2.word = s.word := by
  induction n generalizing s with
  | zero => rfl
  | succ n ih =>
    unfold waitLock
    dsimp only
    split
    · rw [ih, Io.rreg_word]
    · rw [Io.rreg_word]

theorem Io.dividers_congr {s s' : Io} (h : s.word = s'.word) (o : ℕ) :
    s.dividers o = s'.dividers o := by
  unfold Io.dividers
  rw [h]

/-- What `config_pll` leaves in the words of the PLL, whether it locks or not. -/
theorem configPll_dividers (clock : ℕ) (hio : hw.mapped = true) :
    (configPll hw clock o s).2.dividers o = (calFreq clock).getD ⟨0, 0, 0⟩ := by
  have hcfg : ((calFreq clock).getD ⟨0, 0, 0⟩).l1Frefc < 2 ^ 7 ∧
      ((calFreq clock).getD ⟨0, 0, 0⟩).l2Div < 2 ^ 7 ∧
      ((calFreq clock).getD ⟨0, 0, 0⟩).l1Loopc < 2 ^ 9 := by
    cases h : calFreq clock with
    | none => decide
    | some cfg =>
      have hreal := PixelClock.real_of_found h
      exact ⟨hreal.frefc_lt, hreal.div_lt, hreal.loopc_lt⟩
  have hset := setParams_dividers hw ((s.wreg (o + 4) 0#32).wreg o 0#32) o _ hcfg
  unfold configPll
  rw [if_neg (by simp [hio])]
  dsimp only
  split
  · rw [Io.dividers_congr (waitLock_word hw _ _ _), hset]
  · rw [Io.change_dividers hw _ o (fun val => lowField_set val _ (by decide)),
      Io.dividers_congr (waitLock_word hw _ _ _), hset]

end Registers

/-- An accepted mode is asked of the PLL by a clock of at most 340 MHz, as it is. -/
theorem DisplayMode.pllClock_eq {m : DisplayMode} (hm : modeValid m = .ok) (hc : 0 < m.clock) :
    ((if m.timing.hdisplay = 2560 then 124750 else m.timing.clock) % 4294967296).toNat =
      m.pllClock := by
  have hle : m.clock ≤ 340000 := by
    unfold modeValid at hm
    by_contra hgt
    split_ifs at hm
    omega
  have hwide : m.timing.hdisplay = 2560 ↔ m.hdisplay = 2560 := by
    change (m.hdisplay : ℤ) = 2560 ↔ _
    omega
  unfold DisplayMode.pllClock
  by_cases hw : m.hdisplay = 2560
  · rw [if_pos (hwide.mpr hw), if_pos hw]
    rfl
  · rw [if_neg (fun h => hw (hwide.mp h)), if_neg hw, show m.timing.clock = m.clock from rfl,
      Int.emod_eq_of_lt (by omega) (by omega)]

/-- What a mode leaves in the words of its PLL. -/
theorem dcCrtcTimingSet_dividers (hw : Hardware) {m : DisplayMode} {link : ℕ} (s : Io)
    (hm : modeValid m = .ok) (hc : 0 < m.clock) (hl : link < 2) (hio : hw.mapped = true) :
    (dcCrtcTimingSet hw link m.timing s).2.dividers (pixPll link) =
      (calFreq m.pllClock).getD ⟨0, 0, 0⟩ := by
  unfold dcCrtcTimingSet
  rw [if_neg (by omega)]
  dsimp only
  rw [DisplayMode.pllClock_eq hm hc, configPll_dividers hw s _ _ hio]

/-- Without a link or a mapping nothing is written. -/
theorem dcCrtcTimingSet_refused (hw : Hardware) (timing : DcTimingInfo) {link : ℕ} (s : Io)
    (h : 2 ≤ link ∨ hw.mapped = false) : dcCrtcTimingSet hw link timing s = (false, s) := by
  unfold dcCrtcTimingSet
  by_cases hl : 2 ≤ link
  · rw [if_pos hl]
  · rw [if_neg hl]
    dsimp only
    unfold configPll
    rw [if_pos (h.resolve_left hl)]

/-- The dividers of a failed search are not real. -/
theorem PixelClock.real_getD_iff (clock : ℕ) :
    ((calFreq clock).getD ⟨0, 0, 0⟩).Real clock ↔ NearGrid clock := by
  rw [← calFreq_isSome_iff]
  constructor
  · intro h
    rw [h.found]
    rfl
  · intro h
    obtain ⟨cfg, hcfg⟩ := Option.isSome_iff_exists.mp h
    rw [hcfg]
    exact PixelClock.real_of_found hcfg

/-- An accepted mode gets a real pixel clock if and only if its clock, or the one that stands for
it, is near the grid. -/
theorem dcCrtcTimingSet_real_iff (hw : Hardware) (m : DisplayMode) (link : ℕ) (s : Io)
    (hm : modeValid m = .ok) (hc : 0 < m.clock) (hl : link < 2) (hio : hw.mapped = true) :
    ((dcCrtcTimingSet hw link m.timing s).2.dividers (pixPll link)).Real m.pllClock ↔
      NearGrid m.pllClock := by
  rw [dcCrtcTimingSet_dividers hw s hm hc hl hio]
  exact PixelClock.real_getD_iff _

/-- No clock below 19.032 MHz is near the grid: even its largest multiple stays below. -/
theorem not_nearGrid_of_slow {clock : ℕ} (h : clock < 19032) : ¬ NearGrid clock := by
  intro ⟨p, g, hp, hp', ⟨hlo, _, _⟩, hn, hn'⟩
  have hle : clock * p ≤ 19031 * 63 := Nat.mul_le_mul (by omega) hp'
  omega

/-- The clock that stands for every mode of 2560 columns is near the grid. -/
theorem nearGrid_wide : NearGrid 124750 :=
  ⟨17, 2120000, by omega, by omega, ⟨by omega, by omega, .inl ⟨106, rfl⟩⟩, by omega, by omega⟩

/-- 1920×1080 at 120 Hz: no multiple of 297 MHz is near the grid. -/
theorem not_nearGrid_297 : ¬ NearGrid 297000 := by
  intro ⟨p, g, hp, hp', ⟨hlo, hhi, hg⟩, hn, hn'⟩
  have hle : 5 ≤ p := by omega
  have hge : p ≤ 10 := by omega
  obtain ⟨k, hk⟩ | ⟨k, hk⟩ | ⟨k, hk⟩ := hg
  · interval_cases p <;> omega
  · interval_cases p <;> omega
  · have hk' : 297000 * p * 3 < 100000 * k + 3000 := by omega
    have hk'' : 100000 * k < 297000 * p * 3 + 3003 := by omega
    clear hk hn hn' hlo hhi
    interval_cases p <;> omega

/-- A PLL that locks at once. -/
def lockingPll : Hardware where
  mapped := true
  locked := fun _ => true

/-- The words before anything is written. -/
def zeroIo : Io where
  word := fun _ => 0#32
  reads := 0

/-- 2560×1440 is programmed. -/
theorem dcCrtcTimingSet_real_wide :
    ((dcCrtcTimingSet lockingPll 0 (DisplayMode.mk 2560 1440 241500).timing zeroIo).2.dividers
      (pixPll 0)).Real 124750 :=
  (dcCrtcTimingSet_real_iff lockingPll ⟨2560, 1440, 241500⟩ 0 zeroIo (by decide) (by decide)
    (by decide) rfl).mpr nearGrid_wide

/-- 1920×1080 at 120 Hz is accepted, and the PLL gets dividers of zero. -/
theorem dcCrtcTimingSet_not_real :
    modeValid ⟨1920, 1080, 297000⟩ = .ok ∧
      ¬ ((dcCrtcTimingSet lockingPll 0 (DisplayMode.mk 1920 1080 297000).timing zeroIo).2.dividers
        (pixPll 0)).Real 297000 := by
  have hm : modeValid ⟨1920, 1080, 297000⟩ = .ok := by decide
  refine ⟨hm, ?_⟩
  rw [dcCrtcTimingSet_dividers lockingPll zeroIo hm (by decide) (by decide) rfl]
  intro h
  exact not_nearGrid_297 ((PixelClock.real_getD_iff _).mp h)

end Gsgpu.PixelPll
