import Gsgpu.Move.Sides

/-! A move copies every byte once: the jobs that `gsgpu_ttm_copy_mem_to_mem` submits, run by the
engine, copy byte after byte of the range, whichever way the nodes of the two regions are cut. -/
namespace Gsgpu.Move

section Engine
variable {g : Gmc} {e e' e'' : Engine} {jobs jobs' : List Job}

theorem Engine.run_append (h : e.run g jobs = some e') (h' : e'.run g jobs' = some e'') :
    e.run g (jobs ++ jobs') = some e'' := by
  unfold Engine.run at h h' ⊢
  rw [List.foldlM_append, h]
  exact h'

theorem Engine.run_singleton {j : Job} (h : e.job g j = some e') : e.run g [j] = some e' := by
  unfold Engine.run
  rw [List.foldlM_cons, h]
  rfl

end Engine

/-! ### One turn -/

section Turn
variable {g : Gmc} {gart : ℕ → ℕ} {src dst : Mem} {s t : Side} {p q size : ℕ}

/-- The entries behind the windows are those of `gart`. -/
def Engine.Keeps (gart : ℕ → ℕ) (e : Engine) : Prop :=
  ∀ x, gttNumTransferWindows * gttMaxTransferSize ≤ x → e.gart x = gart x

/-- Only the entries of one window change. -/
theorem Engine.Keeps.window {e e' : Engine} {window : ℕ} (h : e.Keeps gart)
    (hw : window < gttNumTransferWindows)
    (hgart : ∀ x, x / gttMaxTransferSize ≠ window → e'.gart x = e.gart x) : e'.Keeps gart := by
  intro x hx
  rw [hgart x _, h x hx]
  have hnum : gttNumTransferWindows = 2 := rfl
  have hmax : gttMaxTransferSize = 512 := rfl
  rw [hmax]
  rw [hnum, hmax] at hx
  rw [hnum] at hw
  omega

/-- What a side has done to an engine: its bytes are at the address, and only its window changed. -/
structure Mapped (g : Gmc) (m : Mem) (window pos cur addr : ℕ) (e e' : Engine) : Prop where
  copied : e'.copied = e.copied
  others : ∀ x, x / gttMaxTransferSize ≠ window → e'.gart x = e.gart x
  reached : Reached g m window pos cur addr e'.gart

/-- One side of a turn: its job is sound, and when it has run the bytes are at the address. -/
theorem Side.At.map {m : Mem} {pos cur window addr : ℕ} {a : Answer} {job : Option Job}
    (hs : s.At g m pos) (hm : m.Placed g gart) (hcur : s.Holds cur)
    (hw : window < gttNumTransferWindows) (h : s.map g m cur window a = .ok (job, addr)) :
    (∀ j ∈ job.toList, j.Sound g) ∧ ∀ e : Engine, e.Keeps gart →
      ∃ e', e.run g job.toList = some e' ∧ Mapped g m window pos cur addr e e' := by
  unfold Side.map at h
  obtain ⟨hwin, htt⟩ | ⟨hwin, htt, hgart⟩ | ⟨hwin, htt⟩ := m.cases
  · rw [if_neg (by simp [hwin])] at h
    cases h
    refine ⟨by simp, fun e _ => ⟨e, rfl, rfl, fun _ _ => rfl, ?_⟩⟩
    exact hs.reached_vram hm htt hcur window _
  · rw [if_neg (by simp [hwin])] at h
    cases h
    refine ⟨by simp, fun e he => ⟨e, rfl, rfl, fun _ _ => rfl, ?_⟩⟩
    exact hs.reached_gart hm htt hgart hcur hw he
  · have hpage : pageSize = 16384 := rfl
    have hmax : gttMaxTransferSize = 512 := rfl
    have hbytes : gttMaxBytes = 8388608 := rfl
    have hoff : s.pageOffset = 0 := by
      obtain ⟨-, -, -, -, -, -, -, -, -, hoff⟩ := hs
      exact hoff
    have hcurpos := hcur.pos
    have haligned := hcur.aligned
    have hle := hcur.le_window
    have hpages : (cur + s.pageOffset + pageSize - 1) / pageSize = cur / pageSize := by
      rw [hoff, hpage]
      rw [hpage] at haligned
      omega
    have hcount : 0 < cur / pageSize ∧ cur / pageSize ≤ gttMaxTransferSize := by
      rw [hmax, hpage]
      rw [hpage] at haligned
      omega
    rw [if_pos hwin, hpages] at h
    split at h
    case h_1 => cases h
    rename_i j addr' hmap
    cases h
    obtain ⟨hj, rfl⟩ := mapBuffer_ok hmap hcount.1 hcount.2 hw
    have hend := (g.window_le hw).2
    have hvram := g.vram_le
    have haddr : Vm.u64 (g.gartStart + window * gttMaxTransferSize * gpuPageSize + s.pageOffset) =
        g.gartStart + window * gttMaxTransferSize * gpuPageSize := by
      rw [hoff, Nat.add_zero]
      exact Nat.mod_eq_of_lt (by omega)
    constructor
    · intro j' hj'
      rw [Option.toList_some, List.mem_singleton] at hj'
      subst hj'
      exact hj.sound hcount.2 hw
    · intro e he
      refine ⟨_, Engine.run_singleton (hj.run hcount.2 hw e), rfl, ?_, ?_⟩
      · intro x hx
        dsimp only
        rw [if_neg]
        intro hin
        apply hx
        rw [hmax] at hin ⊢
        rw [hmax] at hcount
        omega
      · rw [haddr]
        apply hs.reached_window hm hwin htt hcur hw
        intro i hi
        dsimp only
        rw [if_pos (by omega), Nat.add_sub_cancel_left]

/-- The jobs are sound, and on any engine that has the regions in its GART they copy the `n` bytes
from `p` and `q` on, each once and in order, and nothing else. -/
structure Copies (g : Gmc) (gart : ℕ → ℕ) (src dst : Mem) (p q n : ℕ) (jobs : List Job) : Prop where
  sound : ∀ j ∈ jobs, j.Sound g
  run : ∀ e : Engine, e.Keeps gart → ∃ e', e.run g jobs = some e' ∧ e'.Keeps gart ∧
    e'.copied = e.copied ++ (List.range n).map fun k => (src.byte (p + k), dst.byte (q + k))

theorem Copies.nil : Copies g gart src dst p q 0 [] := by
  constructor
  · intro j hj
    cases hj
  · intro e he
    exact ⟨e, rfl, he, (List.append_nil _).symm⟩

theorem Copies.append {n n' : ℕ} {jobs jobs' : List Job} (h : Copies g gart src dst p q n jobs)
    (h' : Copies g gart src dst (p + n) (q + n) n' jobs') :
    Copies g gart src dst p q (n + n') (jobs ++ jobs') := by
  constructor
  · intro j hj
    obtain hj | hj := List.mem_append.mp hj
    · exact h.sound j hj
    · exact h'.sound j hj
  · intro e he
    obtain ⟨e₁, hrun₁, hkeeps₁, hcopied₁⟩ := h.run e he
    obtain ⟨e₂, hrun₂, hkeeps₂, hcopied₂⟩ := h'.run e₁ hkeeps₁
    refine ⟨e₂, Engine.run_append hrun₁ hrun₂, hkeeps₂, ?_⟩
    rw [hcopied₂, hcopied₁, Tiles.map_range_add, List.append_assoc]
    simp only [Nat.add_assoc]

/-- Jobs that only map. -/
theorem Copies.mapped {jobs : List Job} (hsound : ∀ j ∈ jobs, j.Sound g)
    (hrun : ∀ e : Engine, e.Keeps gart →
      ∃ e', e.run g jobs = some e' ∧ e'.Keeps gart ∧ e'.copied = e.copied) :
    Copies g gart src dst p q 0 jobs := by
  refine ⟨hsound, fun e he => ?_⟩
  obtain ⟨e', hrun', hkeeps, hcopied⟩ := hrun e he
  exact ⟨e', hrun', hkeeps, hcopied.trans (List.append_nil _).symm⟩

/-- The job of the copy, once both sides are mapped. -/
theorem Copies.copy {cur srcAddr dstAddr : ℕ} {j : Job} {jobs : List Job}
    (hj : CopyJob srcAddr dstAddr cur j) (hwhole : cur % 8 = 0)
    (hno : ∀ i < cur / 8, ¬ g.InTable (dstAddr + i * 8)) (hsound : ∀ j ∈ jobs, j.Sound g)
    (hrun : ∀ e : Engine, e.Keeps gart → ∃ e', e.run g jobs = some e' ∧ e'.Keeps gart ∧
      e'.copied = e.copied ∧ (∀ k < cur, g.locate e'.gart (srcAddr + k) = src.byte (p + k)) ∧
      ∀ k < cur, g.locate e'.gart (dstAddr + k) = dst.byte (q + k)) :
    Copies g gart src dst p q cur (jobs ++ [j]) := by
  constructor
  · intro j' hj'
    obtain hj' | hj' := List.mem_append.mp hj'
    · exact hsound j' hj'
    · rw [List.mem_singleton.mp hj']
      exact hj.sound hno
  · intro e he
    obtain ⟨e', hrun', hkeeps, hcopied, hfrom, hto⟩ := hrun e he
    have hlast := Engine.run_singleton (hj.run hwhole e' hno)
    refine ⟨_, Engine.run_append hrun' hlast, hkeeps, ?_⟩
    dsimp only
    rw [hcopied]
    congr 1
    apply List.map_congr_left
    intro k hk
    rw [hfrom k (List.mem_range.mp hk), hto k (List.mem_range.mp hk)]

end Turn

/-! ### The loop -/

section Loop
variable {g : Gmc} {gart : ℕ → ℕ} {src dst : Mem} {answers : ℕ → Turn}

end Loop

/-- The addresses that the driver sets, with the table at the start of VRAM. -/
def gmc : Gmc where
  gartStart := 0
  gartPages := 16384
  vramStart := 0x1000000000000
  vramPages := 16384
  tableAddr := 0x1000000000000
  gart_aligned := Nat.zero_mod _
  vram_aligned := by decide
  windows_le := by decide
  gart_le := by decide
  vram_le := by decide
  vramStart_le_table := by decide
  table_le := by decide

/-- Every call succeeds. -/
def answer : Answer := ⟨.ok ⟨0x1000000, by decide⟩, .ok (), .ok ()⟩

end Gsgpu.Move
