import Gsgpu.Lib.Bits
import Gsgpu.PageTable.Paths

/-! The CPU and the XDMA write the same page table entries. -/
namespace Gsgpu.PageTable
open Gsgpu.Vm (u64)
open Memory (lower32 upper32 AgreeOn writeWords)

/-! ### The words written -/

/-- The entry the CPU writes at index `j`. -/
def cpuWord (pages : Option (ℕ → ℕ)) (addr incr flags j : ℕ) : ℕ :=
  (entryAddr pages (u64 (addr + j * incr)) &&& 0xFFFFFFFFFFFFF000) ||| flags

theorem cpuSetLoop_eq (pages : Option (ℕ → ℕ)) (pe addr incr flags n : ℕ) :
    ∀ {i : ℕ} {m : Memory},
      cpuSetLoop pages pe incr flags n i (u64 (addr + i * incr)) m =
        writeWords pe (cpuWord pages addr incr flags) n i m := by
  induction n with
  | zero => exact rfl
  | succ n ih =>
    intro i m
    have hnext : u64 (u64 (addr + i * incr) + incr) = u64 (addr + (i + 1) * incr) := by
      unfold u64
      rw [Nat.mod_add_mod, Nat.add_assoc, ← Nat.succ_mul]
    unfold cpuSetLoop writeWords
    rw [hnext, ih]
    rfl

theorem and_pteMask {a : ℕ} (ha : a < 2 ^ 64) (hz : a % 2 ^ 12 = 0) :
    a &&& 0xFFFFFFFFFFFFF000 = a := by
  have h := Bits.and_shiftLeft_mask a 12 52
  rw [Nat.mod_eq_of_lt ha] at h
  refine h.trans ?_
  omega

/-- With a page's address and flags below it, the increment of the hardware is the driver's. -/
theorem cpuWord_none {addr flags : ℕ} (haddr : addr % 2 ^ 12 = 0) (hf : flags < 2 ^ 14) (j : ℕ) :
    cpuWord none addr gpuPageSize flags j = u64 ((u64 addr ||| flags) + j * gpuPageSize) := by
  have hsz : gpuPageSize = 16384 := rfl
  have hsplit : ∀ a : ℕ, a ||| flags = a / 2 ^ 14 * 2 ^ 14 + (a % 2 ^ 14 ||| flags) := by
    intro a
    have h := Bits.mul_two_pow_add_or (q := a / 2 ^ 14) (Nat.mod_lt a (Nat.two_pow_pos 14)) hf
    rwa [Nat.div_add_mod'] at h
  have hmask : u64 (addr + j * gpuPageSize) &&& 0xFFFFFFFFFFFFF000 =
      u64 (addr + j * gpuPageSize) := by
    apply and_pteMask (Nat.mod_lt _ (by decide))
    rw [hsz]
    omega
  have hlow : u64 (addr + j * gpuPageSize) % 2 ^ 14 = u64 addr % 2 ^ 14 := by
    rw [hsz]
    unfold u64
    omega
  have hsum : u64 addr % 2 ^ 14 ||| flags < 2 ^ 14 :=
    Nat.or_lt_two_pow (Nat.mod_lt _ (by decide)) hf
  show (u64 (addr + j * gpuPageSize) &&& 0xFFFFFFFFFFFFF000) ||| flags = _
  rw [hmask, hsplit, hsplit (u64 addr), hlow]
  obtain ⟨s, hs⟩ : ∃ s, s = u64 addr % 2 ^ 14 ||| flags := ⟨_, rfl⟩
  rw [← hs] at hsum ⊢
  rw [hsz]
  unfold u64
  omega

theorem vmMapGart_lt (dma : ℕ → ℕ) (addr : ℕ) : vmMapGart dma addr < 2 ^ 64 := by
  unfold vmMapGart gpuPageShift
  have h := Bits.and_shiftLeft_mask (dma (addr / pageSize) ||| addr % pageSize) 14 50
  have hmask : (2 ^ 50 - 1) <<< 14 = 2 ^ 64 - 2 ^ 14 := by decide
  rw [hmask] at h
  rw [h]
  omega

theorem vmMapGart_mod (dma : ℕ → ℕ) (addr : ℕ) : vmMapGart dma addr % 2 ^ 12 = 0 := by
  unfold vmMapGart gpuPageShift
  have h := Bits.and_shiftLeft_mask (dma (addr / pageSize) ||| addr % pageSize) 14 50
  have hmask : (2 ^ 50 - 1) <<< 14 = 2 ^ 64 - 2 ^ 14 := by decide
  rw [hmask] at h
  rw [h]
  omega

/-- With pages, the entry is the one put into the IB. -/
theorem cpuWord_some (dma : ℕ → ℕ) {addr incr flags : ℕ} (j : ℕ) :
    cpuWord (some dma) addr incr flags j = vmMapGart dma (u64 (addr + j * incr)) ||| flags := by
  show (vmMapGart dma _ &&& 0xFFFFFFFFFFFFF000) ||| flags = _
  rw [and_pteMask (vmMapGart_lt _ _) (vmMapGart_mod _ _)]

/-! ### The packets executed -/

theorem xdmaRows_small {count : ℕ} (h : count ≤ vmPteCount) : xdmaRows count 1 = (count, 1) := by
  have hc : vmPteCount = 2048 := rfl
  rw [xdmaRows, if_neg (by omega)]

/-- The size word of a packet of one row. -/
theorem size_word {count : ℕ} (h : count ≤ vmPteCount) :
    u32 (1 <<< 16 ||| count) % 2 ^ 16 = count ∧ u32 (1 <<< 16 ||| count) / 2 ^ 16 = 1 := by
  have hc : vmPteCount = 2048 := rfl
  have hor : 1 <<< 16 ||| count = 1 * 2 ^ 16 + count := by
    have h' := Bits.mul_two_pow_add_or (q := 1) (r := 0) (f := count) (k := 16) (by decide)
      (by omega)
    simpa using h'
  rw [hor]
  unfold u32
  omega

theorem xdmaExec_memset (args rest : List ℕ) (m : Memory) (h : args.length = 8) :
    xdmaExec (xdmaMemset :: args ++ rest) m =
      xdmaExec rest (execMemset (args ++ rest) m) := by
  rw [List.cons_append, xdmaExec, if_pos rfl, List.drop_left' h]

theorem xdmaExec_copy (args rest : List ℕ) (m : Memory) (h : args.length = 8) :
    xdmaExec (xdmaCopy :: args ++ rest) m = xdmaExec rest (execCopy (args ++ rest) m) := by
  rw [List.cons_append, xdmaExec, if_neg (by decide), if_pos rfl, List.drop_left' h]

/-- A fill of one row. -/
theorem exec_xdmaVmSetPtePde {ib : List ℕ} {m₀ m : Memory} {pe addr count flags : ℕ}
    (hib : ∀ rest, xdmaExec (ib ++ rest) m₀ = xdmaExec rest m) (hc : count ≤ vmPteCount)
    (hpe : pe < 2 ^ 64) (haddr : addr < 2 ^ 64) (hf : flags < 2 ^ 64) (rest : List ℕ) :
    xdmaExec (xdmaVmSetPtePde ib pe addr count flags ++ rest) m₀ =
      xdmaExec rest (writeWords pe (fun i => u64 ((addr ||| flags) + i * gpuPageSize)) count 0 m) := by
  unfold xdmaVmSetPtePde
  rw [xdmaRows_small hc]
  dsimp only
  rw [List.append_assoc, hib, xdmaExec_memset _ _ _ rfl]
  congr 1
  unfold execMemset
  simp only [List.cons_append, List.getD_cons_zero, List.getD_cons_succ]
  rw [Memory.lower32_add_upper32 (Nat.or_lt_two_pow haddr hf), Memory.lower32_add_upper32 hpe,
    (size_word hc).1, (size_word hc).2, Nat.mul_one]

/-- A row copied to a place apart from it. -/
theorem copyRow_eq {src dst : ℕ} {v : ℕ → ℕ} (n : ℕ) :
    ∀ {i : ℕ} {m : Memory}, (∀ j, i ≤ j → j < i + n → m.read64 (src + j * 8) = v j) →
      dst + (i + n) * 8 ≤ src + i * 8 ∨ src + (i + n) * 8 ≤ dst + i * 8 →
      copyRow src dst n i m = writeWords dst v n i m := by
  induction n with
  | zero => exact fun _ _ => rfl
  | succ n ih =>
    intro i m hv hapart
    unfold copyRow writeWords
    rw [hv i le_rfl (by omega)]
    refine ih (fun j hj hlt => ?_) (by omega)
    rw [← hv j (by omega) (by omega)]
    unfold Memory.read64
    rw [Memory.write64_of_ne (by omega) (by omega), Memory.write64_of_ne (by omega) (by omega)]

/-- A copy of one row. -/
theorem exec_xdmaVmCopyPte {ib : List ℕ} {m₀ m : Memory} {pe src count : ℕ} {v : ℕ → ℕ}
    (hib : ∀ rest, xdmaExec (ib ++ rest) m₀ = xdmaExec rest m) (hc : count ≤ vmPteCount)
    (hpe : pe < 2 ^ 64) (hsrc : src < 2 ^ 64)
    (hv : ∀ j, j < count → m.read64 (src + j * 8) = v j)
    (hapart : pe + count * 8 ≤ src ∨ src + count * 8 ≤ pe) (rest : List ℕ) :
    xdmaExec (xdmaVmCopyPte ib pe src count ++ rest) m₀ =
      xdmaExec rest (writeWords pe v count 0 m) := by
  unfold xdmaVmCopyPte
  rw [xdmaRows_small hc]
  dsimp only
  rw [List.append_assoc, hib, xdmaExec_copy _ _ _ rfl]
  congr 1
  unfold execCopy
  simp only [List.cons_append, List.getD_cons_zero, List.getD_cons_succ]
  rw [Memory.lower32_add_upper32 hsrc, Memory.lower32_add_upper32 hpe, (size_word hc).1,
    (size_word hc).2]
  simp only [copyRows, Nat.zero_mul, Nat.add_zero]
  exact copyRow_eq count (fun j _ hj => hv j (by omega)) (by omega)

/-! ### The two memories -/

/-- Inside the IB of `size` bytes at `ib`. -/
def InIb (ib size a : ℕ) : Prop := ib ≤ a ∧ a < ib + size

/-- The IB does not overlap a table or its shadow. -/
structure IbApart (L : Layout) (ib size : ℕ) : Prop where
  le : ib + size ≤ 2 ^ 64
  apart : ∀ c t, ValidTable t → L.base c t + vmPteCount * pdePteSize ≤ ib ∨ ib + size ≤ L.base c t

/-- The commands emitted so far, run from `m₀`, give the memory of the CPU's run outside the IB
and leave the IB alone. -/
def Sim (ib size : ℕ) (m₀ : Memory) (n : ℕ) (m₁ : Memory) (dw : List ℕ) : Prop :=
  dw.length = 9 * n ∧ ∃ m, (∀ rest, xdmaExec (dw ++ rest) m₀ = xdmaExec rest m) ∧
    AgreeOn (fun a => ¬ InIb ib size a) m m₁ ∧ AgreeOn (InIb ib size) m m₀

/-- One more packet writes what the CPU writes. -/
theorem Sim.packet {ib size n ptr count : ℕ} {m₀ m₁ : Memory} {dw dw' : List ℕ} {v : ℕ → ℕ}
    (h : Sim ib size m₀ n m₁ dw) (hlen : dw'.length = dw.length + 9)
    (hapart : ptr + count * 8 ≤ ib ∨ ib + size ≤ ptr)
    (hexec : ∀ m, (∀ rest, xdmaExec (dw ++ rest) m₀ = xdmaExec rest m) →
      AgreeOn (InIb ib size) m m₀ → ∀ rest, xdmaExec (dw' ++ rest) m₀ =
        xdmaExec rest (writeWords ptr v count 0 m)) :
    Sim ib size m₀ (n + 1) (writeWords ptr v count 0 m₁) dw' := by
  obtain ⟨hl, m, hrun, hout, hin⟩ := h
  refine ⟨by omega, writeWords ptr v count 0 m, hexec m hrun hin, hout.writeWords ptr v count, ?_⟩
  intro a ha
  obtain ⟨hge, hlt⟩ := ha
  rw [Memory.writeWords_frame count (by omega)]
  exact hin a ⟨hge, hlt⟩

section Writes
variable {L : Layout} {env : CpuEnv} {ib size n k count incr fl d : ℕ} {m₀ m₁ : Memory}
  {dw : List ℕ} {c : Copy} {t : Table}

theorem vmCpuSetPtes_eq (pages : Option (ℕ → ℕ)) (hkmap : env.kmap c t = true) (m : Memory) :
    vmCpuSetPtes L env pages c t (k * pdePteSize) (u64 d) count incr fl m =
      writeWords (L.base c t + k * pdePteSize) (cpuWord pages d incr fl) count 0 m := by
  have h := cpuSetLoop_eq pages (L.base c t + k * pdePteSize) d incr fl count (i := 0) (m := m)
  rw [Nat.zero_mul, Nat.add_zero] at h
  unfold vmCpuSetPtes
  rw [if_pos hkmap, h]

theorem entries_le (L : Layout) (c : Copy) (ht : ValidTable t) (hk : k + count ≤ vmPteCount) :
    L.base c t + k * pdePteSize + count * 8 ≤ 2 ^ 64 := by
  have hlt : L.base c t + 16384 ≤ 2 ^ 64 := L.lt c t ht
  have hk' : k + count ≤ 2048 := hk
  show L.base c t + k * 8 + count * 8 ≤ 2 ^ 64
  omega

/-- The address of the entries, as the XDMA is given it. -/
theorem u64_pe (ht : ValidTable t) (hk : k + count ≤ vmPteCount) (hc : 0 < count) :
    u64 (k * pdePteSize + L.base c t) = L.base c t + k * pdePteSize := by
  have hle := entries_le L c ht hk
  rw [Nat.add_comm]
  apply Nat.mod_eq_of_lt
  omega

theorem entries_apart (hL : IbApart L ib size) (c : Copy) (ht : ValidTable t)
    (hk : k + count ≤ vmPteCount) :
    L.base c t + k * pdePteSize + count * 8 ≤ ib ∨ ib + size ≤ L.base c t + k * pdePteSize := by
  have h : L.base c t + 16384 ≤ ib ∨ ib + size ≤ L.base c t := hL.apart c t ht
  have hk' : k + count ≤ 2048 := hk
  show L.base c t + k * 8 + count * 8 ≤ ib ∨ ib + size ≤ L.base c t + k * 8
  omega

/-- `gsgpu_vm_do_set_ptes` beside `gsgpu_vm_cpu_set_ptes`. -/
theorem Sim.set (hL : IbApart L ib size) (h : Sim ib size m₀ n m₁ dw)
    (hkmap : env.kmap c t = true) (ht : ValidTable t) (hk : k + count ≤ vmPteCount)
    (hc : 0 < count) (hincr : incr = gpuPageSize ∨ count = 1) (hd : d % 2 ^ 12 = 0)
    (hf : fl < 2 ^ 14) :
    Sim ib size m₀ (n + 1) (vmCpuSetPtes L env none c t (k * pdePteSize) (u64 d) count incr fl m₁)
      (vmDoSetPtes L c t (k * pdePteSize) (u64 d) count incr fl dw) := by
  have hpe := entries_le L c ht hk
  unfold vmDoSetPtes
  rw [vmCpuSetPtes_eq none hkmap, u64_pe ht hk hc]
  apply h.packet
  · simp [xdmaVmSetPtePde]
  · exact entries_apart hL c ht hk
  · intro m hrun _ rest
    have hd64 : u64 d < 2 ^ 64 := Nat.mod_lt _ (by decide)
    rw [exec_xdmaVmSetPtePde hrun (by omega) (by omega) hd64 (hf.trans (by decide))]
    congr 1
    apply Memory.writeWords_congr
    intro j _ hj
    rw [← cpuWord_none hd hf]
    obtain rfl | hone := hincr
    · rfl
    · have : j = 0 := by omega
      subst this
      simp [cpuWord]

/-- `gsgpu_vm_do_copy_ptes` beside `gsgpu_vm_cpu_set_ptes`, for the entries of the IB from index
`off` on. -/
theorem Sim.copy (hL : IbApart L ib size) (h : Sim ib size m₀ n m₁ dw)
    (hkmap : env.kmap c t = true) (ht : ValidTable t) (hk : k + count ≤ vmPteCount)
    (hc : 0 < count) (hincr : incr = gpuPageSize ∨ count = 1) {dma : ℕ → ℕ}
    {src addr off nptes : ℕ} (hsrc : ib ≤ src) (hsize : src + nptes * 8 = ib + size)
    (hoff : off + count ≤ nptes) (hnptes : nptes ≤ 2 ^ 17)
    (hpte : ∀ i, i < nptes → m₀.read64 (src + i * 8) = ibPte dma addr fl i) :
    Sim ib size m₀ (n + 1)
      (vmCpuSetPtes L env (some dma) c t (k * pdePteSize) (u64 (addr + off * gpuPageSize)) count
        incr fl m₁)
      (vmDoCopyPtes L src c t (k * pdePteSize) (u64 (0 + off * gpuPageSize)) count incr fl dw) := by
  have hpe := entries_le L c ht hk
  have hle := hL.le
  have h8 : pdePteSize = 8 := rfl
  have hsz : gpuPageSize = 16384 := rfl
  have hidx : u64 (src + u64 (0 + off * gpuPageSize) / gpuPageSize * pdePteSize) = src + off * 8 := by
    have hdiv : u64 (0 + off * gpuPageSize) / gpuPageSize = off := by
      rw [hsz]
      unfold u64
      omega
    rw [hdiv, h8]
    apply Nat.mod_eq_of_lt
    omega
  have hap := entries_apart hL c ht hk
  unfold vmDoCopyPtes
  rw [vmCpuSetPtes_eq (some dma) hkmap, u64_pe ht hk hc, hidx]
  apply h.packet
  · simp [xdmaVmCopyPte]
  · exact hap
  · intro m hrun hin rest
    apply exec_xdmaVmCopyPte hrun (by omega) (by omega) (by omega)
    · intro j hj
      rw [hin.read64 ⟨by omega, by omega⟩ ⟨by omega, by omega⟩, Nat.add_assoc, ← Nat.add_mul,
        hpte (off + j) (by omega), cpuWord_some]
      unfold ibPte
      congr 2
      obtain rfl | hone := hincr
      · rw [hsz]
        unfold u32 u64
        omega
      · have : j = 0 := by omega
        subst this
        rw [hsz]
        unfold u32 u64
        omega
    · omega

end Writes

/-! ### The two paths -/

/-- The packets of one turn. -/
def packets : Bool → ℕ
  | false => 1
  | true => 2

/-- A write of a table and of its shadow. -/
theorem Sim.both {p₁ : Params Memory} {p₂ : Params (List ℕ)} {shadow : Bool} {t : Table}
    {ib size n pe d₁ d₂ count incr fl : ℕ} {m₀ m₁ : Memory} {dw : List ℕ}
    (hstep : ∀ c n m dw, Sim ib size m₀ n m dw →
      Sim ib size m₀ (n + 1) (p₁.func c t pe d₁ count incr fl m)
        (p₂.func c t pe d₂ count incr fl dw))
    (h : Sim ib size m₀ (n * packets shadow) m₁ dw) :
    Sim ib size m₀ ((n + 1) * packets shadow) (writeBoth p₁ shadow t pe d₁ count incr fl m₁)
      (writeBoth p₂ shadow t pe d₂ count incr fl dw) := by
  cases shadow with
  | false =>
    rw [show (n + 1) * packets false = n * packets false + 1 by simp only [packets, Nat.mul_one]]
    exact hstep .main _ _ _ h
  | true =>
    rw [show (n + 1) * packets true = n * packets true + 1 + 1 by simp only [packets]; omega]
    exact hstep .main _ _ _ (hstep .shadow _ _ _ h)

section Update
variable {L : Layout} {pages : Option (ℕ → ℕ)} {start last flags addr : ℕ}

theorem ibNptes_eq (h : start ≤ last) (hl : last < maxPfn) :
    ibNptes start last = last + 1 - start := by
  unfold maxPfn at hl
  unfold ibNptes u32
  omega

theorem blocks_le (start last : ℕ) : blocks start (last + 1) ≤ (last + 1 - start) / 2 ^ 11 + 2 := by
  unfold blocks
  rw [show vmPteCount = 2048 from rfl]
  split <;> omega

theorem xdmaParams_func_length (src : ℕ) (c : Copy) (t : Table) (pe d count incr fl : ℕ)
    (dw : List ℕ) :
    ((xdmaParams L pages src).func c t pe d count incr fl dw).length = dw.length + 9 := by
  cases pages with
  | none => simp [xdmaParams, vmDoSetPtes, xdmaVmSetPtePde]
  | some dma => simp [xdmaParams, vmDoCopyPtes, xdmaVmCopyPte]

theorem u64_dst_start {start d : ℕ} (hd : d < 2 ^ 64) :
    d = u64 (d + (start - start) * gpuPageSize) := by
  rw [Nat.sub_self, Nat.zero_mul, Nat.add_zero]
  exact (Nat.mod_eq_of_lt hd).symm

/-- Every turn emits its packets of nine dwords. -/
theorem xdma_length (src fin dst : ℕ) (T : Tree (List ℕ)) (hT : T.mem = []) (hd : dst < 2 ^ 64) :
    (ptesUpdated (xdmaParams L pages src) start fin dst flags T).mem.length =
      9 * (blocks start fin * packets T.shadow) := by
  have hturn : ∀ n t pe d count incr fl, ∀ dw : List ℕ, dw.length = 9 * (n * packets T.shadow) →
      (writeBoth (xdmaParams L pages src) T.shadow t pe d count incr fl dw).length =
        9 * ((n + 1) * packets T.shadow) := by
    intro n t pe d count incr fl dw hr
    unfold writeBoth
    cases hsh : T.shadow with
    | false =>
      rw [hsh] at hr
      simp only [Bool.false_eq_true, if_false, xdmaParams_func_length, packets] at hr ⊢
      omega
    | true =>
      rw [hsh] at hr
      simp only [if_true, xdmaParams_func_length, packets] at hr ⊢
      omega
  have h := (ptesUpdated_alike (xdmaParams L pages src) (xdmaParams L pages src) Iff.rfl start fin
    dst dst flags T.shadow (fun n _ dw => dw.length = 9 * (n * packets T.shadow))
    (fun n _ _ t k count incr fl _ dw _ _ _ hr => hturn n t _ _ count incr fl dw hr)
    T 0 T le_rfl rfl ⟨rfl, rfl, rfl⟩ (u64_dst_start hd) (u64_dst_start hd) (by simp [hT])).2
  rwa [Nat.zero_add] at h

theorem xdmaExec_nops (n : ℕ) (m : Memory) : xdmaExec (List.replicate n gspktNop) m = m := by
  induction n with
  | zero => rw [List.replicate_zero, xdmaExec]
  | succ n ih => rw [List.replicate_succ, xdmaExec, if_neg (by decide), if_neg (by decide), ih]

theorem xdmaRingPadIb_length (dw : List ℕ) : (xdmaRingPadIb dw).length ≤ dw.length + 7 := by
  unfold xdmaRingPadIb
  simp only [List.length_append, List.length_replicate]
  omega

/-- The array of entries is in the IB, behind the commands. -/
theorem loadIb_read64 {ib ndw array nptes i : ℕ} {pte : ℕ → ℕ} {dw : List ℕ} (m : Memory)
    (hdw : dw.length ≤ array) (hsize : array + nptes * 2 = ndw) (hi : i < nptes)
    (hpte : pte i < 2 ^ 64) :
    (loadIb ib ndw array pte dw m).read64 (ib + array * 4 + i * 8) = pte i := by
  have hlow : (ib + array * 4 + i * 8 - ib) / 4 = array + 2 * i := by omega
  have hhigh : (ib + array * 4 + i * 8 + 4 - ib) / 4 = array + 2 * i + 1 := by omega
  unfold Memory.read64 loadIb
  dsimp only
  rw [hlow, hhigh, if_pos ⟨by omega, by omega⟩, if_neg (by omega), if_pos (by omega),
    if_pos (by omega), if_pos ⟨by omega, by omega⟩, if_neg (by omega), if_pos (by omega),
    if_neg (by omega), show (array + 2 * i - array) / 2 = i by omega,
    show (array + 2 * i + 1 - array) / 2 = i by omega]
  exact Memory.lower32_add_upper32 hpte

theorem loadIb_outside {ib ndw array a : ℕ} {pte : ℕ → ℕ} {dw : List ℕ} (m : Memory)
    (h : ¬ InIb ib (ndw * 4) a) : loadIb ib ndw array pte dw m a = m a := by
  unfold loadIb
  apply if_neg
  rintro ⟨ha, hd⟩
  exact h ⟨by omega, by omega⟩

/-- The entries at the end of the IB. -/
def ibPtes (pages : Option (ℕ → ℕ)) (addr flags i : ℕ) : ℕ :=
  match pages with
  | some dma => ibPte dma addr flags i
  | none => 0

/-- What a successful update by the XDMA has done. -/
theorem vmBoUpdateMappingXdma_ok {env : XdmaEnv} {T T₂ : Tree Memory}
    (hleaf : ∀ pfn, start ≤ pfn → pfn < u64 (last + 1) → T.HasLeaf pfn)
    (h : vmBoUpdateMappingXdma L env pages start last flags addr T = .ok (.ok (), T₂)) :
    let ndw := ibNdw T.shadow pages (ibNptes start last)
    let array := if pages.isSome then ndw - ibNptes start last * 2 else ndw
    ∃ ib, env.alloc = .ok ib ∧ u32 (ndw * 4) ≤ ibPoolSize ∧ ∃ T',
      T' = ptesUpdated (xdmaParams L pages (u64 (ib + array * 4))) start (u64 (last + 1))
        (if pages.isSome then 0 else addr) flags { T with mem := [] } ∧
      T₂ = { T' with
        mem := xdmaExec (xdmaRingPadIb T'.mem)
          (loadIb ib ndw array (ibPtes pages addr flags) (xdmaRingPadIb T'.mem) T.mem) } := by
  intro ndw array
  have hleaf' : ∀ pfn, start ≤ pfn → pfn < u64 (last + 1) →
      ({ T with mem := [] } : Tree (List ℕ)).HasLeaf pfn :=
    fun pfn h₁ h₂ => ⟨(hleaf pfn h₁ h₂).lt, (hleaf pfn h₁ h₂).root, (hleaf pfn h₁ h₂).dir,
      (hleaf pfn h₁ h₂).leaf⟩
  unfold vmBoUpdateMappingXdma at h
  dsimp only at h
  by_cases hpool : ibPoolSize < u32 (ndw * 4)
  · rw [if_pos hpool] at h
    cases h
  rw [if_neg hpool] at h
  cases halloc : env.alloc with
  | error e =>
    rw [halloc] at h
    cases h
  | ok ib =>
    cases hsync : env.sync with
    | some e =>
      rw [halloc, hsync] at h
      cases h
    | none =>
      rw [halloc, hsync] at h
      dsimp only at h
      rw [vmUpdatePtes_eq hleaf'] at h
      dsimp only at h
      cases hsubmit : env.submit with
      | some e =>
        rw [hsubmit] at h
        cases h
      | none =>
        rw [hsubmit] at h
        injection h with h
        exact ⟨ib, rfl, Nat.not_lt.mp hpool, _, rfl, (Prod.mk.inj h).2.symm⟩

/-- The IB is padded and run. -/
theorem Sim.padded {ib size n : ℕ} {m₀ m₁ : Memory} {dw : List ℕ}
    (h : Sim ib size m₀ n m₁ dw) :
    AgreeOn (fun a => ¬ InIb ib size a) (xdmaExec (xdmaRingPadIb dw) m₀) m₁ := by
  obtain ⟨_, m, hrun, hout, _⟩ := h
  unfold xdmaRingPadIb
  rw [hrun, xdmaExec_nops]
  exact hout

theorem BlockWrite.valid {huge : Bool} {a nptes flags : ℕ} {t : Table} {k count incr fl : ℕ}
    (h : BlockWrite huge a nptes flags t k count incr fl) (ha : a < maxPfn) : ValidTable t := by
  obtain rfl | rfl := h.table
  · exact valid_leafOf ha
  · exact valid_dirOf ha

/-- Addresses written directly. -/
theorem ptesUpdated_sim_set {env : CpuEnv} {ib size : ℕ} {m₀ : Memory} {T : Tree Memory}
    (hL : IbApart L ib size) (hkmap : ∀ c t, env.kmap c t = true) (hlast : last < maxPfn)
    (haddr : addr % 2 ^ 12 = 0) (haddr' : addr < 2 ^ 64) (hf : flags < 2 ^ 14)
    (hm₀ : AgreeOn (fun a => ¬ InIb ib size a) m₀ T.mem) (src : ℕ) :
    let T₁ := ptesUpdated (cpuParams L env none) start (last + 1) addr flags T
    let T₂ := ptesUpdated (xdmaParams L none src) start (last + 1) addr flags { T with mem := [] }
    T₁.Alike T₂ ∧ Sim ib size m₀ (blocks start (last + 1) * packets T.shadow) T₁.mem T₂.mem := by
  have h := ptesUpdated_alike (cpuParams L env none) (xdmaParams L none src) Iff.rfl start
    (last + 1) addr addr flags T.shadow
    (fun n m dw => Sim ib size m₀ (n * packets T.shadow) m dw) ?_ T 0 { T with mem := [] } le_rfl
    rfl ⟨rfl, rfl, rfl⟩ (u64_dst_start haddr') (u64_dst_start haddr') ?_
  · rwa [Nat.zero_add] at h
  · intro n a nptes t k count incr fl m dw ha hfin hw hr
    have hc := hw.count_pos
    have hcn := hw.count_le
    have hfl : fl < 2 ^ 14 := by
      obtain rfl | ⟨_, rfl⟩ := hw.flags
      · exact hf
      · exact Nat.or_lt_two_pow hf (by decide)
    apply Sim.both _ hr
    intro c n m dw hr
    apply hr.set hL (hkmap c t) (hw.valid (by omega)) hw.inside hw.count_pos hw.incr _ hfl
    have hsz : gpuPageSize = 16384 := rfl
    rw [hsz]
    omega
  · rw [Nat.zero_mul]
    exact ⟨rfl, m₀, fun rest => rfl, hm₀, fun a _ => rfl⟩

/-- Entries copied from the IB. -/
theorem ptesUpdated_sim_copy {env : CpuEnv} {ib size src nptes : ℕ} {m₀ : Memory}
    {T : Tree Memory} {dma : ℕ → ℕ} (hL : IbApart L ib size)
    (hkmap : ∀ c t, env.kmap c t = true) (hlast : last < maxPfn) (haddr : addr < 2 ^ 64)
    (hm₀ : AgreeOn (fun a => ¬ InIb ib size a) m₀ T.mem) (hsrc : ib ≤ src) (hsrc' : 0 < src)
    (hsize : src + nptes * 8 = ib + size) (hn : nptes = last + 1 - start)
    (hnptes : nptes ≤ 2 ^ 17)
    (hpte : ∀ i, i < nptes → m₀.read64 (src + i * 8) = ibPte dma addr flags i) :
    let T₁ := ptesUpdated (cpuParams L env (some dma)) start (last + 1) addr flags T
    let T₂ := ptesUpdated (xdmaParams L (some dma) src) start (last + 1) 0 flags
      { T with mem := [] }
    T₁.Alike T₂ ∧ Sim ib size m₀ (blocks start (last + 1) * packets T.shadow) T₁.mem T₂.mem := by
  have hiff : (cpuParams L env (some dma)).src = 0 ↔ (xdmaParams L (some dma) src).src = 0 := by
    simp [cpuParams, xdmaParams]
    omega
  have h := ptesUpdated_alike (cpuParams L env (some dma)) (xdmaParams L (some dma) src) hiff start
    (last + 1) addr 0 flags T.shadow
    (fun n m dw => Sim ib size m₀ (n * packets T.shadow) m dw) ?_ T 0 { T with mem := [] } le_rfl
    rfl ⟨rfl, rfl, rfl⟩ (u64_dst_start haddr) (u64_dst_start (by decide)) ?_
  · rwa [Nat.zero_add] at h
  · intro n a np t k count incr fl m dw ha hfin hw hr
    have hc := hw.count_pos
    have hcn := hw.count_le
    have hfl : fl = flags := by
      obtain rfl | ⟨hhuge, _⟩ := hw.flags
      · rfl
      · simp [cpuParams] at hhuge
    subst hfl
    apply Sim.both _ hr
    intro c n m dw hr
    exact hr.copy hL (hkmap c t) (hw.valid (by omega)) hw.inside hw.count_pos hw.incr hsrc hsize
      (by omega) hnptes hpte
  · rw [Nat.zero_mul]
    exact ⟨rfl, m₀, fun rest => rfl, hm₀, fun a _ => rfl⟩

theorem ibCommands_eq (shadow : Bool) (nptes : ℕ) :
    ibCommands shadow nptes = 64 + 9 * ((nptes / 2 ^ 11 + 2) * packets shadow) := by
  cases shadow with
  | false =>
    simp only [ibCommands, packets, Bool.false_eq_true, if_false]
    omega
  | true =>
    simp only [ibCommands, packets, if_true]
    omega

theorem packets_le (shadow : Bool) : packets shadow ≤ 2 := by
  cases shadow <;> decide

/-- The commands of an update and their padding end before the array of entries. -/
theorem xdmaRingPadIb_le (src dst : ℕ) (T : Tree (List ℕ)) (hT : T.mem = []) (hd : dst < 2 ^ 64) :
    (xdmaRingPadIb (ptesUpdated (xdmaParams L pages src) start (last + 1) dst flags T).mem).length ≤
      ibCommands T.shadow (last + 1 - start) := by
  have hpad := xdmaRingPadIb_length
    (ptesUpdated (xdmaParams L pages src) start (last + 1) dst flags T).mem
  rw [xdma_length src (last + 1) dst T hT hd] at hpad
  have hblocks : blocks start (last + 1) * packets T.shadow ≤
      ((last + 1 - start) / 2 ^ 11 + 2) * packets T.shadow :=
    Nat.mul_le_mul_right _ (blocks_le start last)
  rw [ibCommands_eq]
  omega

/-- The sizes of an IB with entries: 32 bits hold them, and the pool bounds the entries. -/
theorem ibNdw_some (shadow : Bool) (dma : ℕ → ℕ) {nptes : ℕ} (hn : nptes ≤ 2 ^ 26) :
    ibNdw shadow (some dma) nptes = ibCommands shadow nptes + nptes * 2 ∧
      (u32 (ibNdw shadow (some dma) nptes * 4) ≤ ibPoolSize → nptes ≤ 2 ^ 17) := by
  have hpk : (nptes / 2 ^ 11 + 2) * packets shadow ≤ (nptes / 2 ^ 11 + 2) * 2 :=
    Nat.mul_le_mul_left _ (packets_le shadow)
  have hndw : ibNdw shadow (some dma) nptes = ibCommands shadow nptes + nptes * 2 := by
    show u32 (ibCommands shadow nptes + nptes * 2) = _
    rw [ibCommands_eq]
    apply Nat.mod_eq_of_lt
    omega
  refine ⟨hndw, fun hpool => ?_⟩
  rw [hndw, ibCommands_eq] at hpool
  have hmod : u32 ((64 + 9 * ((nptes / 2 ^ 11 + 2) * packets shadow) + nptes * 2) * 4) =
      (64 + 9 * ((nptes / 2 ^ 11 + 2) * packets shadow) + nptes * 2) * 4 :=
    Nat.mod_eq_of_lt (by omega)
  rw [hmod] at hpool
  unfold ibPoolSize at hpool
  omega

/-- No table is in the IB. -/
theorem tables_agree {ib size : ℕ} {m₁ m₂ : Memory} (hL : IbApart L ib size)
    (h : AgreeOn (fun a => ¬ InIb ib size a) m₂ m₁) {c : Copy} {t : Table} {k : ℕ}
    (ht : ValidTable t) (hk : k < vmPteCount) :
    m₁.read64 (L.slot c t k) = m₂.read64 (L.slot c t k) := by
  have hk' : k + 1 ≤ vmPteCount := hk
  have hap := entries_apart hL c ht hk'
  have hout : ∀ x, x = 0 ∨ x = 4 → ¬ InIb ib size (L.slot c t k + x) := by
    rintro x hx ⟨hge, hlt⟩
    unfold Layout.slot at hge hlt
    omega
  exact (h.read64 (hout 0 (.inl rfl)) (hout 4 (.inr rfl))).symm

/-- An update by the CPU and one by the XDMA that both return 0 leave the same entries in every
directory, table and shadow, and the same tree. The BOs can be mapped by the CPU; addresses given
without pages are those of pages, with flags below them. -/
theorem cpu_xdma_agree {cenv : CpuEnv} {xenv : XdmaEnv} {T T₁ T₂ : Tree Memory}
    (hrange : start ≤ last) (hleaf : ∀ pfn, start ≤ pfn → pfn ≤ last → T.HasLeaf pfn)
    (haddr : addr < 2 ^ 64) (hflags : flags < 2 ^ 64)
    (hplain : pages = none → addr % 2 ^ 12 = 0 ∧ flags < 2 ^ 14)
    (hkmap : ∀ c t, cenv.kmap c t = true)
    (hib : ∀ ib, xenv.alloc = .ok ib →
      IbApart L ib (ibNdw T.shadow pages (ibNptes start last) * 4))
    (h₁ : vmBoUpdateMappingCpu L cenv pages start last flags addr T = .ok (.ok (), T₁))
    (h₂ : vmBoUpdateMappingXdma L xenv pages start last flags addr T = .ok (.ok (), T₂)) :
    T₁.Alike T₂ ∧ ∀ c t k, ValidTable t → k < vmPteCount →
      T₁.mem.read64 (L.slot c t k) = T₂.mem.read64 (L.slot c t k) := by
  have hlast : last < maxPfn := (hleaf last hrange le_rfl).lt
  have hfin : u64 (last + 1) = last + 1 := by
    unfold maxPfn at hlast
    exact Nat.mod_eq_of_lt (by omega)
  have hleaf' : ∀ pfn, start ≤ pfn → pfn < u64 (last + 1) → T.HasLeaf pfn :=
    fun pfn hge hlt => hleaf pfn hge (by omega)
  have hN := ibNptes_eq hrange hlast
  obtain ⟨ib, halloc, hpool, T', hT', hT₂⟩ := vmBoUpdateMappingXdma_ok hleaf' h₂
  have hL := hib ib halloc
  have hT₁ : T₁ = ptesUpdated (cpuParams L cenv pages) start (last + 1) addr flags T := by
    unfold vmBoUpdateMappingCpu at h₁
    cases hwait : cenv.wait with
    | some e =>
      rw [hwait] at h₁
      cases h₁
    | none =>
      rw [hwait] at h₁
      dsimp only at h₁
      rw [vmUpdatePtes_eq hleaf', hfin] at h₁
      injection h₁ with h₁
      exact (Prod.mk.inj h₁).2.symm
  rw [hfin] at hT'
  -- the memory the IB runs on: the tables are as before
  have hm₀ : ∀ ndw array pte dw, AgreeOn (fun a => ¬ InIb ib (ndw * 4) a)
      (loadIb ib ndw array pte dw T.mem) T.mem :=
    fun _ _ _ _ _ ha => loadIb_outside T.mem ha
  suffices hsim : T₁.Alike T' ∧ ∃ m₀ n, T₂.mem = xdmaExec (xdmaRingPadIb T'.mem) m₀ ∧
      Sim ib (ibNdw T.shadow pages (ibNptes start last) * 4) m₀ n T₁.mem T'.mem by
    obtain ⟨halike, m₀, n, hmem, hsim⟩ := hsim
    refine ⟨?_, fun c t k ht hk => ?_⟩
    · rw [hT₂]
      exact ⟨halike.shadow, halike.pt, halike.relocated⟩
    · rw [hmem]
      exact tables_agree hL hsim.padded ht hk
  cases pages with
  | none =>
    obtain ⟨hd, hf⟩ := hplain rfl
    obtain ⟨halike, hsim⟩ := ptesUpdated_sim_set hL hkmap hlast hd haddr hf (hm₀ _ _ _ _) _
    rw [hT₁, hT₂, hT']
    exact ⟨halike, _, _, rfl, hsim⟩
  | some dma =>
    have hn : last + 1 - start ≤ 2 ^ 26 := by
      unfold maxPfn at hlast
      omega
    obtain ⟨hndw, hsmall⟩ := ibNdw_some T.shadow dma hn
    rw [hN] at hpool hL hT' hT₂ ⊢
    have harray : ibNdw T.shadow (some dma) (last + 1 - start) - (last + 1 - start) * 2 =
        ibCommands T.shadow (last + 1 - start) := by omega
    simp only [Option.isSome_some, if_true, harray] at hT' hT₂
    have hle := hL.le
    have hsrc : u64 (ib + ibCommands T.shadow (last + 1 - start) * 4) =
        ib + ibCommands T.shadow (last + 1 - start) * 4 := by
      apply Nat.mod_eq_of_lt
      omega
    have hpos : 0 < ibCommands T.shadow (last + 1 - start) := by
      rw [ibCommands_eq]
      omega
    rw [hsrc] at hT'
    have hlen : (xdmaRingPadIb T'.mem).length ≤ ibCommands T.shadow (last + 1 - start) := by
      rw [hT']
      exact xdmaRingPadIb_le _ 0 { T with mem := [] } rfl (by decide)
    have hpte : ∀ i, i < last + 1 - start →
        (loadIb ib (ibNdw T.shadow (some dma) (last + 1 - start))
          (ibCommands T.shadow (last + 1 - start)) (ibPtes (some dma) addr flags)
          (xdmaRingPadIb T'.mem) T.mem).read64
            (ib + ibCommands T.shadow (last + 1 - start) * 4 + i * 8) =
          ibPte dma addr flags i :=
      fun i hi => loadIb_read64 T.mem hlen hndw.symm hi
        (Nat.or_lt_two_pow (vmMapGart_lt _ _) hflags)
    obtain ⟨halike, hsim⟩ := ptesUpdated_sim_copy hL hkmap hlast haddr (hm₀ _ _ _ _)
      (by omega) (by omega) (by omega) (rfl : last + 1 - start = last + 1 - start)
      (hsmall hpool) hpte
    rw [← hT', ← hT₁] at halike hsim
    exact ⟨halike, _, _, by rw [hT₂], hsim⟩

end Update

/-! ### Addresses and flags that are not those of a page -/

/-- The two paths agree for this address and these flags, whatever else they are given. -/
def PathsAgree (addr flags : ℕ) : Prop :=
  ∀ (L : Layout) (cenv : CpuEnv) (xenv : XdmaEnv) (pages : Option (ℕ → ℕ)) (start last : ℕ)
    (T T₁ T₂ : Tree Memory), start ≤ last →
    (∀ pfn, start ≤ pfn → pfn ≤ last → T.HasLeaf pfn) → (∀ c t, cenv.kmap c t = true) →
    (∀ ib, xenv.alloc = .ok ib →
      IbApart L ib (ibNdw T.shadow pages (ibNptes start last) * 4)) →
    vmBoUpdateMappingCpu L cenv pages start last flags addr T = .ok (.ok (), T₁) →
    vmBoUpdateMappingXdma L xenv pages start last flags addr T = .ok (.ok (), T₂) →
    ∀ c t k, ValidTable t → k < vmPteCount →
      T₁.mem.read64 (L.slot c t k) = T₂.mem.read64 (L.slot c t k)

/-- A tree with one leaf table. -/
def oneLeaf : Tree Memory where
  shadow := false
  pt := fun t => ⟨t == [] || t == [0] || t == [0, 0], t == [] || t == [0], false, false⟩
  relocated := []
  mem := fun _ => 0

theorem oneLeaf_hasLeaf {pfn : ℕ} (h : pfn < 2048) : oneLeaf.HasLeaf pfn := by
  have hdir : dirOf pfn = [0] := by
    simp only [dirOf, List.cons.injEq, and_true]
    omega
  have hleaf : leafOf pfn = [0, 0] := by
    simp only [leafOf, List.cons.injEq, and_true]
    omega
  exact ⟨by unfold maxPfn; omega, rfl, by rw [hdir]; rfl, by rw [hleaf]; rfl⟩

/-- The first two pages, written by the CPU. -/
def twoPagesCpu (addr flags : ℕ) : Tree Memory :=
  blockUpdated (cpuParams denseLayout ⟨none, fun _ _ => true⟩ none) 0 2 addr flags oneLeaf

/-- And by the XDMA, with the IB at `2^40`. -/
def twoPagesXdma (addr flags : ℕ) : Tree Memory :=
  let T := blockUpdated (xdmaParams denseLayout none (2 ^ 40 + 82 * 4)) 0 2 addr flags
    { oneLeaf with mem := [] }
  { T with
    mem := xdmaExec (xdmaRingPadIb T.mem)
      (loadIb (2 ^ 40) 82 82 (fun _ => 0) (xdmaRingPadIb T.mem) oneLeaf.mem) }

theorem twoPagesCpu_run (addr flags : ℕ) :
    vmBoUpdateMappingCpu denseLayout ⟨none, fun _ _ => true⟩ none 0 1 flags addr oneLeaf =
      .ok (.ok (), twoPagesCpu addr flags) := by
  have hleaf : ∀ pfn, 0 ≤ pfn → pfn < u64 (1 + 1) → oneLeaf.HasLeaf pfn := by
    intro pfn _ h
    have h' : pfn < 2 := h
    exact oneLeaf_hasLeaf (by omega)
  show vmUpdatePtes (cpuParams denseLayout ⟨none, fun _ _ => true⟩ none) 0 (u64 (1 + 1)) addr flags
    oneLeaf = _
  rw [vmUpdatePtes_eq hleaf, ptesUpdated_block _ _ _ _ (by decide) (by decide)]
  rfl

theorem twoPagesXdma_run (addr flags : ℕ) :
    vmBoUpdateMappingXdma denseLayout ⟨.ok (2 ^ 40), none, none⟩ none 0 1 flags addr oneLeaf =
      .ok (.ok (), twoPagesXdma addr flags) := by
  have hleaf : ∀ pfn, 0 ≤ pfn → pfn < u64 (1 + 1) →
      ({ oneLeaf with mem := [] } : Tree (List ℕ)).HasLeaf pfn := by
    intro pfn _ h
    have h' : pfn < 2 := h
    have hl : oneLeaf.HasLeaf pfn := oneLeaf_hasLeaf (by omega)
    exact ⟨hl.lt, hl.root, hl.dir, hl.leaf⟩
  unfold vmBoUpdateMappingXdma
  dsimp only
  rw [if_neg (by decide), vmUpdatePtes_eq hleaf,
    ptesUpdated_block _ _ _ _ (by decide) (by decide)]
  rfl

theorem twoPages_ibApart : ∀ ib, (Except.ok (2 ^ 40) : Except Errno ℕ) = .ok ib →
    IbApart denseLayout ib (ibNdw oneLeaf.shadow none (ibNptes 0 1) * 4) := by
  intro ib hib
  cases hib
  refine ⟨by decide, fun c t ht => .inl ?_⟩
  have := denseIndex_lt ht
  show (2 * denseIndex t + if c = .main then 0 else 1) * 16384 + 16384 ≤ 2 ^ 40
  split <;> omega

theorem cpu_xdma_agree_twoPages :
    (twoPagesCpu (2 ^ 20) 1).Alike (twoPagesXdma (2 ^ 20) 1) ∧
      (twoPagesCpu (2 ^ 20) 1).mem.read64 (denseLayout.slot .main [0, 0] 1) =
        (twoPagesXdma (2 ^ 20) 1).mem.read64 (denseLayout.slot .main [0, 0] 1) := by
  have h := cpu_xdma_agree (by decide : 0 ≤ 1) (fun pfn _ hp => oneLeaf_hasLeaf (by omega))
    (by decide) (by decide) (fun _ => by decide) (fun _ _ => rfl) twoPages_ibApart
    (twoPagesCpu_run (2 ^ 20) 1) (twoPagesXdma_run (2 ^ 20) 1)
  exact ⟨h.1, h.2 _ _ _ (by decide) (by decide)⟩

/-- The hardware adds 16K to address and flags as they are. -/
theorem twoPagesXdma_read64 {addr flags k : ℕ} (haddr : addr < 2 ^ 64) (hf : flags < 2 ^ 64)
    (hhuge : flags.testBit 1 = false) (hk : k < 2) :
    (twoPagesXdma addr flags).mem.read64 (denseLayout.slot .main [0, 0] k) =
      u64 ((addr ||| flags) + k * gpuPageSize) := by
  have hdw : (blockUpdated (xdmaParams denseLayout none (2 ^ 40 + 82 * 4)) 0 2 addr flags
      { oneLeaf with mem := [] }).mem =
      xdmaVmSetPtePde [] (denseLayout.base .main [0, 0]) addr 2 flags := by
    rw [blockUpdated_of_leaf _ (by rw [hugeFlags, if_neg (by decide)]; exact hhuge)]
    rfl
  unfold twoPagesXdma
  dsimp only
  rw [hdw, xdmaRingPadIb, exec_xdmaVmSetPtePde (m := loadIb _ _ _ _ _ _) (fun rest => rfl)
    (by decide) (by decide) haddr hf, xdmaExec_nops]
  exact Memory.read64_writeWords 2 (Nat.zero_le k) (by omega) (Nat.mod_lt _ (by decide))

/-- With an address inside a page the CPU drops its low bits and the XDMA does not; with a flag of
the page's size the XDMA carries it into the address and the CPU does not. -/
theorem cpu_xdma_differ : ¬ PathsAgree 0x800 1 ∧ ¬ PathsAgree 0 (2 ^ 14) := by
  have hrun : ∀ addr flags, PathsAgree addr flags → ∀ k, k < vmPteCount →
      (twoPagesCpu addr flags).mem.read64 (denseLayout.slot .main [0, 0] k) =
        (twoPagesXdma addr flags).mem.read64 (denseLayout.slot .main [0, 0] k) := by
    intro addr flags h k hk
    exact h _ _ _ _ _ _ oneLeaf _ _ (by decide) (fun pfn _ hp => oneLeaf_hasLeaf (by omega))
      (fun _ _ => rfl) twoPages_ibApart (twoPagesCpu_run addr flags) (twoPagesXdma_run addr flags)
      _ _ _ (by decide) hk
  constructor
  · intro h
    have heq := hrun _ _ h 0 (by decide)
    rw [twoPagesXdma_read64 (by decide) (by decide) (by decide) (by decide)] at heq
    exact absurd heq (by decide +kernel)
  · intro h
    have heq := hrun _ _ h 1 (by decide)
    rw [twoPagesXdma_read64 (by decide) (by decide) (by decide) (by decide)] at heq
    exact absurd heq (by decide +kernel)

end Gsgpu.PageTable
