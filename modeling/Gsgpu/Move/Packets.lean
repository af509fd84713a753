import Gsgpu.Fill.Exact
import Gsgpu.Move.Engine
import Mathlib.Tactic.Ring

/-! The IBs of a move: every packet is a rectangle of exactly the bytes it is meant for, the IBs fit
their allocations, and their pixels follow each other without a gap. -/
namespace Gsgpu.Move
open Gsgpu.Vm (u64)
open Gsgpu.PageTable (u32 xdmaRows xdmaPitch xdmaCopy xdmaRingPadIb gspktNop ibPoolSize)
open Memory (lower32 upper32)

/-! ### One packet -/

/-- Halving `k` times is exact for a multiple of `2 ^ k`. -/
theorem xdmaRows_exact (k : ℕ) : ∀ {w : ℕ} (h : ℕ), w < 2 ^ (16 + k) → w % 2 ^ k = 0 →
    (xdmaRows w h).1 * (xdmaRows w h).2 = w * h ∧ (xdmaRows w h).2 ≤ h * 2 ^ k := by
  induction k with
  | zero =>
    intro w h hw _
    rw [Fill.xdmaRows_of_lt h hw]
    exact ⟨rfl, (Nat.mul_one h).ge⟩
  | succ k ih =>
    intro w h hw hdvd
    by_cases hge : 0x10000 ≤ w
    · rw [xdmaRows, if_pos hge]
      obtain ⟨v, rfl⟩ : ∃ v, w = 2 ^ k * 2 * v := by
        rw [← pow_succ]
        exact Nat.dvd_of_mod_eq_zero hdvd
      have hhalf : 2 ^ k * 2 * v / 2 = 2 ^ k * v := by
        rw [Nat.mul_right_comm]
        exact Nat.mul_div_cancel _ (by decide)
      have hlt : 2 ^ k * v < 2 ^ (16 + k) := by
        rw [← Nat.add_assoc, pow_succ] at hw
        rw [Nat.mul_right_comm] at hw
        omega
      rw [hhalf]
      obtain ⟨hmul, hle⟩ := ih (h * 2) hlt (Nat.mul_mod_right _ _)
      constructor
      · rw [hmul]
        ring
      · rw [pow_succ, Nat.mul_comm (2 ^ k) 2, ← Nat.mul_assoc]
        exact hle
    · rw [Fill.xdmaRows_of_lt h (not_le.mp hge)]
      exact ⟨rfl, Nat.le_mul_of_pos_right h (Nat.two_pow_pos _)⟩

/-- The bytes that one packet is meant for. -/
structure Chunk where
  src : ℕ
  dst : ℕ
  bytes : ℕ

/-- Its packet. -/
def Chunk.packet (c : Chunk) : List ℕ := xdmaEmitCopyBuffer [] c.src c.dst c.bytes

/-- The rectangle that the packet says. -/
def Chunk.rect (c : Chunk) : Rect :=
  let (width, height) := xdmaRows (c.bytes / 8) 1
  ⟨c.src, c.dst, width, height, xdmaPitch width, xdmaPitch width⟩

/-- The rectangle is of these bytes, and a packet can hold it. -/
structure Chunk.Exact (c : Chunk) : Prop where
  pos : 0 < c.bytes
  width_lt : c.rect.width < 2 ^ 16
  height_lt : c.rect.height < 2 ^ 16
  bytes_eq : c.rect.width * c.rect.height * 8 = c.bytes
  src_lt : c.src < 2 ^ 64
  dst_lt : c.dst < 2 ^ 64

section Chunk
variable {c : Chunk}

theorem Chunk.packet_length (c : Chunk) : c.packet.length = 9 := by
  simp [Chunk.packet, xdmaEmitCopyBuffer]

/-- A chunk of at most `2 ^ (19 + k)` bytes that is halved at most `k` times. -/
theorem Chunk.exact_of (k : ℕ) (hk : k < 16) (hpos : 0 < c.bytes) (hlt : c.bytes / 8 < 2 ^ (16 + k))
    (hwhole : c.bytes / 8 % 2 ^ k = 0) (hbytes : c.bytes % 8 = 0) (hsrc : c.src < 2 ^ 64)
    (hdst : c.dst < 2 ^ 64) : c.Exact := by
  obtain ⟨hmul, hle⟩ := xdmaRows_exact k 1 hlt hwhole
  have hpow : 2 ^ k < 2 ^ 16 := Nat.pow_lt_pow_right (by decide) hk
  constructor
  · exact hpos
  · exact Fill.xdmaRows_lt _ _
  · show (xdmaRows (c.bytes / 8) 1).2 < 2 ^ 16
    omega
  · show (xdmaRows (c.bytes / 8) 1).1 * (xdmaRows (c.bytes / 8) 1).2 * 8 = c.bytes
    omega
  · exact hsrc
  · exact hdst

theorem Chunk.Exact.ibRects (hc : c.Exact) (rest : List ℕ) :
    ibRects (c.packet ++ rest) = c.rect :: Move.ibRects rest := by
  obtain ⟨hlow, hhigh⟩ := Fill.fill_size_word hc.width_lt hc.height_lt
  unfold Chunk.packet xdmaEmitCopyBuffer
  simp only [List.nil_append, List.cons_append]
  rw [Move.ibRects, if_pos rfl]
  congr 1
  unfold Rect.ofArgs
  simp only [List.getD_cons_zero, List.getD_cons_succ, Memory.lower32_add_upper32 hc.src_lt,
    Memory.lower32_add_upper32 hc.dst_lt]
  unfold Chunk.rect at hlow hhigh ⊢
  dsimp only at hlow hhigh ⊢
  rw [hlow, hhigh]

/-- The rows follow each other without a gap. -/
theorem Chunk.Exact.pixels (hc : c.Exact) :
    c.rect.pixels = rowPixels c.src c.dst (c.bytes / 8) := by
  have hbytes := hc.bytes_eq
  have hpos := hc.pos
  have hwidth : c.rect.width ≠ 0 := by
    intro hz
    rw [hz] at hbytes
    omega
  have hpitch : c.rect.srcPitch = c.rect.width * 8 ∧ c.rect.dstPitch = c.rect.width * 8 := by
    have : xdmaPitch c.rect.width = c.rect.width * 8 := by
      unfold PageTable.xdmaPitch
      rw [if_neg hwidth]
    exact ⟨this, this⟩
  have hcount : c.bytes / 8 = c.rect.height * c.rect.width := by
    rw [Nat.mul_comm c.rect.height]
    omega
  unfold Rect.pixels
  rw [hpitch.1, hpitch.2, hcount]
  unfold rowPixels
  rw [← Tiles.flatMap_range_mul]
  simp only [Nat.add_mul, Nat.mul_assoc, Nat.add_assoc]
  rfl

end Chunk

/-! ### The packets of an IB -/

theorem ibRects_nops (n : ℕ) : ibRects (List.replicate n gspktNop) = [] := by
  induction n with
  | zero => rw [List.replicate_zero, ibRects]
  | succ n ih => rw [List.replicate_succ, ibRects, if_neg (by decide), ih]

theorem ibRects_packets {chunks : List Chunk} (hexact : ∀ c ∈ chunks, c.Exact) :
    ibRects (xdmaRingPadIb (chunks.flatMap Chunk.packet)) = chunks.map Chunk.rect := by
  unfold PageTable.xdmaRingPadIb
  generalize (8 - (chunks.flatMap Chunk.packet).length % 8) % 8 = n
  induction chunks with
  | nil => exact ibRects_nops n
  | cons c chunks ih =>
    rw [List.flatMap_cons, List.append_assoc, (hexact c (by simp)).ibRects,
      ih (fun c' hc' => hexact c' (by simp [hc'])), List.map_cons]

theorem packets_length (chunks : List Chunk) :
    (xdmaRingPadIb (chunks.flatMap Chunk.packet)).length = alignDw (chunks.length * copyNumDw) := by
  have hlen : (chunks.flatMap Chunk.packet).length = chunks.length * copyNumDw := by
    rw [List.length_flatMap]
    simp only [Chunk.packet_length, List.map_const', List.sum_replicate_nat]
    rfl
  unfold PageTable.xdmaRingPadIb alignDw
  rw [List.length_append, List.length_replicate, hlen]

/-- The IB stays within the dwords allocated for it, the entries behind the commands. -/
structure Job.Fits (j : Job) : Prop where
  commands : j.ib.length ≤ j.numDw
  entries : j.numDw * 4 + j.entries.length * 8 ≤ j.allocated

/-- The packets are those emitted for chunks, and every one is a rectangle of exactly its chunk. -/
def Job.Exact (j : Job) : Prop := ∃ chunks : List Chunk,
  j.ib = xdmaRingPadIb (chunks.flatMap Chunk.packet) ∧ ibRects j.ib = chunks.map Chunk.rect ∧
    ∀ c ∈ chunks, c.rect.width < 2 ^ 16 ∧ c.rect.width * c.rect.height * 8 = c.bytes

theorem Job.Exact.of_chunks {j : Job} {chunks : List Chunk}
    (hib : j.ib = xdmaRingPadIb (chunks.flatMap Chunk.packet)) (hexact : ∀ c ∈ chunks, c.Exact) :
    j.Exact := by
  refine ⟨chunks, hib, ?_, fun c hc => ⟨(hexact c hc).width_lt, (hexact c hc).bytes_eq⟩⟩
  rw [hib]
  exact ibRects_packets hexact

/-! ### `gsgpu_copy_buffer` -/

/-- `n` packets are just enough. -/
structure Loops (n bytes : ℕ) : Prop where
  lt : (n - 1) * copyMaxBytes < bytes
  le : bytes ≤ n * copyMaxBytes

section Loops
variable {n src dst bytes : ℕ}

/-- After the first packet of at least two. -/
theorem Loops.next (h : Loops (n + 2) bytes) :
    min bytes copyMaxBytes = copyMaxBytes ∧ Loops (n + 1) (bytes - copyMaxBytes) := by
  have hlt : (n + 1) * copyMaxBytes < bytes := h.lt
  have hle : bytes ≤ (n + 1 + 1) * copyMaxBytes := h.le
  rw [Nat.succ_mul] at hlt hle
  refine ⟨by omega, ?_, ?_⟩
  · rw [Nat.add_sub_cancel]
    omega
  · omega

/-- The last packet. -/
theorem Loops.last (h : Loops 1 bytes) : 0 < bytes ∧ min bytes copyMaxBytes = bytes := by
  have hlt := h.lt
  have hle := h.le
  rw [Nat.one_mul] at hle
  exact ⟨by omega, min_eq_left hle⟩

theorem Loops.pos (h : Loops n bytes) : ∃ k, n = k + 1 := by
  cases n with
  | zero =>
    have hlt := h.lt
    have hle := h.le
    omega
  | succ k => exact ⟨k, rfl⟩

end Loops

end Gsgpu.Move
