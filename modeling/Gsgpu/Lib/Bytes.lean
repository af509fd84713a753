import Mathlib.Data.List.Basic
import Mathlib.Tactic.Common

/-! Reads from a buffer of bytes, none where they leave it, and numbers in little-endian order. -/
namespace Bytes

/-- A buffer of a fixed size, with any content. -/
abbrev Buffer (size : ℕ) := Fin size → BitVec 8

/-- The number that bytes stand for, lowest first. -/
def value : List (BitVec 8) → ℕ
  | [] => 0
  | x :: xs => x.toNat + 256 * value xs

variable {size : ℕ}

/-- A range of bytes; an empty one is not read. -/
def Buffer.read (b : Buffer size) (pos : ℕ) : ℕ → Option (List (BitVec 8))
  | 0 => some []
  | n + 1 =>
    if h : pos < size then (b.read (pos + 1) n).map (b ⟨pos, h⟩ :: ·)
    else none

/-- A number of `n` bytes. -/
def Buffer.word (b : Buffer size) (pos n : ℕ) : Option ℕ := (b.read pos n).map value

/-- The number at a position, 0 if it is not inside. -/
def Buffer.at (b : Buffer size) (pos n : ℕ) : ℕ := (b.word pos n).getD 0

/-- Bytes up to a zero. -/
def Buffer.scan (b : Buffer size) (pos : ℕ) : Option Unit :=
  if h : pos < size then if b ⟨pos, h⟩ = 0 then some () else b.scan (pos + 1)
  else none
termination_by size - pos

/-- The byte at a position, 0 if it is not inside. -/
def Buffer.byte (b : Buffer size) (pos : ℕ) : BitVec 8 := if h : pos < size then b ⟨pos, h⟩ else 0

/-- The numbers that consecutive fields of these sizes stand for. -/
def unpack : List ℕ → List (BitVec 8) → List ℕ
  | [], _ => []
  | n :: ns, bytes => value (bytes.take n) :: unpack ns (bytes.drop n)

variable {b : Buffer size} {pos n : ℕ}

theorem Buffer.read_eq_map (h : n = 0 ∨ pos + n ≤ size) :
    b.read pos n = some ((List.range n).map fun i => b.byte (pos + i)) := by
  induction n generalizing pos with
  | zero => rfl
  | succ n ih =>
    have hin : pos < size := by omega
    have hfirst : b.byte (pos + 0) = b ⟨pos, hin⟩ := dif_pos hin
    rw [Buffer.read, dif_pos hin, ih (by omega), Option.map_some, List.range_succ_eq_map,
      List.map_cons, List.map_map, hfirst]
    simp only [Function.comp_def, Nat.succ_eq_add_one, Nat.add_assoc, Nat.add_comm 1]

theorem Buffer.read_isSome : (b.read pos n).isSome ↔ n = 0 ∨ pos + n ≤ size := by
  induction n generalizing pos with
  | zero => simp [Buffer.read]
  | succ n ih =>
    rw [Buffer.read]
    split
    case isTrue h =>
      rw [Option.isSome_map, ih]
      omega
    case isFalse h =>
      simp
      omega

theorem Buffer.word_isSome (hn : 0 < n) : (b.word pos n).isSome ↔ pos + n ≤ size := by
  rw [Buffer.word, Option.isSome_map, Buffer.read_isSome]
  omega

theorem Buffer.word_eq_some (hn : 0 < n) (h : pos + n ≤ size) :
    b.word pos n = some (b.at pos n) := by
  obtain ⟨x, hx⟩ := Option.isSome_iff_exists.mp ((Buffer.word_isSome (b := b) hn).mpr h)
  simp [Buffer.at, hx]

theorem Buffer.of_word (hn : 0 < n) {x : ℕ} (h : b.word pos n = some x) :
    pos + n ≤ size ∧ x = b.at pos n := by
  refine ⟨(Buffer.word_isSome (b := b) hn).mp (by simp [h]), ?_⟩
  simp [Buffer.at, h]

/-- A computation that begins with the read of a number. -/
theorem Buffer.isSome_word_bind {α : Type*} {f : ℕ → Option α} (hn : 0 < n) :
    ((b.word pos n).bind f).isSome ↔ pos + n ≤ size ∧ (f (b.at pos n)).isSome := by
  constructor
  · intro h
    cases hw : b.word pos n with
    | none => simp [hw] at h
    | some x =>
      obtain ⟨hin, rfl⟩ := Buffer.of_word hn hw
      exact ⟨hin, by simpa [hw] using h⟩
  · rintro ⟨hin, h⟩
    simpa [Buffer.word_eq_some hn hin] using h

theorem Buffer.scan_isSome :
    (b.scan pos).isSome ↔ ∃ q, ∃ h : q < size, pos ≤ q ∧ b ⟨q, h⟩ = 0 := by
  fun_induction Buffer.scan b pos with
  | case1 pos h hz => simpa using ⟨pos, Nat.le_refl pos, h, hz⟩
  | case2 pos h hz ih =>
    rw [ih]
    constructor
    · rintro ⟨q, hq, hle, hbyte⟩
      exact ⟨q, hq, by omega, hbyte⟩
    · rintro ⟨q, hq, hle, hbyte⟩
      have hne : q ≠ pos := by
        rintro rfl
        exact hz hbyte
      exact ⟨q, hq, by omega, hbyte⟩
  | case3 pos h =>
    simp only [Option.isSome_none, Bool.false_eq_true, false_iff]
    rintro ⟨q, hq, hle, -⟩
    omega

end Bytes
