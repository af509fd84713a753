import Mathlib.Data.Nat.Bitwise

/-! Memory of 32-bit words at byte addresses, with 64-bit values in two of them, the lower half
first. -/

/-- The word at each address that is a multiple of 4. -/
def Memory : Type := ℕ → ℕ

namespace Memory

def lower32 (v : ℕ) : ℕ := v % 2 ^ 32

def upper32 (v : ℕ) : ℕ := v / 2 ^ 32 % 2 ^ 32

def read64 (m : Memory) (a : ℕ) : ℕ := m a + m (a + 4) * 2 ^ 32

def write64 (m : Memory) (a v : ℕ) : Memory := fun x =>
  if x = a then lower32 v else if x = a + 4 then upper32 v else m x

/-- The values `v i`, `v (i + 1)`, … written to `n` places of an array at `ptr`. -/
def writeWords (ptr : ℕ) (v : ℕ → ℕ) : ℕ → ℕ → Memory → Memory
  | 0, _, m => m
  | n + 1, i, m => writeWords ptr v n (i + 1) (m.write64 (ptr + i * 8) (v i))

theorem lower32_add_upper32 {v : ℕ} (h : v < 2 ^ 64) : lower32 v + upper32 v * 2 ^ 32 = v := by
  unfold lower32 upper32
  omega

theorem write64_lower (m : Memory) (a v : ℕ) : m.write64 a v a = lower32 v := if_pos rfl

theorem write64_upper (m : Memory) (a v : ℕ) : m.write64 a v (a + 4) = upper32 v := by
  unfold write64
  rw [if_neg (by omega), if_pos rfl]

theorem write64_of_ne {m : Memory} {a v x : ℕ} (h : x ≠ a) (h' : x ≠ a + 4) :
    m.write64 a v x = m x := by
  unfold write64
  rw [if_neg h, if_neg h']

/-- The two memories hold the same at the addresses of `S`. -/
def AgreeOn (S : ℕ → Prop) (m m' : Memory) : Prop := ∀ a, S a → m a = m' a

theorem AgreeOn.read64 {S : ℕ → Prop} {m m' : Memory} (h : AgreeOn S m m') {a : ℕ} (ha : S a)
    (ha' : S (a + 4)) : m.read64 a = m'.read64 a := by
  unfold Memory.read64
  rw [h a ha, h (a + 4) ha']

theorem AgreeOn.write64 {S : ℕ → Prop} {m m' : Memory} (h : AgreeOn S m m') (a v : ℕ) :
    AgreeOn S (m.write64 a v) (m'.write64 a v) := by
  intro x hx
  unfold Memory.write64
  rw [h x hx]

/-- The same writes keep what agrees. -/
theorem AgreeOn.writeWords {S : ℕ → Prop} (ptr : ℕ) (v : ℕ → ℕ) (n : ℕ) :
    ∀ {i : ℕ} {m m' : Memory}, AgreeOn S m m' →
      AgreeOn S (Memory.writeWords ptr v n i m) (Memory.writeWords ptr v n i m') := by
  induction n with
  | zero => exact fun h => h
  | succ n ih => exact fun h => ih (h.write64 _ _)

theorem writeWords_congr {ptr : ℕ} {v v' : ℕ → ℕ} (n : ℕ) :
    ∀ {i : ℕ} {m : Memory}, (∀ j, i ≤ j → j < i + n → v j = v' j) →
      writeWords ptr v n i m = writeWords ptr v' n i m := by
  induction n with
  | zero => exact fun _ => rfl
  | succ n ih =>
    intro i m h
    simp only [writeWords]
    rw [h i le_rfl (by omega)]
    exact ih fun j hj hlt => h j (by omega) (by omega)

/-- Nothing outside the array changes. -/
theorem writeWords_frame {ptr : ℕ} {v : ℕ → ℕ} {x : ℕ} (n : ℕ) :
    ∀ {i : ℕ} {m : Memory}, x < ptr + i * 8 ∨ ptr + (i + n) * 8 ≤ x →
      writeWords ptr v n i m x = m x := by
  induction n with
  | zero => exact fun _ => rfl
  | succ n ih =>
    intro i m h
    simp only [writeWords]
    rw [ih (by omega), write64_of_ne (by omega) (by omega)]

/-- The values read back. -/
theorem read64_writeWords {ptr : ℕ} {v : ℕ → ℕ} (n : ℕ) :
    ∀ {i k : ℕ} {m : Memory}, i ≤ k → k < i + n → v k < 2 ^ 64 →
      (writeWords ptr v n i m).read64 (ptr + k * 8) = v k := by
  induction n with
  | zero => exact fun h h' => absurd h' (by omega)
  | succ n ih =>
    intro i k m hle hlt hv
    simp only [writeWords]
    by_cases hik : i = k
    · subst hik
      unfold read64
      rw [writeWords_frame n (by omega), writeWords_frame n (by omega), write64_lower,
        write64_upper]
      exact lower32_add_upper32 hv
    · exact ih (by omega) (by omega) hv

end Memory
