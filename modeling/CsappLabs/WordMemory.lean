/-
# Byte memory with little-endian 32-bit words

A memory is a map from byte addresses to bytes.  `read32` and `write32` are the
32-bit loads and stores of a little-endian machine.  The two facts every proof
about a memory-resident data structure needs are here: a store is read back at
its own address (`read32_write32_same`), and it is invisible at every address
whose four bytes lie elsewhere (`read32_write32_disjoint`).

`EqOutside m m' lo hi` says that `m'` differs from `m` at most on `[lo, hi)`;
it is the frame condition of a sequence of stores into one region.
-/
import Mathlib

namespace WordMemory

/-- A byte-addressed memory. -/
abbrev Mem := ℕ → UInt8

/-- The little-endian 32-bit word at address `a`. -/
def read32 (m : Mem) (a : ℕ) : ℕ :=
  (m a).toNat + 2 ^ 8 * (m (a + 1)).toNat + 2 ^ 16 * (m (a + 2)).toNat
    + 2 ^ 24 * (m (a + 3)).toNat

/-- Store the low 32 bits of `v` at address `a`, little-endian. -/
def write32 (m : Mem) (a v : ℕ) : Mem := fun x =>
  if x = a then UInt8.ofNat v
  else if x = a + 1 then UInt8.ofNat (v / 2 ^ 8)
  else if x = a + 2 then UInt8.ofNat (v / 2 ^ 16)
  else if x = a + 3 then UInt8.ofNat (v / 2 ^ 24)
  else m x

/-- Store one byte. -/
def write8 (m : Mem) (a : ℕ) (b : UInt8) : Mem := fun x => if x = a then b else m x

/-- Copy `n` bytes from `src` to `dst`, all of them read before any is written. -/
def copyBytes (m : Mem) (dst src n : ℕ) : Mem := fun x =>
  if dst ≤ x ∧ x < dst + n then m (src + (x - dst)) else m x

/-! ## Words -/

/-- A word is a 32-bit number. -/
theorem read32_lt (m : Mem) (a : ℕ) : read32 m a < 2 ^ 32 := by
  have h0 := (m a).toNat_lt
  have h1 := (m (a + 1)).toNat_lt
  have h2 := (m (a + 2)).toNat_lt
  have h3 := (m (a + 3)).toNat_lt
  unfold read32
  omega

/-- A load depends on its four bytes only. -/
theorem read32_congr {m m' : Mem} {a : ℕ}
    (h : ∀ x, a ≤ x → x < a + 4 → m' x = m x) : read32 m' a = read32 m a := by
  unfold read32
  rw [h a (by omega) (by omega), h (a + 1) (by omega) (by omega),
    h (a + 2) (by omega) (by omega), h (a + 3) (by omega) (by omega)]

/-- A store is read back at its own address. -/
theorem read32_write32_same (m : Mem) (a : ℕ) {v : ℕ} (hv : v < 2 ^ 32) :
    read32 (write32 m a v) a = v := by
  simp only [read32, write32, UInt8.toNat_ofNat', if_true, Nat.add_left_cancel_iff,
    Nat.add_eq_left, Nat.reduceEqDiff, OfNat.ofNat_ne_zero, one_ne_zero, if_false]
  omega

/-- A store does not change a byte outside its four bytes. -/
theorem write32_apply_of_disjoint (m : Mem) {a x : ℕ} (v : ℕ) (h : x < a ∨ a + 4 ≤ x) :
    write32 m a v x = m x := by
  unfold write32
  rw [if_neg (by omega), if_neg (by omega), if_neg (by omega), if_neg (by omega)]

/-- A store is invisible to a load from four other bytes. -/
theorem read32_write32_disjoint (m : Mem) {a b : ℕ} (v : ℕ) (h : a + 4 ≤ b ∨ b + 4 ≤ a) :
    read32 (write32 m a v) b = read32 m b :=
  read32_congr fun _ hx hx' => write32_apply_of_disjoint m v (by omega)

/-! ## Memories that agree outside a region -/

/-- `m'` differs from `m` at most on `[lo, hi)`. -/
def EqOutside (m m' : Mem) (lo hi : ℕ) : Prop :=
  ∀ x, x < lo ∨ hi ≤ x → m' x = m x

namespace EqOutside

theorem refl (m : Mem) (lo hi : ℕ) : EqOutside m m lo hi := fun _ _ => rfl

theorem trans {m m' m'' : Mem} {lo hi : ℕ} (h : EqOutside m m' lo hi)
    (h' : EqOutside m' m'' lo hi) : EqOutside m m'' lo hi :=
  fun x hx => (h' x hx).trans (h x hx)

/-- A further store inside the region. -/
theorem write32 {m m' : Mem} {lo hi a : ℕ} (h : EqOutside m m' lo hi) (v : ℕ)
    (hlo : lo ≤ a) (hhi : a + 4 ≤ hi) : EqOutside m (write32 m' a v) lo hi := by
  intro x hx
  rw [write32_apply_of_disjoint m' v (by omega)]
  exact h x hx

/-- A word outside the region is unchanged. -/
theorem read32_eq {m m' : Mem} {lo hi a : ℕ} (h : EqOutside m m' lo hi)
    (ha : a + 4 ≤ lo ∨ hi ≤ a) : read32 m' a = read32 m a :=
  read32_congr fun x _ _ => h x (by omega)

end EqOutside

/-- A copy changes its destination only. -/
theorem eqOutside_copyBytes (m : Mem) (dst src n : ℕ) :
    EqOutside m (copyBytes m dst src n) dst (dst + n) := by
  intro x hx
  unfold copyBytes
  rw [if_neg (by omega)]

end WordMemory
