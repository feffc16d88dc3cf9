import Mathlib.Tactic.Ring
import Mathlib.Data.Int.Basic

/-! # Unsigned and signed readings of a 32-bit word

Words are natural numbers below 2^32. Every operation that can overflow goes through
`wrap`; the page size is the usual 4096 bytes.
-/
namespace Word32

def wrap (z : ℤ) : ℕ := (z % 4294967296).toNat

def signed (n : ℕ) : ℤ := if n < 2147483648 then n else n - 4294967296

/-- `((n) + 4095) & ~4095` on a 32-bit word. -/
def pgRoundUp (n : ℕ) : ℕ := (n + 4095) % 4294967296 / 4096 * 4096

def pgRoundDown (n : ℕ) : ℕ := n / 4096 * 4096

theorem wrap_of_lt {n : ℕ} (h : n < 4294967296) : wrap n = n := by
  unfold wrap
  omega

theorem wrap_add_of_lt {m n : ℕ} (h : m + n < 4294967296) : wrap (m + n) = m + n := by
  unfold wrap
  omega

theorem wrap_sub_of_le {m n : ℕ} (h : n ≤ m) (hm : m < 4294967296) : wrap (m - n) = m - n := by
  unfold wrap
  omega

theorem signed_of_lt {n : ℕ} (h : n < 2147483648) : signed n = n := if_pos h

theorem pgRoundUp_aligned (n : ℕ) : pgRoundUp n % 4096 = 0 := by
  unfold pgRoundUp
  omega

theorem pgRoundUp_of_aligned {n : ℕ} (h : n % 4096 = 0) (hn : n < 4294967296) :
    pgRoundUp n = n := by
  unfold pgRoundUp
  omega

theorem le_pgRoundUp {n : ℕ} (h : n ≤ 4294963200) : n ≤ pgRoundUp n ∨ n = 4294963200 := by
  unfold pgRoundUp
  omega

/-- Rounding never passes the next aligned address. -/
theorem pgRoundUp_le {n a : ℕ} (h : n ≤ a) (ha : a % 4096 = 0) : pgRoundUp n ≤ a := by
  unfold pgRoundUp
  omega

end Word32
