import Mathlib.Data.List.Basic
import Mathlib.Data.Nat.Basic
import Mathlib.Tactic.Ring

/-! # Byte-addressed memory

A memory is a total map from addresses to bytes. `storeBytes` is `memcpy` from a list,
`loadBytes` reads a range back, and little-endian numbers are lists of bytes.
-/
namespace ByteMemory

abbrev Mem := ℕ → UInt8

def storeBytes (m : Mem) (a : ℕ) (bs : List UInt8) : Mem :=
  fun x => if a ≤ x ∧ x < a + bs.length then bs.getD (x - a) 0 else m x

def loadBytes (m : Mem) (a n : ℕ) : List UInt8 := (List.range n).map fun j => m (a + j)

/-- The two memories hold the same bytes in `[a, b)`. -/
def AgreeOn (m m' : Mem) (a b : ℕ) : Prop := ∀ x, a ≤ x → x < b → m x = m' x

section Bytes

variable {m m' : Mem} {a b n x : ℕ} {bs : List UInt8}

@[simp] theorem storeBytes_nil : storeBytes m a [] = m := by
  funext x
  simp [storeBytes]

theorem storeBytes_inside (h : x < bs.length) : storeBytes m a bs (a + x) = bs[x] := by
  rw [storeBytes, if_pos (by omega), Nat.add_sub_cancel_left]
  simp [h]

theorem storeBytes_outside (h : x < a ∨ a + bs.length ≤ x) : storeBytes m a bs x = m x := by
  rw [storeBytes, if_neg (by omega)]

@[simp] theorem loadBytes_length : (loadBytes m a n).length = n := by simp [loadBytes]

theorem loadBytes_getElem (h : x < (loadBytes m a n).length) :
    (loadBytes m a n)[x] = m (a + x) := by
  simp [loadBytes]

theorem loadBytes_congr (h : AgreeOn m m' a (a + n)) : loadBytes m a n = loadBytes m' a n := by
  apply List.map_congr_left
  intro j hj
  rw [List.mem_range] at hj
  exact h (a + j) (by omega) (by omega)

theorem loadBytes_storeBytes : loadBytes (storeBytes m a bs) a bs.length = bs := by
  apply List.ext_getElem (by simp)
  intro j h₁ h₂
  rw [loadBytes_getElem, storeBytes_inside h₂]

theorem loadBytes_storeBytes_of_length (h : bs.length = n) :
    loadBytes (storeBytes m a bs) a n = bs := by
  rw [← h, loadBytes_storeBytes]

theorem storeBytes_loadBytes : storeBytes m a (loadBytes m a n) = m := by
  funext x
  by_cases h : a ≤ x ∧ x < a + n
  · obtain ⟨k, rfl⟩ := Nat.exists_eq_add_of_le h.1
    rw [storeBytes_inside (by simpa using h.2), loadBytes_getElem]
  · exact storeBytes_outside (by simpa [imp_iff_not_or] using h)

theorem loadBytes_storeBytes_of_disjoint (h : a + n ≤ b ∨ b + bs.length ≤ a) :
    loadBytes (storeBytes m b bs) a n = loadBytes m a n :=
  loadBytes_congr fun x _ _ => storeBytes_outside (by omega)

theorem loadBytes_append {n' : ℕ} :
    loadBytes m a (n + n') = loadBytes m a n ++ loadBytes m (a + n) n' := by
  simp only [loadBytes, List.range_add, List.map_append, List.map_map]
  congr 1
  apply List.map_congr_left
  intro j _
  simp [Nat.add_assoc]

/-- `d` with `src` written over it at `off`. -/
def splice (d : List UInt8) (off : ℕ) (src : List UInt8) : List UInt8 :=
  d.take off ++ src ++ d.drop (off + src.length)

theorem splice_getD {d src : List UInt8} {off : ℕ} (h : off ≤ d.length) (x : ℕ) :
    (splice d off src).getD x 0 =
      if off ≤ x ∧ x < off + src.length then src.getD (x - off) 0 else d.getD x 0 := by
  have htake : (d.take off).length = off := by simp [h]
  simp only [splice, List.getD_eq_getElem?_getD, List.append_assoc]
  rcases Nat.lt_or_ge x off with hx | hx
  · rw [if_neg (by omega), List.getElem?_append_left (by omega), List.getElem?_take_of_lt hx]
  rw [List.getElem?_append_right (by omega), htake]
  rcases Nat.lt_or_ge x (off + src.length) with hx' | hx'
  · rw [if_pos ⟨hx, hx'⟩, List.getElem?_append_left (by omega)]
  · rw [if_neg (by omega), List.getElem?_append_right (by omega), List.getElem?_drop]
    congr 2
    omega

theorem splice_length (buf : List UInt8) {offset : ℕ} (h : offset ≤ bs.length) :
    (splice bs offset buf).length = max bs.length (offset + buf.length) := by
  simp only [splice, List.length_append, List.length_take, List.length_drop]
  omega

theorem loadBytes_storeBytes_splice {buf : List UInt8} {offset : ℕ} (h : offset ≤ bs.length) :
    loadBytes (storeBytes (storeBytes m a bs) (a + offset) buf) a (splice bs offset buf).length =
      splice bs offset buf := by
  apply List.ext_getElem (by simp)
  intro j h₁ h₂
  rw [loadBytes_getElem]
  have hlen : (splice bs offset buf).length = _ := splice_length buf h
  simp only [splice]
  by_cases hlo : j < offset
  · rw [storeBytes_outside (by omega), storeBytes_inside (by omega),
      List.getElem_append_left (by simp; omega), List.getElem_append_left (by simp; omega),
      List.getElem_take]
  · by_cases hhi : j < offset + buf.length
    · obtain ⟨k, rfl⟩ := Nat.exists_eq_add_of_le (not_lt.mp hlo)
      rw [← Nat.add_assoc, storeBytes_inside (by omega),
        List.getElem_append_left (by simp; omega), List.getElem_append_right (by simp)]
      simp [h]
    · rw [storeBytes_outside (by omega), storeBytes_inside (by omega),
        List.getElem_append_right (by simp; omega), List.getElem_drop]
      congr 1
      simp only [List.length_append, List.length_take]
      omega

end Bytes

section Numbers

/-- `n` bytes of `w`, least significant first. -/
def leBytes : ℕ → ℕ → List UInt8
  | 0, _ => []
  | n + 1, w => UInt8.ofNat (w % 256) :: leBytes n (w / 256)

def leValue : List UInt8 → ℕ
  | [] => 0
  | b :: bs => b.toNat + 256 * leValue bs

@[simp] theorem leBytes_length (n w : ℕ) : (leBytes n w).length = n := by
  induction n generalizing w with
  | zero => rfl
  | succ n ih => simp [leBytes, ih]

theorem leValue_leBytes (n w : ℕ) : leValue (leBytes n w) = w % 256 ^ n := by
  induction n generalizing w with
  | zero => simp [leBytes, leValue, Nat.mod_one]
  | succ n ih =>
    have hb : (UInt8.ofNat (w % 256)).toNat = w % 256 := by
      rw [UInt8.toNat_ofNat']
      exact Nat.mod_mod _ _
    rw [leBytes, leValue, hb, ih, pow_succ, Nat.mul_comm (256 ^ n), Nat.mod_mul]

theorem leBytes_mod (n w : ℕ) : leBytes n (w % 256 ^ n) = leBytes n w := by
  induction n generalizing w with
  | zero => rfl
  | succ n ih =>
    rw [leBytes, leBytes, pow_succ, Nat.mod_mul_left_mod, Nat.mul_comm, Nat.mod_mul_right_div_self,
      ih]

theorem leBytes_leValue (bs : List UInt8) : leBytes bs.length (leValue bs) = bs := by
  induction bs with
  | nil => rfl
  | cons b bs ih =>
    have hb := b.toNat_lt
    have hmod : (b.toNat + 256 * leValue bs) % 256 = b.toNat := by omega
    have hdiv : (b.toNat + 256 * leValue bs) / 256 = leValue bs := by omega
    rw [List.length_cons, leValue, leBytes, hmod, hdiv, ih, UInt8.ofNat_toNat]

theorem leValue_lt (bs : List UInt8) : leValue bs < 256 ^ bs.length := by
  induction bs with
  | nil => simp [leValue]
  | cons b bs ih =>
    have hb := b.toNat_lt
    rw [leValue, List.length_cons, pow_succ]
    omega

def loadWord (m : Mem) (a : ℕ) : ℕ := leValue (loadBytes m a 4)

def storeWord (m : Mem) (a w : ℕ) : Mem := storeBytes m a (leBytes 4 w)

variable {m m' : Mem} {a b w x : ℕ}

theorem loadWord_lt : loadWord m a < 4294967296 := by
  have h := leValue_lt (loadBytes m a 4)
  rwa [loadBytes_length] at h

theorem loadWord_congr (h : AgreeOn m m' a (a + 4)) : loadWord m a = loadWord m' a := by
  rw [loadWord, loadWord, loadBytes_congr h]

theorem loadWord_storeWord : loadWord (storeWord m a w) a = w % 4294967296 := by
  have h := @loadBytes_storeBytes m a (leBytes 4 w)
  rw [leBytes_length] at h
  rw [loadWord, storeWord, h, leValue_leBytes]
  rfl

theorem loadWord_storeWord_of_disjoint (h : a + 4 ≤ b ∨ b + 4 ≤ a) :
    loadWord (storeWord m b w) a = loadWord m a := by
  rw [loadWord, storeWord, loadBytes_storeBytes_of_disjoint (by simpa using h), loadWord]

theorem loadWord_storeBytes_of_disjoint {bs : List UInt8} (h : a + 4 ≤ b ∨ b + bs.length ≤ a) :
    loadWord (storeBytes m b bs) a = loadWord m a := by
  rw [loadWord, loadBytes_storeBytes_of_disjoint h, loadWord]

theorem storeWord_mod : storeWord m a (w % 4294967296) = storeWord m a w := by
  rw [storeWord, storeWord]
  exact congrArg _ (leBytes_mod 4 w)

/-- Storing the word that is already there. -/
theorem storeWord_loadWord : storeWord m a (loadWord m a) = m := by
  have hself := leBytes_leValue (loadBytes m a 4)
  rw [loadBytes_length] at hself
  rw [storeWord, loadWord, hself]
  exact storeBytes_loadBytes

theorem storeWord_outside (h : x < a ∨ a + 4 ≤ x) : storeWord m a w x = m x :=
  storeBytes_outside (by simpa using h)

end Numbers

end ByteMemory
