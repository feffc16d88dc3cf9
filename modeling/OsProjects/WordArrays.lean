import OsProjects.ByteMemory

/-! # Arrays of words

Numbers of four bytes that stand one behind the other in a memory, stored and loaded in a loop,
and numbers of two bytes.
-/
namespace WordArrays

open ByteMemory

def storeWords (m : Mem) (a : ℕ) : List ℕ → Mem
  | [] => m
  | w :: ws => storeWords (storeWord m a w) (a + 4) ws

def loadWords (m : Mem) (a n : ℕ) : List ℕ := (List.range n).map fun i => loadWord m (a + 4 * i)

variable {m m' : Mem} {a b i n x : ℕ} {ws : List ℕ}

@[simp] theorem length_loadWords : (loadWords m a n).length = n := by simp [loadWords]

theorem getElem_loadWords (h : i < (loadWords m a n).length) :
    (loadWords m a n)[i] = loadWord m (a + 4 * i) := by simp [loadWords]

theorem storeWords_outside (h : x < a ∨ a + 4 * ws.length ≤ x) : storeWords m a ws x = m x := by
  induction ws generalizing m a with
  | nil => rfl
  | cons w ws ih =>
    rw [List.length_cons] at h
    rw [storeWords, ih (by omega), storeWord_outside (by omega)]

theorem loadWord_storeWords_of_disjoint (h : b + 4 ≤ a ∨ a + 4 * ws.length ≤ b) :
    loadWord (storeWords m a ws) b = loadWord m b :=
  loadWord_congr fun _ _ _ => storeWords_outside (by omega)

theorem loadWord_storeWords (h : i < ws.length) :
    loadWord (storeWords m a ws) (a + 4 * i) = ws[i] % 4294967296 := by
  induction ws generalizing m a i with
  | nil => cases h
  | cons w ws ih =>
    rw [storeWords]
    cases i with
    | zero =>
      change loadWord (storeWords (storeWord m a w) (a + 4) ws) a = w % 4294967296
      rw [loadWord_storeWords_of_disjoint (by omega), loadWord_storeWord]
    | succ i =>
      have hi : i < ws.length := Nat.lt_of_succ_lt_succ h
      rw [show a + 4 * (i + 1) = a + 4 + 4 * i by omega, ih hi, List.getElem_cons_succ]

/-- What was stored is loaded again. -/
theorem loadWords_storeWords (h : ∀ w ∈ ws, w < 4294967296) :
    loadWords (storeWords m a ws) a ws.length = ws := by
  apply List.ext_getElem (by simp)
  intro j hj hj'
  rw [getElem_loadWords, loadWord_storeWords hj', Nat.mod_eq_of_lt (h _ (List.getElem_mem hj'))]

section Halves

def loadHalf (m : Mem) (a : ℕ) : ℕ := leValue (loadBytes m a 2)
def storeHalf (m : Mem) (a w : ℕ) : Mem := storeBytes m a (leBytes 2 w)

variable {w : ℕ}

theorem storeHalf_outside (h : x < a ∨ a + 2 ≤ x) : storeHalf m a w x = m x :=
  storeBytes_outside (by simpa using h)

theorem loadHalf_storeHalf (h : w < 65536) : loadHalf (storeHalf m a w) a = w := by
  have hload := @loadBytes_storeBytes m a (leBytes 2 w)
  rw [leBytes_length] at hload
  rw [loadHalf, storeHalf, hload, leValue_leBytes]
  exact Nat.mod_eq_of_lt h

theorem loadHalf_congr (h : AgreeOn m m' a (a + 2)) : loadHalf m a = loadHalf m' a := by
  rw [loadHalf, loadHalf, loadBytes_congr h]

theorem loadHalf_lt : loadHalf m a < 65536 := by
  have h := leValue_lt (loadBytes m a 2)
  rwa [loadBytes_length] at h

end Halves

end WordArrays
