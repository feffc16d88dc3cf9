import OsProjects.ByteMemory
import Mathlib.Data.Nat.Digits.Defs

/-! # Texts as C keeps them

A text is a list of nonzero bytes; in memory a zero byte stands behind it. `strncmp` works on
the bytes with the zero implied, a pointer into a text is the rest of it.
-/
namespace CStrings

open ByteMemory

structure CText where
  bytes : List UInt8
  nonzero : 0 ∉ bytes
  deriving DecidableEq

def strncmp : ℕ → List UInt8 → List UInt8 → ℤ
  | 0, _, _ => 0
  | n + 1, p, q =>
    if p.headD 0 ≠ 0 ∧ p.headD 0 = q.headD 0 then strncmp n p.tail q.tail
    else (p.headD 0).toNat - (q.headD 0).toNat

/-- `safestrcpy` of `n` bytes, the terminator among them. -/
def safestrcpy (n : ℕ) (t : List UInt8) : List UInt8 := t.take (n - 1)

/-- The loop `for (last = s; *s; s++) if (*s == sep) last = s + 1`. -/
def lastPart (sep : UInt8) (last : List UInt8) : List UInt8 → List UInt8
  | [] => last
  | c :: s => if c = sep then lastPart sep s s else lastPart sep last s

/-- What stands behind the last separator. -/
def afterLast (sep : UInt8) (t : List UInt8) : List UInt8 := lastPart sep t t

/-- The terminator first, then the bytes without it. -/
def storeText (m : Mem) (a : ℕ) (t : CText) : Mem :=
  storeBytes (storeBytes m (a + t.bytes.length) [0]) a t.bytes

/-- The text at `a` in an array of `size` bytes. -/
def textAt (m : Mem) (a size : ℕ) : List UInt8 := (loadBytes m a size).takeWhile (· ≠ 0)

/-- The decimal digits of a number, as `printf` writes them. -/
def decimal (n : ℕ) : List UInt8 :=
  if n = 0 then [48] else (Nat.digits 10 n).reverse.map fun d => UInt8.ofNat (48 + d)

/-- `%d`. -/
def decimalInt (z : ℤ) : List UInt8 := if z < 0 then 45 :: decimal z.natAbs else decimal z.natAbs

def isspace (c : UInt8) : Bool := c = 32 ∨ 9 ≤ c ∧ c ≤ 13

def isdigit (c : UInt8) : Bool := 48 ≤ c ∧ c ≤ 57

/-- The number that digits write. -/
def numeral (s : List UInt8) : ℕ := s.foldl (fun n c => 10 * n + (c.toNat - 48)) 0

/-- `strtol` to the base 10, which stops at the bounds of a `long`. -/
def strtol (s : List UInt8) : ℤ :=
  let t := s.dropWhile isspace
  let u := if t.head? = some 45 ∨ t.head? = some 43 then t.tail else t
  let n : ℤ := numeral (u.takeWhile isdigit)
  if t.head? = some 45 then max (-n) (-9223372036854775808) else min n 9223372036854775807

/-- The `int` that the library makes of the `long`. -/
def atoi (s : List UInt8) : ℤ := (strtol s).bmod 4294967296

theorem strncmp_step {n : ℕ} {a : UInt8} {p q : List UInt8} (ha : a ≠ 0) :
    strncmp (n + 1) (a :: p) q =
      if a = q.headD 0 then strncmp n p q.tail else (a.toNat : ℤ) - (q.headD 0).toNat := by
  rw [strncmp, List.headD_cons, List.tail_cons]
  by_cases hq : a = q.headD 0
  · rw [if_pos ⟨ha, hq⟩, if_pos hq]
  · rw [if_neg fun h => hq h.2, if_neg hq]

/-- Comparing as many bytes as the first text has only tests for a prefix. -/
theorem strncmp_length_eq_zero {p q : List UInt8} (hp : 0 ∉ p) :
    strncmp p.length p q = 0 ↔ p <+: q := by
  induction p generalizing q with
  | nil => simp [strncmp]
  | cons a p ih =>
    obtain ⟨ha, hp⟩ := not_or.mp (mt List.mem_cons.mpr hp)
    rw [List.length_cons, strncmp_step (Ne.symm ha)]
    cases q with
    | nil =>
      have hne : a.toNat ≠ 0 := fun h => ha (UInt8.toNat_inj.mp h).symm
      rw [List.headD_nil, if_neg (Ne.symm ha)]
      simpa using hne
    | cons b q =>
      rw [List.headD_cons, List.tail_cons, List.cons_prefix_cons]
      by_cases hab : a = b
      · rw [if_pos hab, ih hp]
        simp [hab]
      · have hne : a.toNat ≠ b.toNat := fun h => hab (UInt8.toNat_inj.mp h)
        rw [if_neg hab]
        simp only [hab, false_and, iff_false]
        omega

theorem strncmp_eq_zero_comm {n : ℕ} {p q : List UInt8} :
    strncmp n p q = 0 ↔ strncmp n q p = 0 := by
  induction n generalizing p q with
  | zero => exact Iff.rfl
  | succ n ih =>
    rw [strncmp, strncmp]
    by_cases h : p.headD 0 = q.headD 0
    · rw [h]
      split_ifs
      · exact ih
      · exact Iff.rfl
    · rw [if_neg fun hp => h hp.2, if_neg fun hq => h hq.2.symm]
      omega

/-- Comparing as many bytes as a constant has, the way round that programs write it. -/
theorem strncmp_constant {p q : List UInt8} (hq : 0 ∉ q) : strncmp q.length p q = 0 ↔ q <+: p :=
  strncmp_eq_zero_comm.trans (strncmp_length_eq_zero hq)

/-- Two texts that `strncmp` finds equal agree in their first bytes, or both end there. -/
theorem strncmp_eq_zero {n : ℕ} {p q : List UInt8} (hp : 0 ∉ p) (hq : 0 ∉ q) :
    strncmp n p q = 0 ↔ p.take n = q.take n := by
  induction n generalizing p q with
  | zero => simp [strncmp]
  | succ n ih =>
    cases p with
    | nil =>
      cases q with
      | nil => simp [strncmp]
      | cons b q =>
        obtain ⟨hb, _⟩ := not_or.mp (mt List.mem_cons.mpr hq)
        have hne : b.toNat ≠ 0 := fun h => hb (UInt8.toNat_inj.mp h).symm
        simpa [strncmp] using hne
    | cons a p =>
      obtain ⟨ha, hp⟩ := not_or.mp (mt List.mem_cons.mpr hp)
      rw [strncmp_step (Ne.symm ha)]
      cases q with
      | nil =>
        have hne : a.toNat ≠ 0 := fun h => ha (UInt8.toNat_inj.mp h).symm
        rw [List.headD_nil, if_neg (Ne.symm ha)]
        simpa using hne
      | cons b q =>
        rw [List.headD_cons, List.tail_cons, List.take_succ_cons, List.take_succ_cons]
        by_cases hab : a = b
        · rw [if_pos hab, ih hp (fun h => hq (List.mem_cons_of_mem b h)), hab]
          simp
        · have hne : a.toNat ≠ b.toNat := fun h => hab (UInt8.toNat_inj.mp h)
          rw [if_neg hab]
          simp only [List.cons.injEq, hab, false_and, iff_false]
          omega

theorem digit_toNat {d : ℕ} (hd : d < 10) : (UInt8.ofNat (48 + d)).toNat = 48 + d := by
  rw [UInt8.toNat_ofNat', Nat.mod_eq_of_lt (by omega)]

theorem decimal_eq {n : ℕ} (hn : n ≠ 0) :
    decimal n = (Nat.digits 10 n).reverse.map fun d => UInt8.ofNat (48 + d) := if_neg hn

theorem isdigit_decimal {n : ℕ} : ∀ c ∈ decimal n, isdigit c = true := by
  intro c hc
  rcases eq_or_ne n 0 with rfl | hn
  · obtain rfl := List.mem_singleton.mp hc
    rfl
  · rw [decimal_eq hn, List.mem_map] at hc
    obtain ⟨d, hd, rfl⟩ := hc
    have hlt : d < 10 := Nat.digits_lt_base (by decide) (List.mem_reverse.mp hd)
    have hnat := digit_toNat hlt
    simp only [isdigit, decide_eq_true_eq, UInt8.le_iff_toNat_le]
    rw [hnat]
    exact ⟨Nat.le_add_right 48 d, by show 48 + d ≤ 57; omega⟩

theorem decimal_ne_nil {n : ℕ} : decimal n ≠ [] := by
  rcases eq_or_ne n 0 with rfl | hn
  · decide
  · rw [decimal_eq hn, ne_eq, List.map_eq_nil_iff, List.reverse_eq_nil_iff]
    exact Nat.digits_ne_nil_iff_ne_zero.mpr hn

theorem numeral_decimal {n : ℕ} : numeral (decimal n) = n := by
  rcases eq_or_ne n 0 with rfl | hn
  · rfl
  · have hdigits : ∀ ds : List ℕ, (∀ d ∈ ds, d < 10) →
        numeral (ds.reverse.map fun d => UInt8.ofNat (48 + d)) = Nat.ofDigits 10 ds := by
      intro ds hds
      rw [numeral, List.foldl_map, List.foldl_reverse]
      induction ds with
      | nil => rfl
      | cons d ds ih =>
        rw [List.forall_mem_cons] at hds
        rw [List.foldr_cons, ih hds.2, digit_toNat hds.1, Nat.ofDigits_cons]
        omega
    rw [decimal_eq hn, hdigits _ fun d hd => Nat.digits_lt_base (by decide) hd,
      Nat.ofDigits_digits]

/-- `atoi` reads a number back that `printf` has written, up to what follows its digits. -/
theorem atoi_decimal {n : ℕ} {rest : List UInt8} (hn : n < 2147483648)
    (hrest : ∀ c ∈ rest.head?, isdigit c = false) : atoi (decimal n ++ rest) = n := by
  obtain ⟨c, t, hct⟩ := List.exists_cons_of_ne_nil (decimal_ne_nil (n := n))
  have hc : isdigit c = true := isdigit_decimal c (hct ▸ List.mem_cons_self)
  have hspace : isspace c = false := by
    simp only [isdigit, isspace, decide_eq_true_eq, decide_eq_false_iff_not,
      UInt8.le_iff_toNat_le, ← UInt8.toNat_inj] at hc ⊢
    simp at hc ⊢
    omega
  have hsign : ¬ (c = 45 ∨ c = 43) := by
    rintro (rfl | rfl) <;> exact absurd hc (by decide)
  have hdrop : (decimal n ++ rest).dropWhile isspace = decimal n ++ rest := by
    rw [hct, List.cons_append, List.dropWhile_cons_of_neg (by simp [hspace])]
  have htake : (decimal n ++ rest).takeWhile isdigit = decimal n := by
    rw [List.takeWhile_append_of_pos isdigit_decimal]
    cases rest with
    | nil => exact List.append_nil _
    | cons b rest => rw [List.takeWhile_cons_of_neg (by simp [hrest b rfl]), List.append_nil]
  have hhead : (decimal n ++ rest).head? = some c := by rw [hct]; rfl
  rw [atoi, strtol, hdrop, hhead]
  simp only [Option.some_inj]
  rw [if_neg hsign, htake, numeral_decimal, if_neg (fun h => hsign (.inl h)),
    min_eq_left (by omega)]
  exact Int.bmod_eq_of_le (by omega) (by omega)

/-- A zero ends a text for `atoi`, whatever stands behind it. -/
theorem atoi_append_zero (s m : List UInt8) : atoi (s ++ 0 :: m) = atoi s := by
  have hspace : (s ++ 0 :: m).dropWhile isspace = s.dropWhile isspace ++ 0 :: m := by
    rw [List.dropWhile_append]
    split_ifs with h
    · rw [List.isEmpty_iff.mp h, List.dropWhile_cons_of_neg (by decide), List.nil_append]
    · rfl
  have hdigit : ∀ u : List UInt8, (u ++ 0 :: m).takeWhile isdigit = u.takeWhile isdigit := fun u => by
    rw [List.takeWhile_append, List.takeWhile_cons_of_neg (by decide), List.append_nil]
    split_ifs with h
    · exact ((List.takeWhile_prefix _).eq_of_length h).symm
    · rfl
  have hhead : ∀ (t : List UInt8) (c : UInt8), c ≠ 0 →
      ((t ++ 0 :: m).head? = some c ↔ t.head? = some c) := fun t c hc => by
    cases t with
    | nil => simpa using hc.symm
    | cons _ _ => rfl
  have hminus := hhead (s.dropWhile isspace) 45 (by decide)
  have hplus := hhead (s.dropWhile isspace) 43 (by decide)
  have htail : (if (s.dropWhile isspace).head? = some 45 ∨ (s.dropWhile isspace).head? = some 43 then
      (s.dropWhile isspace ++ 0 :: m).tail else s.dropWhile isspace ++ 0 :: m) =
        (if (s.dropWhile isspace).head? = some 45 ∨ (s.dropWhile isspace).head? = some 43 then
          (s.dropWhile isspace).tail else s.dropWhile isspace) ++ 0 :: m := by
    split_ifs with hsign
    · exact List.tail_append_of_ne_nil fun hnil => by simp [hnil] at hsign
    · rfl
  simp only [atoi, strtol, hspace, hminus, hplus, htail, hdigit]

theorem textAt_storeText {m : Mem} {a size : ℕ} {t : CText} (h : t.bytes.length < size) :
    textAt (storeText m a t) a size = t.bytes := by
  obtain ⟨rest, rfl⟩ := Nat.exists_eq_add_of_lt h
  have hsplit : loadBytes (storeText m a t) a (t.bytes.length + rest + 1) =
      t.bytes ++ 0 :: loadBytes (storeText m a t) (a + t.bytes.length + 1) rest := by
    rw [show t.bytes.length + rest + 1 = t.bytes.length + (1 + rest) by omega, loadBytes_append,
      loadBytes_append, storeText, loadBytes_storeBytes]
    have hzero : loadBytes (storeBytes (storeBytes m (a + t.bytes.length) [0]) a t.bytes)
        (a + t.bytes.length) 1 = [0] := by
      rw [loadBytes_storeBytes_of_disjoint (by omega)]
      exact loadBytes_storeBytes
    rw [hzero]
    rfl
  have hall : ∀ b ∈ t.bytes, (b ≠ 0 : Bool) = true := by
    intro b hb
    rw [decide_eq_true_eq]
    rintro rfl
    exact t.nonzero hb
  rw [textAt, hsplit, List.takeWhile_append_of_pos hall, List.takeWhile_cons_of_neg (by simp),
    List.append_nil]

theorem nonzero_lastPart {sep : UInt8} {last s : List UInt8} (hl : 0 ∉ last) (hs : 0 ∉ s) :
    0 ∉ lastPart sep last s := by
  induction s generalizing last with
  | nil => exact hl
  | cons c s ih =>
    have hrest : 0 ∉ s := fun hz => hs (List.mem_cons_of_mem c hz)
    rw [lastPart]
    split_ifs
    · exact ih hrest hrest
    · exact ih hl hrest

theorem nonzero_safestrcpy {n : ℕ} {t : List UInt8} (h : 0 ∉ t) : 0 ∉ safestrcpy n t :=
  fun hz => h (List.mem_of_mem_take hz)

end CStrings
