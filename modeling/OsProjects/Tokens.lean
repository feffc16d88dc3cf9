import Mathlib.Data.List.Infix
import Mathlib.Data.List.TakeWhile

/-! # Tokens of a list

A list is cut at the elements of a predicate, one token at a time. The tokens are the maximal
runs of the other elements, in their order.
-/
namespace Tokens

variable {α : Type*} (p : α → Prop)

/-- The first token and everything behind it. -/
def cut [DecidablePred p] (s : List α) : Option (List α × List α) :=
  match s.dropWhile p with
  | [] => none
  | c :: t => some ((c :: t).takeWhile (¬ p ·), (c :: t).dropWhile (¬ p ·))

/-- `t` is a maximal run of elements outside `p`, from position `i` on. -/
def Run (s : List α) (i : ℕ) (t : List α) : Prop :=
  ∃ a b, s = a ++ t ++ b ∧ a.length = i ∧ t ≠ [] ∧ (∀ x ∈ t, ¬ p x) ∧
    (∀ x ∈ a.getLast?, p x) ∧ ∀ x ∈ b.head?, p x

def MaximalRuns (s : List α) (ts : List (List α)) : Prop :=
  ∃ runs : List (ℕ × List α), runs.map Prod.snd = ts ∧ runs.Pairwise (fun r q => r.1 < q.1) ∧
    ∀ r, r ∈ runs ↔ Run p s r.1 r.2

variable {p} {s t d e : List α} {ts : List (List α)} {c : α} {i : ℕ}

section Cutting

variable [DecidablePred p]

/-- A run that ends where the list ends or at an element of `p` is what `takeWhile` takes. -/
theorem takeWhile_run (ht : ∀ x ∈ t, ¬ p x) (he : ∀ x ∈ e.head?, p x) :
    (t ++ e).takeWhile (¬ p ·) = t := by
  rw [List.takeWhile_append_of_pos (by simpa using ht)]
  cases e with
  | nil => exact List.append_nil t
  | cons c e =>
    rw [List.takeWhile_cons_of_neg (by simpa using he c rfl), List.append_nil]

theorem dropWhile_run (ht : ∀ x ∈ t, ¬ p x) (he : ∀ x ∈ e.head?, p x) :
    (t ++ e).dropWhile (¬ p ·) = e := by
  have hsplit := List.takeWhile_append_dropWhile (p := fun x => decide (¬ p x)) (l := t ++ e)
  rw [takeWhile_run ht he] at hsplit
  exact List.append_cancel_left hsplit

theorem cut_run (hd : ∀ x ∈ d, p x) (hne : t ≠ []) (ht : ∀ x ∈ t, ¬ p x)
    (he : ∀ x ∈ e.head?, p x) : cut p (d ++ t ++ e) = some (t, e) := by
  obtain ⟨c, u, rfl⟩ := List.exists_cons_of_ne_nil hne
  have hdrop : (d ++ (c :: u) ++ e).dropWhile (fun x => decide (p x)) = c :: (u ++ e) := by
    rw [List.append_assoc, List.dropWhile_append_of_pos (by simpa using hd), List.cons_append,
      List.dropWhile_cons_of_neg (by simpa using ht c List.mem_cons_self)]
  have htake := takeWhile_run ht he
  have hleft := dropWhile_run ht he
  rw [List.cons_append] at htake hleft
  rw [cut, hdrop]
  dsimp only
  rw [htake, hleft]

theorem cut_eq_none : cut p s = none ↔ ∀ x ∈ s, p x := by
  have hdrop : s.dropWhile p = [] ↔ ∀ x ∈ s, p x := by simp
  rw [← hdrop, cut]
  cases s.dropWhile p with
  | nil => simp
  | cons c t => simp

/-- The first token with what stands around it. -/
theorem cut_eq_some (h : cut p s = some (t, e)) : ∃ d, s = d ++ t ++ e ∧
    (∀ x ∈ d, p x) ∧ t ≠ [] ∧ (∀ x ∈ t, ¬ p x) ∧ ∀ x ∈ e.head?, p x := by
  rw [cut] at h
  split at h
  next => cases h
  next c u hdrop =>
    cases h
    have hc : ¬ p c := by
      have hhead := List.head?_dropWhile_not (fun x => decide (p x)) s
      rw [hdrop] at hhead
      simpa using hhead
    refine ⟨s.takeWhile p, ?_, ?_, ?_, ?_, ?_⟩
    · rw [List.append_assoc, List.takeWhile_append_dropWhile, ← hdrop,
        List.takeWhile_append_dropWhile]
    · exact fun x hx => of_decide_eq_true (List.mem_takeWhile_imp (p := fun x => decide (p x)) hx)
    · rw [List.takeWhile_cons_of_pos (by simpa using hc)]
      exact List.cons_ne_nil _ _
    · exact fun x hx => of_decide_eq_true (List.mem_takeWhile_imp (p := fun x => decide (¬ p x)) hx)
    · intro x hx
      have hhead := List.head?_dropWhile_not (fun x => decide (¬ p x)) (c :: u)
      rw [Option.mem_def.mp hx] at hhead
      simpa using hhead

theorem cut_shorter (h : cut p s = some (t, e)) : e.length < s.length := by
  obtain ⟨d, rfl, _, hne, _, _⟩ := cut_eq_some h
  have hpos := List.length_pos_of_ne_nil hne
  simp only [List.length_append]
  omega

/-- Elements of `p` in front make no difference. -/
theorem cut_append (hd : ∀ x ∈ d, p x) : cut p (d ++ s) = cut p s := by
  rw [cut, List.dropWhile_append_of_pos (by simpa using hd), cut]

end Cutting

section Runs

theorem not_run_nil : ¬ Run p [] i t := by
  rintro ⟨a, b, hs, _, hne, _⟩
  simp [hne] at hs

theorem run_cons (hc : p c) : Run p (c :: s) i t ↔ ∃ k, i = k + 1 ∧ Run p s k t := by
  constructor
  · rintro ⟨a, b, hs, rfl, hne, ht, ha, hb⟩
    cases a with
    | nil =>
      obtain ⟨x, u, rfl⟩ := List.exists_cons_of_ne_nil hne
      cases hs
      exact absurd hc (ht c List.mem_cons_self)
    | cons x a =>
      cases hs
      refine ⟨a.length, rfl, a, b, rfl, rfl, hne, ht, fun x hx => ha x ?_, hb⟩
      rw [List.getLast?_cons, Option.mem_def.mp hx]
      rfl
  · rintro ⟨k, rfl, a, b, rfl, rfl, hne, ht, ha, hb⟩
    refine ⟨c :: a, b, rfl, rfl, hne, ht, fun x hx => ?_, hb⟩
    rw [List.getLast?_cons, Option.mem_def, Option.some_inj] at hx
    cases hlast : a.getLast? with
    | none =>
      rw [hlast] at hx
      exact hx ▸ hc
    | some y =>
      rw [hlast] at hx
      exact hx ▸ ha y hlast

theorem run_append (hd : ∀ x ∈ d, p x) :
    Run p (d ++ s) i t ↔ ∃ k, i = d.length + k ∧ Run p s k t := by
  induction d generalizing i with
  | nil => simp
  | cons c d ih =>
    rw [List.cons_append, run_cons (hd c List.mem_cons_self)]
    simp only [ih fun x hx => hd x (List.mem_cons_of_mem c hx), List.length_cons]
    constructor
    · rintro ⟨_, rfl, k, rfl, hr⟩
      exact ⟨k, by omega, hr⟩
    · rintro ⟨k, rfl, hr⟩
      exact ⟨d.length + k, by omega, k, rfl, hr⟩

/-- Behind a run that stands in front there are the runs of the rest. -/
theorem run_run {u : List α} (hne : u ≠ []) (hu : ∀ x ∈ u, ¬ p x) (he : ∀ x ∈ e.head?, p x) :
    Run p (u ++ e) i t ↔ i = 0 ∧ t = u ∨ ∃ k, i = u.length + 1 + k ∧ Run p e.tail k t := by
  classical
  constructor
  · rintro ⟨a, b, hs, rfl, htne, ht, ha, hb⟩
    rw [List.append_assoc] at hs
    rcases List.append_eq_append_iff.mp hs with ⟨v, rfl, rfl⟩ | ⟨v, rfl, hv⟩
    · -- the run starts behind `u`
      cases v with
      | nil =>
        obtain ⟨x, w, rfl⟩ := List.exists_cons_of_ne_nil htne
        exact absurd (he x rfl) (ht x List.mem_cons_self)
      | cons c v =>
        have hc : p c := he c rfl
        refine .inr ⟨v.length, by simp; omega, ?_⟩
        have hrun : Run p (c :: v ++ (t ++ b)) (v.length + 1) t := by
          refine ⟨c :: v, b, by simp, rfl, htne, ht, fun x hx => ha x ?_, hb⟩
          rw [Option.mem_def] at hx ⊢
          rw [List.getLast?_append, hx]
          rfl
        obtain ⟨k, hk, hr⟩ := (run_cons hc).mp hrun
        obtain rfl : k = v.length := by omega
        exact hr
    · cases a with
      | nil =>
        refine .inl ⟨rfl, ?_⟩
        rw [List.nil_append] at hu ⊢
        rw [← takeWhile_run ht hb, hv, takeWhile_run hu he]
      | cons c a =>
        have hlast := List.getLast?_eq_some_getLast (List.cons_ne_nil c a)
        exact absurd (ha _ hlast) (hu _ (List.mem_append_left v (List.getLast_mem _)))
  · rintro (⟨rfl, rfl⟩ | ⟨k, rfl, hr⟩)
    · exact ⟨[], e, rfl, rfl, hne, hu, by simp, he⟩
    · cases e with
      | nil => exact absurd hr not_run_nil
      | cons c e =>
        obtain ⟨a, b, hs, rfl, htne, ht, ha, hb⟩ := hr
        refine ⟨u ++ c :: a, b, by simp_all, by simp; omega, htne, ht, fun x hx => ?_, hb⟩
        rw [List.getLast?_append, List.getLast?_cons, Option.mem_def, Option.some_or,
          Option.some_inj] at hx
        cases hlast : a.getLast? with
        | none =>
          rw [hlast] at hx
          exact hx ▸ he c rfl
        | some y =>
          rw [hlast] at hx
          exact hx ▸ ha y hlast

theorem MaximalRuns.nil (h : ∀ x ∈ s, p x) : MaximalRuns p s [] := by
  refine ⟨[], rfl, List.Pairwise.nil, fun r => ⟨fun hr => absurd hr List.not_mem_nil, ?_⟩⟩
  rintro ⟨a, b, rfl, _, hne, ht, _⟩
  obtain ⟨x, u, hu⟩ := List.exists_cons_of_ne_nil hne
  exact absurd (h x (by simp [hu])) (ht x (by simp [hu]))

/-- The first token is the first run, and the runs of the rest come after it. -/
theorem MaximalRuns.cons [DecidablePred p] (h : cut p s = some (t, e))
    (hr : MaximalRuns p e.tail ts) : MaximalRuns p s (t :: ts) := by
  obtain ⟨d, rfl, hd, hne, ht, he⟩ := cut_eq_some h
  obtain ⟨runs, rfl, hsorted, hmem⟩ := hr
  refine ⟨(d.length, t) :: runs.map (fun r => (d.length + (t.length + 1 + r.1), r.2)),
    by simp [Function.comp_def], ?_, fun r => ?_⟩
  · rw [List.pairwise_cons, List.pairwise_map]
    refine ⟨fun q hq => ?_, hsorted.imp fun hlt => by dsimp only; omega⟩
    obtain ⟨r, _, rfl⟩ := List.mem_map.mp hq
    dsimp only
    omega
  · rw [List.append_assoc, run_append hd, List.mem_cons, List.mem_map]
    simp only [run_run hne ht he]
    constructor
    · rintro (rfl | ⟨q, hq, rfl⟩)
      · exact ⟨0, rfl, .inl ⟨rfl, rfl⟩⟩
      · exact ⟨_, rfl, .inr ⟨q.1, rfl, (hmem q).mp hq⟩⟩
    · rintro ⟨k, hk, ⟨rfl, hrt⟩ | ⟨j, rfl, hj⟩⟩
      · exact .inl (Prod.ext hk hrt)
      · exact .inr ⟨(j, r.2), (hmem (j, r.2)).mpr hj, Prod.ext hk.symm rfl⟩

/-- Elements of `p` in front move the runs and add none. -/
theorem MaximalRuns.append (hd : ∀ x ∈ d, p x) (hr : MaximalRuns p s ts) :
    MaximalRuns p (d ++ s) ts := by
  obtain ⟨runs, rfl, hsorted, hmem⟩ := hr
  refine ⟨runs.map fun r => (d.length + r.1, r.2), by simp [Function.comp_def], ?_, fun r => ?_⟩
  · rw [List.pairwise_map]
    exact hsorted.imp fun hlt => Nat.add_lt_add_left hlt d.length
  · rw [run_append hd, List.mem_map]
    constructor
    · rintro ⟨q, hq, rfl⟩
      exact ⟨q.1, rfl, (hmem q).mp hq⟩
    · rintro ⟨k, hk, hr⟩
      exact ⟨(k, r.2), (hmem (k, r.2)).mpr hr, Prod.ext hk.symm rfl⟩

theorem exists_maximalRuns [DecidablePred p] (s : List α) : ∃ ts, MaximalRuns p s ts := by
  induction hn : s.length using Nat.strong_induction_on generalizing s with
  | _ n ih =>
    cases hcut : cut p s with
    | none => exact ⟨[], .nil (cut_eq_none.mp hcut)⟩
    | some r =>
      obtain ⟨t, e⟩ := r
      have hshort := cut_shorter hcut
      obtain ⟨ts, hts⟩ := ih e.tail.length (by rw [List.length_tail]; omega) e.tail rfl
      exact ⟨t :: ts, .cons hcut hts⟩

/-- A list has its maximal runs in one way. -/
theorem MaximalRuns.unique {us : List (List α)} (ht : MaximalRuns p s ts)
    (hu : MaximalRuns p s us) : ts = us := by
  obtain ⟨runs, rfl, hruns, hmem⟩ := ht
  obtain ⟨runs', rfl, hruns', hmem'⟩ := hu
  have hnodup : ∀ l : List (ℕ × List α), l.Pairwise (fun r q => r.1 < q.1) → l.Nodup :=
    fun l hl => hl.imp fun hlt heq => by simp [heq] at hlt
  have hperm : runs.Perm runs' := (List.perm_ext_iff_of_nodup (hnodup _ hruns) (hnodup _ hruns')).mpr
    fun r => (hmem r).trans (hmem' r).symm
  have heq : runs = runs' := hperm.eq_of_pairwise
    (fun a b _ _ hab hba => absurd (hab.trans hba) (lt_irrefl _)) hruns hruns'
  rw [heq]

end Runs

end Tokens
