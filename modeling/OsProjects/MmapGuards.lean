import OsProjects.MmapFrames
import OsProjects.MmapPlacement
import OsProjects.Runs

/-! # Guard pages of growing mappings

What a page fault does to the region table, and when a page stays free behind every
`MAP_GROWSUP` mapping. First fit counts the margin of the mapping below a gap and then
places the new mapping right behind it, a hint is not checked for a margin at all, and a
fault in the last page of a mapping grows it by a page it does not need.
-/
namespace MmapGuards

open Word32 MmapTable MmapFrames MmapTracking MmapPlacement Runs

section Faults

variable {m m' : Memory} {p p' : Proc} {ok : Bool} {page : ℕ}

/-- At most the entry of one page has changed. -/
def Installed (p p' : Proc) (page : ℕ) : Prop :=
  p'.pgdir = p.pgdir ∨ ∃ frame ≠ 0, p'.pgdir = Function.update p.pgdir page (some frame)

theorem mapFresh_table (h : mapFresh m p page = some (m', p', ok)) :
    p'.mmaps = p.mmaps ∧ p'.total_mmaps = p.total_mmaps ∧ Installed p p' page := by
  unfold mapFresh at h
  generalize m.pop = q at h
  obtain ⟨a, m₀⟩ := q
  dsimp only at h
  split at h
  next =>
    cases h
    exact ⟨rfl, rfl, .inl rfl⟩
  next k hk =>
    split_ifs at h
    · obtain ⟨q, hq, he⟩ := Option.map_eq_some_iff.mp h
      cases he
      unfold mapPage at hq
      split at hq <;> cases hq
      refine ⟨rfl, rfl, .inr ⟨a.frame, ?_, rfl⟩⟩
      unfold kalloc at hk
      split_ifs at hk with hfree
      exact hfree.1
    · cases h
      exact ⟨rfl, rfl, .inl rfl⟩

theorem storePages_table {n : ℕ} (hn : n ≤ 1) (h : storePages n page m p = some (m', p', ok)) :
    p'.mmaps = p.mmaps ∧ p'.total_mmaps = p.total_mmaps ∧ Installed p p' page := by
  rcases Nat.le_one_iff_eq_zero_or_eq_one.mp hn with rfl | rfl
  · cases h
    exact ⟨rfl, rfl, .inl rfl⟩
  · rw [storePages] at h
    split at h
    next => cases h
    next hf =>
      cases h
      exact mapFresh_table hf
    next hf =>
      cases h
      exact mapFresh_table hf

/-- The mappings are as before and at most one page has been installed. -/
structure Filled (p p' : Proc) (page : ℕ) : Prop where
  total : p'.total_mmaps = p.total_mmaps
  mappings : ∀ k, (p'.slot k).toMapping = (p.slot k).toMapping
  installed : Installed p p' page

theorem faultIn_filled {i : ℤ} (hi : i ≠ 32) {addr : ℕ}
    (h : faultIn m p i addr = some (m', p')) : Filled p p' (addr / 4096) := by
  unfold faultIn at h
  split_ifs at h
  · cases h
    exact ⟨rfl, fun k => rfl, .inl rfl⟩
  obtain ⟨⟨m₁, q, ok⟩, hs, he⟩ := Option.map_eq_some_iff.mp h
  dsimp only at hs he
  unfold mmap_store_data at hs
  have hpage : pgRoundDown addr / PGSIZE = addr / 4096 := by
    unfold pgRoundDown PGSIZE
    omega
  rw [hpage] at hs
  obtain ⟨hmaps, htot, hinst⟩ := storePages_table (by split_ifs <;> simp only [PGSIZE] at * <;> omega) hs
  have hq : ∀ b : Bool, (if b then q else { q with killed := true }).mmaps = p.mmaps ∧
      (if b then q else { q with killed := true }).total_mmaps = p.total_mmaps ∧
      (if b then q else { q with killed := true }).pgdir = q.pgdir := by
    intro b
    cases b <;> exact ⟨hmaps, htot, rfl⟩
  obtain ⟨hm, ht, hd⟩ := hq ok
  generalize (if ok = true then q else { q with killed := true }) = u at he hm ht hd
  cases he
  refine ⟨by rw [setSlot_total _ hi, ht], fun k => ?_, ?_⟩
  · by_cases hk : k = i
    · subst k
      rw [slot_setSlot_self _ hi, slot_congr hm ht]
    · rw [slot_setSlot_of_ne _ hi hk, slot_congr hm ht]
  · simpa [Installed, Proc.setSlot, hi, hd] using hinst

/-- What a page fault at `addr` does to a table of mappings `l`. -/
inductive Faulted (p : Proc) (l : List Mapping) (addr : ℕ) (p' : Proc) : Prop where
  | filled (reached : p'.pgdir = p.pgdir ∨ ∃ m ∈ l, m.addr ≤ addr ∧ addr ≤ m.addr + m.length)
      (filled : Filled p p' (addr / 4096))
  | grown (i : ℕ) (inside : i < l.length) (flag : has l[i].flags MAP_GROWSUP = true)
      (behind : l[i].addr + l[i].length < addr) (top : (addr / 4096 + 1) * 4096 < KERNBASE)
      (next : ∀ h : i + 1 < l.length, (addr / 4096 + 1) * 4096 < l[i + 1].addr)
      (filled : Filled (p.setSlot i { p.slot i with length := l[i].length + 4096 }) p'
        (addr / 4096))

theorem find_range {n i : ℕ} {f : ℕ → Bool} (h : (List.range n).find? f = some i) :
    i < n ∧ f i = true :=
  ⟨List.mem_range.mp (List.mem_of_find?_eq_some h), List.find?_some h⟩

theorem handle_page_fault_faulted {l : List Mapping} (hk : Kept p l) (hy : Arranged l)
    (hroom : l.length ≤ 32) {addr : ℕ} (haddr : addr < 4294967296)
    (h : handle_page_fault m p addr = some (m', p')) : Faulted p l addr p' := by
  have htot : p.total_mmaps.toNat = l.length := by rw [hk.total, Int.toNat_natCast]
  have hcovers {k : ℕ} (hkl : k < l.length) : covers p addr k = true ↔
      l[k].addr ≤ addr ∧ addr ≤ l[k].addr + l[k].length := by
    obtain ⟨_, _, _, htop⟩ := hy.bounds hkl
    rw [covers, (hk.slot_addr hkl).1, (hk.slot_addr hkl).2.1, wrap_add_of_lt (by omega)]
    simp
  unfold handle_page_fault at h
  rw [htot] at h
  split at h
  next i hi =>
    obtain ⟨hlt, hc⟩ := find_range hi
    exact .filled (.inr ⟨l[i], List.getElem_mem hlt, (hcovers hlt).mp hc⟩)
      (faultIn_filled (by omega) h)
  next hnone =>
    dsimp only at h
    split_ifs at h with htop
    · cases h
      exact .filled (.inl rfl) ⟨rfl, fun _ => rfl, .inl rfl⟩
    split at h
    next i hi =>
      obtain ⟨hlt, hg⟩ := find_range hi
      have hout := List.find?_eq_none.mp hnone i (List.mem_range.mpr hlt)
      obtain ⟨hbase, haligned, hlong, hbound⟩ := hy.bounds hlt
      rw [hcovers hlt] at hout
      simp only [growsTo, (hk.slot_addr hlt).1, (hk.slot_addr hlt).2.2, decide_eq_true_eq] at hg
      obtain ⟨hflag, hstart, hpage, hnext⟩ := hg
      have hend : pgRoundDown (wrap ((addr : ℤ) + (PGSIZE : ℕ))) = (addr / 4096 + 1) * 4096 := by
        simp only [pgRoundDown, wrap, PGSIZE] at hpage ⊢
        omega
      rw [hend] at htop hnext
      have hlen : wrap (((p.slot i).length : ℤ) + (PGSIZE : ℕ)) = l[i].length + 4096 := by
        rw [(hk.slot_addr hlt).2.1]
        exact wrap_add_of_lt (by simp only [PGSIZE]; omega)
      rw [hlen] at h
      refine .grown i hlt hflag (by omega) (by omega) (fun hn => ?_) (faultIn_filled (by omega) h)
      have hslot := (hk.slot_addr hn).1
      push_cast at hslot
      rw [hslot, hk.total] at hnext
      omega
    next =>
      cases h
      exact .filled (.inl rfl) ⟨rfl, fun _ => rfl, .inl rfl⟩

theorem Filled.kept {l : List Mapping} (h : Filled p p' page) (hk : Kept p l) : Kept p' l := by
  refine ⟨h.total.trans hk.total, fun k hkl => ?_, fun k hkl hk32 => ?_⟩
  · rw [h.mappings, hk.entries k hkl]
  · rw [h.mappings]
    exact hk.rest k hkl hk32

/-- Mapping `i` with one page more. -/
def grow (l : List Mapping) (i : ℕ) (hi : i < l.length) : List Mapping :=
  l.set i { l[i] with length := l[i].length + 4096 }

theorem grow_length {l : List Mapping} {i : ℕ} (hi : i < l.length) :
    (grow l i hi).length = l.length := List.length_set

theorem grow_getElem {l : List Mapping} {i k : ℕ} (hi : i < l.length) (hk : k < l.length)
    (hk' : k < (grow l i hi).length) :
    (grow l i hi)[k] = if k = i then { l[i] with length := l[i].length + 4096 } else l[k] := by
  simp only [grow, List.getElem_set]
  split_ifs <;> first | rfl | omega

theorem grow_kept {l : List Mapping} {i : ℕ} (hk : Kept p l) (hroom : l.length ≤ 32)
    (hi : i < l.length) :
    Kept (p.setSlot i { p.slot i with length := l[i].length + 4096 }) (grow l i hi) := by
  have hi32 : (i : ℤ) ≠ 32 := by omega
  refine ⟨?_, fun k hkl => ?_, fun k hkl hk32 => ?_⟩
  · rw [setSlot_total _ hi32, hk.total, grow_length]
  · have hkl' : k < l.length := grow_length hi ▸ hkl
    rw [grow_getElem hi hkl' hkl]
    split_ifs with hki
    · subst k
      rw [slot_setSlot_self _ hi32, ← hk.entries i hi]
    · rw [slot_setSlot_of_ne _ hi32 (by omega), hk.entries k hkl']
  · rw [grow_length] at hkl
    rw [slot_setSlot_of_ne _ hi32 (by omega)]
    exact hk.rest k hkl hk32

theorem next_page_lt {addr b : ℕ} (h : (addr / 4096 + 1) * 4096 < b) (hb : b % 4096 = 0) :
    addr + 4096 < b := by
  obtain ⟨c, rfl⟩ := Nat.dvd_of_mod_eq_zero hb
  have hc : addr / 4096 + 1 < c := by omega
  omega

theorem mem_grow {l : List Mapping} {i k : ℕ} (hi : i < l.length) (hk : k < l.length)
    (hne : k ≠ i) : l[k] ∈ grow l i hi := by
  have hk' : k < (grow l i hi).length := by rwa [grow_length]
  have hget := grow_getElem hi hk hk'
  rw [if_neg hne] at hget
  rw [← hget]
  exact List.getElem_mem hk'

/-- Growing stays below the next mapping: the page that faulted does, and it lies behind the
old end. -/
theorem grow_arranged {l : List Mapping} {i addr : ℕ} (hy : Arranged l) (hi : i < l.length)
    (hbehind : l[i].addr + l[i].length < addr) (htop : (addr / 4096 + 1) * 4096 < KERNBASE)
    (hnext : ∀ h : i + 1 < l.length, (addr / 4096 + 1) * 4096 < l[i + 1].addr) :
    Arranged (grow l i hi) := by
  have hroom := next_page_lt htop (by decide)
  refine ⟨fun m hm => ?_, List.pairwise_iff_getElem.mpr fun j k hj hk hjk => ?_⟩
  · obtain ⟨k, hk, rfl⟩ := List.getElem_of_mem hm
    have hkl : k < l.length := grow_length hi ▸ hk
    rw [grow_getElem hi hkl hk]
    split_ifs
    · refine ⟨(hy.bounds hi).1, (hy.bounds hi).2.1, by simp, ?_⟩
      show l[i].addr + (l[i].length + 4096) ≤ KERNBASE
      omega
    · exact hy.region _ (List.getElem_mem hkl)
  · have hkl : k < l.length := grow_length hi ▸ hk
    rw [grow_getElem hi (by omega) hj, grow_getElem hi hkl hk]
    have hapart := getElem_apart hy.apart hkl hjk
    by_cases hji : j = i
    · subst hji
      rw [if_pos rfl, if_neg (by omega)]
      have hup := next_page_lt (hnext (by omega)) (hy.bounds (by omega)).2.1
      have hfirst : l[j].addr + (l[j].length + 4096) ≤ l[j + 1].addr := by omega
      rcases (by omega : k = j + 1 ∨ j + 1 < k) with rfl | hlt
      · exact hfirst
      · have hrest := getElem_apart hy.apart hkl hlt
        exact hfirst.trans ((Nat.le_add_right _ _).trans hrest)
    · rw [if_neg hji]
      split_ifs with hki
      · subst hki
        exact hapart
      · exact hapart

end Faults

structure Session where
  frames : Frames
  proc : Proc

inductive Call where
  | mmap (addr : BitVec 32) (f : File) (length offset flags protection : BitVec 32)
  | fault (addr : BitVec 32) (answers : List Answer)
  deriving DecidableEq, Repr

def next (s : Session) : Call → Option Session
  | .mmap addr f length offset flags protection =>
    some { s with proc := (my_mmap s.proc addr f length offset flags protection).1 }
  | .fault addr answers =>
    (handle_page_fault ⟨s.frames, answers⟩ s.proc addr.toNat).map fun (m, p) => ⟨m.frames, p⟩

/-- The mappings in the table. -/
def live (p : Proc) : List Mapping :=
  (List.range p.total_mmaps.toNat).map fun k : ℕ => (p.slot k).toMapping

def GrowsUp (m : Mapping) : Prop := has m.flags MAP_GROWSUP = true

/-- There is a free page between the end of a growing mapping and every mapping above it. -/
def Guarded (p : Proc) : Prop :=
  ∀ m ∈ live p, GrowsUp m → ∀ n ∈ live p, m.addr < n.addr → endOf m + PGSIZE ≤ n.addr

/-- Where `my_mmap` puts the mapping if it accepts the call. -/
def target (p : Proc) (addr length : BitVec 32) : ℕ :=
  if addr = 0 then firstFit length.toNat (live p) else addr.toNat

/-- No mapping is placed right behind a growing one, no growing one right below another, and
no fault hits the last page of a growing mapping behind its end while its guard is a single
page. -/
def Harmless (s : Session) : Call → Prop
  | .mmap addr _ length _ flags _ =>
    (∀ m ∈ live s.proc, GrowsUp m → endOf m ≠ target s.proc addr length) ∧
    (has flags MAP_GROWSUP = true → ∀ n ∈ live s.proc,
      pgRoundUp (target s.proc addr length + length.toNat) ≠ n.addr)
  | .fault addr _ => ∀ m ∈ live s.proc, GrowsUp m → m.addr + m.length < addr.toNat →
    addr.toNat < endOf m → ∀ n ∈ live s.proc, n.addr ≠ endOf m + PGSIZE

structure Invariant (s : Session) (l : List Mapping) : Prop where
  listed : Listed s.proc l
  arranged : Arranged l
  room : l.length ≤ 32
  guarded : Guarded s.proc

section Guards

variable {s s' : Session} {l : List Mapping} {p p' : Proc}

theorem live_eq (h : Kept p l) : live p = l := by
  apply List.ext_getElem
  · simp [live, h.total]
  · intro k hk hkl
    simp [live, h.entries k hkl]

/-- No mapping starts where a growing one ends. -/
def Clear (l : List Mapping) : Prop := ∀ m ∈ l, GrowsUp m → ∀ n ∈ l, endOf m ≠ n.addr

/-- Since mappings start at page boundaries, a free page is all there can be between the
rounded end of one and the start of another. -/
theorem guarded_iff_clear (hk : Kept p l) (hy : Arranged l) : Guarded p ↔ Clear l := by
  unfold Guarded Clear
  rw [live_eq hk]
  refine forall₂_congr fun m hm => forall_congr' fun _ => forall₂_congr fun n hn => ?_
  have hend := (hy.region m hm).endOf_eq
  obtain ⟨_, _, hlong, _⟩ := (hy.region m hm).bounds
  have haligned := (hy.region n hn).bounds.2.1
  constructor
  · intro h heq
    have hfree := h (by omega)
    simp only [PGSIZE] at hfree
    omega
  · intro hne hlt
    have hapart := hy.apart_of_lt hm hn hlt
    simp only [PGSIZE]
    omega

theorem placed_clear {pos : ℕ} {m : Mapping} (hc : Clear l) (hm : Region m)
    (hbelow : ∀ x ∈ l, GrowsUp x → endOf x ≠ m.addr)
    (habove : GrowsUp m → ∀ y ∈ l, endOf m ≠ y.addr) : Clear (l.insertIdx pos m) := by
  intro x hx hup y hy
  rcases List.eq_or_mem_of_mem_insertIdx hx with rfl | hx <;>
    rcases List.eq_or_mem_of_mem_insertIdx hy with rfl | hy
  · have hend := hm.endOf_eq
    have hlong := hm.bounds.2.2.1
    omega
  · exact habove hup y hy
  · exact hbelow x (by assumption) hup
  · exact hc x hx hup y hy

theorem endOf_grown {m : Mapping} (h : Region m)
    (hgrown : Region { m with length := m.length + 4096 }) :
    endOf { m with length := m.length + 4096 } = endOf m + 4096 := by
  rw [hgrown.endOf_eq, h.endOf_eq]
  dsimp only
  omega

theorem grow_clear {i addr : ℕ} (hy : Arranged l) (hc : Clear l) (hi : i < l.length)
    (hnext : ∀ h : i + 1 < l.length, (addr / 4096 + 1) * 4096 < l[i + 1].addr)
    (hlast : addr < endOf l[i] → ∀ n ∈ l, n.addr ≠ endOf l[i] + 4096)
    (hgrown : Region { l[i] with length := l[i].length + 4096 }) : Clear (grow l i hi) := by
  have hend := endOf_grown (hy.region _ (List.getElem_mem hi)) hgrown
  have hfar : ∀ n ∈ l, endOf l[i] + 4096 ≠ n.addr := by
    intro n hn heq
    rcases Nat.lt_or_ge addr (endOf l[i]) with hlt | hge
    · exact hlast hlt n hn heq.symm
    · obtain ⟨hreach, haligned, -, -, -⟩ := hy.endOf_bounds hi
      obtain ⟨hlt, hle⟩ := hy.next_le hi hn (by omega)
      have hup := hnext hlt
      omega
  have hmem : ∀ {x}, x ∈ grow l i hi → x = { l[i] with length := l[i].length + 4096 } ∨ x ∈ l :=
    fun hx => (List.mem_or_eq_of_mem_set hx).symm
  intro x hx hup y hy'
  have haddr : ∃ n ∈ l, y.addr = n.addr := by
    rcases hmem hy' with rfl | hyl
    · exact ⟨l[i], List.getElem_mem hi, rfl⟩
    · exact ⟨y, hyl, rfl⟩
  obtain ⟨n, hn, hyn⟩ := haddr
  rw [hyn]
  rcases hmem hx with rfl | hxl
  · rw [hend]
    exact hfar n hn
  · exact hc x hxl hup n hn

theorem mmap_invariant (h : Invariant s l) {addr : BitVec 32} {f : File}
    {length offset flags protection : BitVec 32}
    (hh : Harmless s (.mmap addr f length offset flags protection)) :
    ∃ l', Invariant { s with proc := (my_mmap s.proc addr f length offset flags protection).1 }
      l' := by
  have hk := listed_kept h.listed
  have hclear := (guarded_iff_clear hk h.arranged).mp h.guarded
  have hover : ¬ Overrun s.proc addr := by
    rintro ⟨-, h31, hold⟩
    have hrest := h.listed.rest 31 (by have := h.listed.total; omega) (by omega)
    push_cast at hrest
    omega
  have hout := my_mmap_outcome hk h.arranged h.room hover f length offset flags protection
  obtain ⟨hbelow, habove⟩ := hh
  unfold target at hbelow habove
  rw [live_eq hk] at hbelow habove
  generalize my_mmap s.proc addr f length offset flags protection = r at hout
  cases hout with
  | refused => exact ⟨l, h⟩
  | placed p' pos m opened room mapping fits place =>
    have hlisted := opened.listed h.listed room fits.inside m
    have harranged := h.arranged.insert fits
    refine ⟨l.insertIdx pos m.toMapping, hlisted, harranged, ?_, ?_⟩
    · rw [List.length_insertIdx_of_le_length fits.inside]
      exact room
    · refine (guarded_iff_clear (listed_kept hlisted) harranged).mpr ?_
      rw [← place] at hbelow habove
      have hregion : Region m.toMapping := fits_region fits
      refine placed_clear hclear hregion hbelow fun hup y hy => ?_
      have hflag : has flags MAP_GROWSUP = true := by
        rw [GrowsUp, mapping] at hup
        exact hup
      have hlen : m.length = length.toNat := congrArg Mapping.length mapping
      have hend : endOf m.toMapping = pgRoundUp (m.addr + length.toNat) := by
        obtain ⟨_, _, _, htop⟩ := hregion.bounds
        rw [endOf, wrap_add_of_lt (by omega), hlen]
      rw [hend]
      exact habove hflag y hy
  | promoted m old hint room =>
    have hsmall := h.listed.rest l.length le_rfl (by omega)
    have hbase := old.region.bounds.1
    omega

theorem fault_invariant (h : Invariant s l) {addr : BitVec 32} {answers : List Answer}
    (hh : Harmless s (.fault addr answers)) {m : Memory}
    (hs : handle_page_fault ⟨s.frames, answers⟩ s.proc addr.toNat = some (m, p')) :
    ∃ l', Invariant ⟨m.frames, p'⟩ l' := by
  have hk := listed_kept h.listed
  have hclear := (guarded_iff_clear hk h.arranged).mp h.guarded
  simp only [Harmless, live_eq hk] at hh
  cases handle_page_fault_faulted hk h.arranged h.room addr.isLt hs with
  | filled reached filled =>
    have hlisted : Listed p' l := (filled.kept hk).listed fun k hkl hk32 => by
      rw [filled.mappings]
      exact h.listed.rest k hkl hk32
    exact ⟨l, hlisted, h.arranged, h.room,
      (guarded_iff_clear (listed_kept hlisted) h.arranged).mpr hclear⟩
  | grown i inside flag behind top next filled =>
    have hgrow := grow_arranged h.arranged inside behind top next
    have hlisted : Listed p' (grow l i inside) :=
      (filled.kept (grow_kept hk h.room inside)).listed fun k hkl hk32 => by
        rw [grow_length] at hkl
        rw [filled.mappings, slot_setSlot_of_ne _ (by omega) (by omega)]
        exact h.listed.rest k hkl hk32
    refine ⟨grow l i inside, hlisted, hgrow, by rw [grow_length]; exact h.room, ?_⟩
    refine (guarded_iff_clear (listed_kept hlisted) hgrow).mpr ?_
    refine grow_clear h.arranged hclear inside next
      (fun hlt => hh _ (List.getElem_mem inside) flag behind hlt) (hgrow.region _ ?_)
    exact List.mem_set inside _

theorem step_invariant {c : Call} (h : ∃ l, Invariant s l) (hc : Harmless s c)
    (hs : next s c = some s') : ∃ l, Invariant s' l := by
  obtain ⟨l, h⟩ := h
  cases c with
  | mmap addr f length offset flags protection =>
    obtain rfl := Option.some.inj hs
    exact mmap_invariant h hc
  | fault addr answers =>
    obtain ⟨⟨m, q⟩, hf, he⟩ := Option.map_eq_some_iff.mp hs
    cases he
    exact fault_invariant h hc hf

/-- A process without mappings, with an empty table. -/
def Unmapped (s : Session) : Prop :=
  s.proc.total_mmaps = 0 ∧ ∀ k : ℕ, k < 32 → (s.proc.slot k).addr = 0

theorem unmapped_invariant (h : Unmapped s) : ∃ l, Invariant s l := by
  refine ⟨[], ⟨h.1, fun k hk => absurd hk (Nat.not_lt_zero k), fun k _ hk => ?_⟩, ⟨by simp, .nil⟩,
    by simp, ?_⟩
  · rw [h.2 k hk]
    decide
  · simp [Guarded, live, h.1]

theorem guards_kept {cs : List Call} (h : Unmapped s) (hc : Along next Harmless s cs)
    (hs : run next s cs = some s') : Guarded s'.proc := by
  obtain ⟨l, hinv⟩ := run_invariant (fun _ _ _ h hc hs => step_invariant h hc hs)
    (unmapped_invariant h) hc hs
  exact hinv.guarded

end Guards

instance (m : Mapping) : Decidable (GrowsUp m) := inferInstanceAs (Decidable (_ = true))

instance (p : Proc) : Decidable (Guarded p) :=
  inferInstanceAs (Decidable (∀ m ∈ live p, GrowsUp m → ∀ n ∈ live p, _ < _ → _ ≤ _))

instance (s : Session) (c : Call) : Decidable (Harmless s c) :=
  match c with
  | .mmap _ _ _ _ _ _ => inferInstanceAs (Decidable ((∀ m ∈ _, GrowsUp m → _ ≠ _) ∧
      (_ = true → ∀ n ∈ _, _ ≠ _)))
  | .fault _ _ => inferInstanceAs (Decidable (∀ m ∈ _, GrowsUp m → _ < _ → _ < _ →
      ∀ n ∈ _, _ ≠ _))

def unmappedSession : Session :=
  ⟨⟨fun _ => true, false⟩, ⟨fun _ => Mmp.zero, 0, fun _ => none, false⟩⟩

theorem unmappedSession_unmapped : Unmapped unmappedSession := by
  refine ⟨rfl, fun k hk => ?_⟩
  have h32 : (k : ℤ) ≠ 32 := by omega
  simp [unmappedSession, Proc.slot, h32, Mmp.zero]

/-- An anonymous private mapping of one page. -/
def onePage (addr flags : BitVec 32) : Call := .mmap addr ⟨0, true, true⟩ 4096 0 (flags ||| 5) 3

/-- Two pages of room behind a growing mapping, of which a fault takes the first. -/
def wideGap : List Call :=
  [onePage 0x60000000 (MAP_GROWSUP ||| MAP_FIXED), onePage 0x60003000 MAP_FIXED,
    .fault 0x60001800 [⟨1, true⟩]]

theorem wide_gap_guarded : ∃ s, run next unmappedSession wideGap = some s ∧ Guarded s.proc := by
  have hsome : (run next unmappedSession wideGap).isSome = true := by decide +kernel
  obtain ⟨s, hs⟩ := Option.isSome_iff_exists.mp hsome
  exact ⟨s, hs, guards_kept unmappedSession_unmapped (by decide +kernel) hs⟩

/-- First fit puts the second mapping right behind the growing one. -/
theorem first_fit_unguarded : Unmapped unmappedSession ∧
    ∃ s, run next unmappedSession [onePage 0 MAP_GROWSUP, onePage 0 0] = some s ∧
      ¬ Guarded s.proc := by
  refine ⟨unmappedSession_unmapped, ?_⟩
  have hsome : (run next unmappedSession [onePage 0 MAP_GROWSUP, onePage 0 0]).any
      (fun s => decide (¬ Guarded s.proc)) = true := by decide +kernel
  obtain ⟨s, hs, hg⟩ := (Option.any_eq_true _ _).mp hsome
  exact ⟨s, hs, of_decide_eq_true hg⟩

end MmapGuards
