import OsProjects.PageCache

/-! # When the page cache agrees with the files

A tagged slot holds its page of the file as long as no chunk crosses the end of a cached
page, no cached file is removed, and no page behind the end of a file is asked for at the
cost of a slot in use.
-/
namespace PageCoherence

open ByteMemory Word32 PageCache

def CachedPage.inode (p : CachedPage) : Inode := ⟨p.dev, p.inode_number⟩

/-- The slot's frame holds the file's bytes from `offset` on, zero behind its end. -/
def Holds (F : Frames) (s : State) (i : Slot) : Prop :=
  ∃ o : ℕ, (s.pages i).offset = o ∧ ∀ j, j < PGSIZE →
    s.mem (F.base i + j) = (s.data (CachedPage.inode (s.pages i))).getD (o + j) 0

/-- Every tagged slot holds its page of the file, and no write went behind the end of a page. -/
def Coherent (F : Frames) (s : State) : Prop :=
  (∀ i, (s.pages i).inode_number ≠ 0 → Holds F s i) ∧ s.escaped = false

def Cached (s : State) (ip : Inode) (offset : ℤ) : Prop := ∃ i, Matches (s.pages i) ip offset

/-- A chunk of `r` bytes at file offset `a` that crosses into the next page is written only
when neither page is cached. -/
def ChunkSafe (s : State) (ip : Inode) (a r : ℕ) : Prop :=
  PGSIZE < a % PGSIZE + r →
    ¬ Cached s ip ((a - a % PGSIZE : ℕ) : ℤ) ∧ ¬ Cached s ip ((a - a % PGSIZE + PGSIZE : ℕ) : ℤ)

/-- All chunks of a write that `writei` accepts are safe. -/
def WriteSafe (s : State) (ip : Inode) (off n : ℕ) : Prop :=
  off ≤ (s.data ip).length → ∀ k, MAXCHUNK * k < n →
    off + MAXCHUNK * k + min MAXCHUNK (n - MAXCHUNK * k) ≤ MAXSIZE →
    ChunkSafe s ip (off + MAXCHUNK * k) (min MAXCHUNK (n - MAXCHUNK * k))

/-- A page that is not cached lies in its file, or the slot it would take is unused. -/
def LoadSafe (s : State) (ip : Inode) (offset : BitVec 32) : Prop :=
  ¬ Cached s ip (pageOffset offset) → (s.data ip).length < wrap (pageOffset offset) →
    (s.pages s.totalCount).inode_number = 0

def Harmless (s : State) : Call → Prop
  | .filewrite ip writable off src => writable = true → WriteSafe s ip off src.length
  | .getPage ip offset => LoadSafe s ip offset
  | .copyPage ip offset _ _ => LoadSafe s ip offset
  | .releasesleep _ => True
  | .reuse ip => ∀ offset, ¬ Cached s ip offset

abbrev Along (F : Frames) (P : State → Call → Prop) (s : State) (cs : List Call) : Prop :=
  Runs.Along (next F) P s cs

/-- Tags in use are different and page aligned, and no file is longer than the disk layout
allows. -/
structure Invariant (F : Frames) (s : State) : Prop where
  coherent : Coherent F s
  unique : ∀ i j, (s.pages i).inode_number ≠ 0 → (s.pages i).inode_number = (s.pages j).inode_number →
    (s.pages i).offset = (s.pages j).offset → (s.pages i).dev = (s.pages j).dev → i = j
  aligned : ∀ i, (s.pages i).inode_number ≠ 0 → (s.pages i).offset % (PGSIZE : ℕ) = 0
  bounded : ∀ ip, (s.data ip).length ≤ MAXSIZE

theorem matches_iff {p : CachedPage} {ip : Inode} {offset : ℤ} : Matches p ip offset = true ↔
    p.inode_number = ip.inum ∧ p.offset = offset ∧ p.dev = ip.dev := by
  simp [Matches]

theorem inode_eq_iff {p : CachedPage} {ip : Inode} : CachedPage.inode p = ip ↔
    p.dev = ip.dev ∧ p.inode_number = ip.inum := by
  cases ip
  simp [CachedPage.inode]

theorem findPage_some {s : State} {ip : Inode} {offset : ℤ} {i : Slot}
    (h : findPage s ip offset = some i) : Matches (s.pages i) ip offset = true := by
  simpa using List.find?_some h

theorem findPage_none {s : State} {ip : Inode} {offset : ℤ} (h : findPage s ip offset = none) :
    ¬ Cached s ip offset := by
  rintro ⟨i, hi⟩
  rw [findPage, List.find?_eq_none] at h
  exact h i (List.mem_finRange i) hi

theorem writei_some {d d' src : List UInt8} {off : ℕ} (hd : d.length ≤ MAXSIZE)
    (hs : src.length ≤ MAXCHUNK) (h : writei d off src = some d') :
    off ≤ d.length ∧ off + src.length ≤ MAXSIZE ∧ d' = splice d off src := by
  unfold writei at h
  split_ifs at h with h₁ h₂
  simp only [Option.some.injEq] at h
  refine ⟨by omega, ?_, h.symm⟩
  rw [Nat.mod_eq_of_lt (by simp only [MAXSIZE, MAXCHUNK] at *; omega)] at h₂
  omega

section Chunk

variable {F : Frames} {s : State} {ip : Inode} {off : ℕ} {src : List UInt8}

/-- Bytes of the file that a slot holds and the chunk does not reach. -/
theorem untouched {i : Slot} {o : ℕ} (ho : off ≤ (s.data ip).length)
    (hi : CachedPage.inode (s.pages i) = ip → o + PGSIZE ≤ off ∨ off + src.length ≤ o)
    {j : ℕ} (hj : j < PGSIZE) :
    (Function.update s.data ip (splice (s.data ip) off src)
      (CachedPage.inode (s.pages i))).getD (o + j) 0 =
    (s.data (CachedPage.inode (s.pages i))).getD (o + j) 0 := by
  by_cases hip : CachedPage.inode (s.pages i) = ip
  · have hfar := hi hip
    rw [hip, Function.update_self, splice_getD ho, if_neg (by omega)]
  · rw [Function.update_of_ne hip]

/-- The pages of one file that a safe chunk does not look up are not touched by it. -/
theorem chunk_apart (h : Invariant F s) (hlen : src.length ≤ MAXCHUNK)
    (hsafe : ChunkSafe s ip off src.length) {i : Slot} {o : ℕ}
    (hn : (s.pages i).inode_number ≠ 0) (ho : (s.pages i).offset = o)
    (hne : o ≠ off - off % PGSIZE) (hip : CachedPage.inode (s.pages i) = ip) :
    o + PGSIZE ≤ off ∨ off + src.length ≤ o := by
  have hal := h.aligned i hn
  rw [ho] at hal
  obtain ⟨hdev, hnum⟩ := inode_eq_iff.mp hip
  simp only [PGSIZE, MAXCHUNK] at *
  by_cases hstr : 4096 < off % 4096 + src.length
  · have hnext : o ≠ off - off % 4096 + 4096 := by
      rintro rfl
      exact (hsafe hstr).2 ⟨i, matches_iff.mpr ⟨hnum, ho, hdev⟩⟩
    omega
  · omega

theorem chunk_invariant (h : Invariant F s) (hlen : src.length ≤ MAXCHUNK)
    (ho : off ≤ (s.data ip).length) (hmax : off + src.length ≤ MAXSIZE)
    (hsafe : ChunkSafe s ip off src.length) {s' : State}
    (hup : updatePage F (s.setData ip (splice (s.data ip) off src)) ip off src = some s') :
    Invariant F s' ∧ s'.pages = s.pages ∧ s'.data = (s.setData ip (splice (s.data ip) off src)).data := by
  have hbound : ∀ jp, ((s.setData ip (splice (s.data ip) off src)).data jp).length ≤ MAXSIZE := by
    intro jp
    rcases eq_or_ne jp ip with rfl | hjp
    · simp only [State.setData, Function.update_self, splice_length _ ho]
      exact max_le (h.bounded jp) hmax
    · simp only [State.setData, Function.update_of_ne hjp]
      exact h.bounded jp
  unfold updatePage at hup
  split at hup
  next hnone =>
    cases hup
    refine ⟨⟨⟨fun i hi => ?_, h.coherent.2⟩, h.unique, h.aligned, hbound⟩, rfl, rfl⟩
    obtain ⟨o, hoff, hbytes⟩ := h.coherent.1 i hi
    have hmiss := findPage_none hnone
    refine ⟨o, hoff, fun j hj => (hbytes j hj).trans (untouched ho (fun hip => ?_) hj).symm⟩
    refine chunk_apart h hlen hsafe hi hoff ?_ hip
    rintro rfl
    obtain ⟨hdev, hnum⟩ := inode_eq_iff.mp hip
    exact hmiss ⟨i, matches_iff.mpr ⟨hnum, hoff, hdev⟩⟩
  next i hfound =>
    obtain ⟨hnum, hoff, hdev⟩ := matches_iff.mp (findPage_some hfound)
    simp only [State.setData] at hnum hoff hdev
    split_ifs at hup with hlock
    cases hup
    have hinside : off % PGSIZE + src.length ≤ PGSIZE := by
      by_contra hstr
      exact (hsafe (by omega)).1 ⟨i, matches_iff.mpr ⟨hnum, hoff, hdev⟩⟩
    refine ⟨⟨⟨fun k hk => ?_, ?_⟩, h.unique, h.aligned, hbound⟩, rfl, rfl⟩
    · obtain ⟨o, hko, hbytes⟩ := h.coherent.1 k hk
      refine ⟨o, hko, fun j hj => ?_⟩
      show storeBytes s.mem (F.base i + off % PGSIZE) src (F.base k + j) =
        (Function.update s.data ip (splice (s.data ip) off src)
          (CachedPage.inode (s.pages k))).getD (o + j) 0
      by_cases hki : k = i
      · subst k
        have hip : CachedPage.inode (s.pages i) = ip := inode_eq_iff.mpr ⟨hdev, hnum⟩
        have hpage : o = off - off % PGSIZE := by exact_mod_cast hko.symm.trans hoff
        rw [hip, Function.update_self, splice_getD ho, ← hip, ← hbytes j hj, storeBytes]
        have hmod := Nat.mod_le off PGSIZE
        by_cases hin : off ≤ o + j ∧ o + j < off + src.length
        · rw [if_pos hin, if_pos (by omega)]
          congr 1
          omega
        · rw [if_neg hin, if_neg (by omega)]
      · have hap := F.apart i k (Ne.symm hki)
        rw [storeBytes_outside (by omega), hbytes j hj]
        refine (untouched ho (fun hip => ?_) hj).symm
        refine chunk_apart h hlen hsafe hk hko ?_ hip
        rintro rfl
        obtain ⟨hkdev, hknum⟩ := inode_eq_iff.mp hip
        exact hki (h.unique k i hk (hknum.trans hnum.symm) (hko.trans hoff.symm)
          (hkdev.trans hdev.symm))
    · have hesc := h.coherent.2
      simp only [State.setData, hesc, Bool.false_or, decide_eq_false_iff_not]
      omega

end Chunk

/-- The chunks behind the first one of a write are those of a write of the rest. -/
theorem WriteSafe.tail {s s' : State} {ip : Inode} {off n : ℕ} (h : WriteSafe s ip off n)
    (hoff : off ≤ (s.data ip).length) (hp : s'.pages = s.pages) :
    WriteSafe s' ip (off + MAXCHUNK) (n - MAXCHUNK) := by
  intro _ k hk hmax
  have hcached : ∀ o, Cached s' ip o ↔ Cached s ip o := fun o => by rw [Cached, hp, Cached]
  have hshift : off + MAXCHUNK + MAXCHUNK * k = off + MAXCHUNK * (k + 1) := by ring
  have hrest : n - MAXCHUNK - MAXCHUNK * k = n - MAXCHUNK * (k + 1) := by
    simp only [MAXCHUNK]
    omega
  rw [hshift, hrest] at hmax ⊢
  have hsafe := h hoff (k + 1) (by simp only [MAXCHUNK] at *; omega) hmax
  intro hstr
  rw [hcached, hcached]
  exact hsafe hstr

theorem writeLoop_invariant {F : Frames} {ip : Inode} {fuel off : ℕ} {src : List UInt8}
    {s s' : State} {off' : ℕ} {all : Bool} (h : Invariant F s)
    (hsafe : WriteSafe s ip off src.length)
    (hr : writeLoop F ip fuel off src s = some (s', off', all)) : Invariant F s' := by
  induction fuel generalizing off src s with
  | zero =>
    simp only [writeLoop, Option.some.injEq, Prod.mk.injEq] at hr
    exact hr.1 ▸ h
  | succ fuel ih =>
    simp only [writeLoop] at hr
    split_ifs at hr with hempty
    · simp only [Option.some.injEq, Prod.mk.injEq] at hr
      exact hr.1 ▸ h
    have hpos : 0 < src.length := by
      rcases src with _ | ⟨b, src⟩
      · exact absurd rfl hempty
      · simp
    have hlen : (src.take MAXCHUNK).length = min MAXCHUNK src.length := List.length_take
    split at hr
    next hfail =>
      simp only [Option.some.injEq, Prod.mk.injEq] at hr
      exact hr.1 ▸ h
    next d hw =>
      obtain ⟨hoff, hmax, rfl⟩ := writei_some (h.bounded ip) (by omega) hw
      have hchunk : ChunkSafe s ip off (src.take MAXCHUNK).length := by
        have := hsafe hoff 0 (by omega) (by simpa [hlen] using hmax)
        simpa [hlen] using this
      split at hr
      next => cases hr
      next m hup =>
        obtain ⟨hm, hpages, hdata⟩ := chunk_invariant h (by omega) hoff hmax hchunk hup
        refine ih hm ?_ hr
        rcases Nat.lt_or_ge src.length MAXCHUNK with hlast | hmore
        · intro _ k hk
          rw [List.length_drop] at hk
          omega
        · rw [hlen, min_eq_left hmore, List.length_drop]
          exact hsafe.tail hoff hpages

/-- Only the tag, the frame and the lock of one slot differ, and its new contents fit. -/
theorem Invariant.replace {F : Frames} {s s' : State} (h : Invariant F s) {v : Slot}
    (hpages : ∀ i, i ≠ v → s'.pages i = s.pages i) (hdata : s'.data = s.data)
    (hesc : s'.escaped = s.escaped)
    (hmem : ∀ x, x < F.base v ∨ F.base v + PGSIZE ≤ x → s'.mem x = s.mem x)
    (hv : (s'.pages v).inode_number ≠ 0 → (s'.pages v).offset % (PGSIZE : ℕ) = 0 ∧
      (∀ i, i ≠ v →
        ¬ Matches (s.pages i) (CachedPage.inode (s'.pages v)) (s'.pages v).offset) ∧
      Holds F s' v) : Invariant F s' := by
  refine ⟨⟨fun i hi => ?_, hesc.trans h.coherent.2⟩, ?_, ?_, fun ip => hdata ▸ h.bounded ip⟩
  · by_cases hiv : i = v
    · subst i
      exact (hv hi).2.2
    · rw [hpages i hiv] at hi
      obtain ⟨o, ho, hbytes⟩ := h.coherent.1 i hi
      rw [Holds, hpages i hiv, hdata]
      refine ⟨o, ho, fun j hj => ?_⟩
      have hap := F.apart i v hiv
      exact (hmem _ (by omega)).trans (hbytes j hj)
  · have hclash : ∀ i, i ≠ v → (s'.pages v).inode_number ≠ 0 →
        (s.pages i).inode_number = (s'.pages v).inode_number →
        (s.pages i).offset = (s'.pages v).offset → (s.pages i).dev ≠ (s'.pages v).dev :=
      fun i hi hn hnum hoff hdev => (hv hn).2.1 i hi (matches_iff.mpr ⟨hnum, hoff, hdev⟩)
    intro i j hi hnum hoff hdev
    by_cases hiv : i = v <;> by_cases hjv : j = v
    · exact hiv.trans hjv.symm
    · subst i
      rw [hpages j hjv] at hnum hoff hdev
      exact absurd hdev.symm (hclash j hjv hi hnum.symm hoff.symm)
    · subst j
      rw [hpages i hiv] at hi hnum hoff hdev
      exact absurd hdev (hclash i hiv (hnum ▸ hi) hnum hoff)
    · rw [hpages i hiv] at hi hnum hoff hdev
      rw [hpages j hjv] at hnum hoff hdev
      exact h.unique i j hi hnum hoff hdev
  · intro i hi
    by_cases hiv : i = v
    · subst i
      exact (hv hi).1
    · rw [hpages i hiv] at hi ⊢
      exact h.aligned i hi

theorem Invariant.setLocked {F : Frames} {s : State} (h : Invariant F s) (v : Slot) (b : Bool) :
    Invariant F (s.setPage v { s.pages v with locked := b }) := by
  have hself : (s.setPage v { s.pages v with locked := b }).pages v =
      { s.pages v with locked := b } := Function.update_self ..
  refine h.replace (fun i hi => Function.update_of_ne hi ..) rfl rfl (fun _ _ => rfl) ?_
  rw [Holds, hself]
  intro hn
  refine ⟨h.aligned v hn, fun i hi hm => ?_, h.coherent.1 v hn⟩
  obtain ⟨hnum, hoff, hdev⟩ := matches_iff.mp hm
  have hi0 : (s.pages i).inode_number ≠ 0 := fun h0 => hn (hnum.symm.trans h0)
  exact hi (h.unique i v hi0 hnum hoff hdev)

/-- A negative offset is far behind the end of any file once it is read as unsigned. -/
theorem pageOffset_nonneg {offset : BitVec 32} {n : ℕ} (hn : n ≤ MAXSIZE)
    (h : wrap (pageOffset offset) ≤ n) :
    pageOffset offset = (wrap (pageOffset offset) : ℕ) ∧ pageOffset offset % (PGSIZE : ℕ) = 0 := by
  have hlo : -2147483648 ≤ offset.toInt := by
    have := BitVec.le_toInt offset
    simpa using this
  have hhi : offset.toInt < 2147483648 := by
    have := BitVec.toInt_lt (x := offset)
    simpa using this
  have hpage : pageOffset offset = PGSIZE * offset.toInt.tdiv PGSIZE := by
    have := Int.tmod_add_mul_tdiv offset.toInt PGSIZE
    rw [pageOffset]
    omega
  have hrange : -2147483648 ≤ pageOffset offset ∧ pageOffset offset < 2147483648 := by
    rw [pageOffset]
    rcases le_or_gt 0 offset.toInt with hpos | hneg
    · rw [Int.tmod_eq_emod_of_nonneg hpos]
      simp only [PGSIZE]
      omega
    · have hneg' := Int.neg_tmod (-offset.toInt) PGSIZE
      rw [neg_neg, Int.tmod_eq_emod_of_nonneg (show 0 ≤ -offset.toInt by omega)] at hneg'
      rw [hneg']
      simp only [PGSIZE]
      omega
  refine ⟨?_, ?_⟩
  · simp only [wrap, MAXSIZE] at h hn ⊢
    omega
  · rw [hpage]
    simp

theorem readi_some {d bs : List UInt8} {off n : ℕ} (h : readi d off n = some bs) :
    off ≤ d.length ∧ bs = (d.drop off).take n := by
  unfold readi at h
  split_ifs at h with hb
  simp only [Option.some.injEq] at h
  exact ⟨by omega, h.symm⟩

theorem readi_none {d : List UInt8} {off : ℕ} (hd : d.length ≤ MAXSIZE)
    (h : readi d off PGSIZE = none) : d.length < off := by
  unfold readi at h
  split_ifs at h with hb
  by_contra hle
  rw [Nat.mod_eq_of_lt (by simp only [PGSIZE, MAXSIZE] at *; omega)] at hb
  omega

/-- A cleared frame that then receives what the file has from `off` on. -/
theorem loaded_byte (m : Mem) (a : ℕ) (d : List UInt8) (off j : ℕ) (hj : j < PGSIZE) :
    storeBytes (storeBytes m a (List.replicate PGSIZE 0)) a ((d.drop off).take PGSIZE) (a + j) =
      d.getD (off + j) 0 := by
  by_cases hin : j < ((d.drop off).take PGSIZE).length
  · rw [storeBytes_inside hin]
    simp only [List.length_take, List.length_drop] at hin
    simp [show off + j < d.length by omega]
  · rw [storeBytes_outside (by omega), storeBytes_inside (by simpa using hj)]
    simp only [List.length_take, List.length_drop] at hin
    simp [show d.length ≤ off + j by omega]

theorem getPage_invariant {F : Frames} {s s' : State} {ip : Inode} {offset : BitVec 32}
    {r : Option Slot} (h : Invariant F s) (hsafe : LoadSafe s ip offset)
    (hg : getPage F s ip offset = some (s', r)) : Invariant F s' := by
  unfold getPage at hg
  split at hg
  next i hfound =>
    split_ifs at hg
    cases hg
    exact h.setLocked i true
  next hnone =>
    have hmiss := findPage_none hnone
    dsimp only at hg
    split_ifs at hg with hlock
    split at hg
    next hfail =>
      cases hg
      have hunused := hsafe hmiss (readi_none (h.bounded ip) hfail)
      refine h.replace (v := s.totalCount) (fun i hi => Function.update_of_ne hi ..) rfl rfl
        (fun x hx => storeBytes_outside (by simpa using hx)) fun hn => ?_
      simp only [State.setPage, Function.update_self] at hn
      exact absurd hunused hn
    next bs hread =>
      cases hg
      obtain ⟨hle, rfl⟩ := readi_some hread
      obtain ⟨hoff, hal⟩ := pageOffset_nonneg (h.bounded ip) hle
      refine h.replace (v := s.totalCount) (fun i hi => Function.update_of_ne hi ..) rfl rfl ?_ fun hn => ?_
      · intro x hx
        have hlen : (((s.data ip).drop (wrap (pageOffset offset))).take PGSIZE).length ≤ PGSIZE :=
          List.length_take_le _ _
        exact (storeBytes_outside (by omega)).trans (storeBytes_outside (by simpa using hx))
      · simp only [State.setPage, Function.update_self, Holds]
        refine ⟨hal, fun i hi hm => hmiss ⟨i, hm⟩, _, hoff, fun j hj => ?_⟩
        exact loaded_byte s.mem (F.base s.totalCount) (s.data ip) _ j hj

theorem reuse_invariant {F : Frames} {s : State} {ip : Inode} (h : Invariant F s)
    (hc : ∀ offset, ¬ Cached s ip offset) : Invariant F (s.setData ip []) := by
  refine ⟨⟨fun i hi => ?_, h.coherent.2⟩, h.unique, h.aligned, fun jp => ?_⟩
  · have hne : CachedPage.inode (s.pages i) ≠ ip := by
      intro hip
      obtain ⟨hdev, hnum⟩ := inode_eq_iff.mp hip
      exact hc _ ⟨i, matches_iff.mpr ⟨hnum, rfl, hdev⟩⟩
    obtain ⟨o, ho, hbytes⟩ := h.coherent.1 i hi
    refine ⟨o, ho, fun j hj => (hbytes j hj).trans ?_⟩
    simp only [State.setData, Function.update_of_ne hne]
  · rcases eq_or_ne jp ip with rfl | hjp
    · simp [State.setData]
    · simp only [State.setData, Function.update_of_ne hjp]
      exact h.bounded jp

theorem call_preserves_invariant {F : Frames} {s s' : State} {c : Call} (h : Invariant F s)
    (hc : Harmless s c) (hs : next F s c = some s') : Invariant F s' := by
  cases c with
  | filewrite ip writable off src =>
    simp only [next, filewrite] at hs
    split_ifs at hs with hw
    · simp only [Option.map_map, Option.map_eq_some_iff] at hs
      obtain ⟨⟨m, off', all⟩, hloop, rfl⟩ := hs
      exact writeLoop_invariant h (hc hw) hloop
    · cases hs
      exact h
  | getPage ip offset =>
    obtain ⟨⟨m, r⟩, hg, rfl⟩ := Option.map_eq_some_iff.mp hs
    exact getPage_invariant h hc hg
  | releasesleep i =>
    cases hs
    exact h.setLocked i false
  | copyPage ip offset size dest_offset =>
    obtain ⟨⟨m, bytes⟩, hcopy, rfl⟩ := Option.map_eq_some_iff.mp hs
    unfold copyPage at hcopy
    split at hcopy
    next => cases hcopy
    next hg =>
      cases hcopy
      exact getPage_invariant h hc hg
    next i hg =>
      cases hcopy
      exact (getPage_invariant h hc hg).setLocked i false
  | reuse ip =>
    cases hs
    exact reuse_invariant h hc

theorem run_preserves_invariant {F : Frames} {s s' : State} {cs : List Call}
    (h : Invariant F s) (hc : Along F Harmless s cs) (hr : run F s cs = some s') :
    Invariant F s' :=
  Runs.run_invariant (fun _ _ _ => call_preserves_invariant) h hc hr

theorem initial_invariant {F : Frames} {mem : Mem} {data : Inode → List UInt8}
    (hd : ∀ ip, (data ip).length ≤ MAXSIZE) : Invariant F (initial mem data) :=
  ⟨⟨fun _ hi => absurd rfl hi, rfl⟩, fun _ _ hi => absurd rfl hi, fun _ hi => absurd rfl hi, hd⟩

/-- From an empty cache over any files, a run of harmless calls keeps every tagged slot
equal to its page of the file and never writes outside a page. -/
theorem harmless_run_coherent {F : Frames} {mem : Mem} {data : Inode → List UInt8}
    (hd : ∀ ip, (data ip).length ≤ MAXSIZE) {cs : List Call} {s : State}
    (hc : Along F Harmless (initial mem data) cs) (hr : run F (initial mem data) cs = some s) :
    Coherent F s :=
  (run_preserves_invariant (initial_invariant hd) hc hr).coherent

def adjacentFrames : Frames :=
  ⟨fun i => PGSIZE * i, fun i j h => by
    have : (i : ℕ) ≠ j := fun hv => h (Fin.ext hv)
    simp only [PGSIZE]
    omega⟩

/-- One file of 4090 bytes, six short of a page. -/
def oneFileData (ip : Inode) : List UInt8 :=
  if ip = ⟨1, 5⟩ then List.replicate 4090 7 else []

def oneFile : State := initial (fun _ => 0) oneFileData

theorem oneFileData_bounded (ip : Inode) : (oneFileData ip).length ≤ MAXSIZE := by
  unfold oneFileData
  split_ifs
  · rw [List.length_replicate]
    decide
  · exact Nat.zero_le _

/-- A write inside a cached page is harmless, and the cache follows it. -/
theorem inner_write_coherent : ∃ s, run adjacentFrames oneFile
    [.copyPage ⟨1, 5⟩ 0 4096 0, .filewrite ⟨1, 5⟩ true 4000 [1, 2, 3]] = some s ∧
    Coherent adjacentFrames s := by
  have hsome : (run adjacentFrames oneFile
      [.copyPage ⟨1, 5⟩ 0 4096 0, .filewrite ⟨1, 5⟩ true 4000 [1, 2, 3]]).isSome = true := by
    decide +kernel
  obtain ⟨s, hs⟩ := Option.isSome_iff_exists.mp hsome
  have hharmless : Along adjacentFrames Harmless oneFile
      [.copyPage ⟨1, 5⟩ 0 4096 0, .filewrite ⟨1, 5⟩ true 4000 [1, 2, 3]] := by
    refine ⟨fun _ hlt => absurd hlt (by decide +kernel), fun s' _ => ⟨?_, fun _ _ => trivial⟩⟩
    intro _ _ k hk _ hstr
    have hk0 : k = 0 := by
      simp only [MAXCHUNK, List.length_cons, List.length_nil] at hk
      omega
    subst k
    exact absurd hstr (by decide)
  exact ⟨s, hs, harmless_run_coherent oneFileData_bounded hharmless hs⟩

/-- Ten bytes at offset 4090 run over the end of the cached page. Removing the cached file
instead leaves its first byte in a slot that still carries the tag. -/
theorem straddling_write_incoherent :
    (∃ s, run adjacentFrames oneFile [.copyPage ⟨1, 5⟩ 0 4096 0,
        .filewrite ⟨1, 5⟩ true 4090 [1, 2, 3, 4, 5, 6, 7, 8, 9, 10]] = some s ∧
      ¬ Coherent adjacentFrames s) ∧
    ∃ s, run adjacentFrames oneFile [.copyPage ⟨1, 5⟩ 0 4096 0, .reuse ⟨1, 5⟩] = some s ∧
      ¬ Coherent adjacentFrames s := by
  constructor
  · have hsome : ((run adjacentFrames oneFile [.copyPage ⟨1, 5⟩ 0 4096 0,
        .filewrite ⟨1, 5⟩ true 4090 [1, 2, 3, 4, 5, 6, 7, 8, 9, 10]]).any (·.escaped)) = true := by
      decide +kernel
    obtain ⟨s, hs, hesc⟩ := (Option.any_eq_true _ _).mp hsome
    refine ⟨s, hs, fun hcoh => ?_⟩
    rw [hcoh.2] at hesc
    cases hesc
  · have hsome : ((run adjacentFrames oneFile
        [.copyPage ⟨1, 5⟩ 0 4096 0, .reuse ⟨1, 5⟩]).any fun s =>
          s.pages 0 = ⟨1, 5, 0, false⟩ ∧ s.mem 0 = 7 ∧ s.data ⟨1, 5⟩ = []) = true := by
      decide +kernel
    obtain ⟨s, hs, hst⟩ := (Option.any_eq_true _ _).mp hsome
    simp only [decide_eq_true_eq] at hst
    obtain ⟨htag, hbyte, hdata⟩ := hst
    refine ⟨s, hs, fun hcoh => ?_⟩
    obtain ⟨o, -, hbytes⟩ := hcoh.1 0 (by rw [htag]; decide)
    have hzero := hbytes 0 (by decide)
    rw [htag] at hzero
    simp [CachedPage.inode, hdata, adjacentFrames, hbyte] at hzero

end PageCoherence
