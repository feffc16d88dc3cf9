import OsProjects.AtomicStore
import OsProjects.RedoLog
import OsProjects.Runs
import OsProjects.WordArrays

/-! # The transaction log of the file system

`log.c` over the buffer cache. File system calls are in progress together, and the last of them to
end commits what all have logged. A step writes at most one block to the disk, so that a crash,
which may come between any two steps, also finds logs half written and half installed. -/
namespace DiskLog

open ByteMemory WordArrays RedoLog AtomicStore

def LOGSIZE : ℕ := 30
def MAXOPBLOCKS : ℕ := 10

/-- The part of the disk that the superblock sets aside for the log. -/
structure Area where
  start : ℕ
  size : ℕ
  room : 0 < size

def Area.slot (area : Area) (tail : ℕ) : ℕ := area.start + tail + 1

/-- The blocks outside the log. -/
def Area.Home (area : Area) (b : ℕ) : Prop := b < area.start ∨ area.start + area.size ≤ b

instance (area : Area) (b : ℕ) : Decidable (area.Home b) := inferInstanceAs (Decidable (_ ∨ _))

/-- A block is a memory of which the first `BSIZE` bytes are used. -/
structure Buf where
  data : Mem
  dirty : Bool

inductive Phase where
  | running
  | write_log (tail : ℕ)
  /-- In a commit, or in the recovery from a crash. -/
  | install_trans (recovery : Bool) (tail : ℕ)
  | boot

structure State where
  disk : ℕ → Mem
  cache : ℕ → Option Buf
  lh : List ℕ
  outstanding : ℕ
  phase : Phase

def boot (disk : ℕ → Mem) : State := ⟨disk, fun _ => none, [], 0, .boot⟩

def contents (s : State) (b : ℕ) : Mem := (s.cache b).elim (s.disk b) Buf.data

def bread (s : State) (b : ℕ) : State :=
  { s with cache := Function.update s.cache b (some ((s.cache b).getD ⟨s.disk b, false⟩)) }

/-- The buffer gets the data and is written to the disk. -/
def bwrite (s : State) (b : ℕ) (data : Mem) : State :=
  { s with
    disk := Function.update s.disk b data
    cache := Function.update s.cache b (some ⟨data, false⟩) }

/-- One round of the loops of `write_log` and `install_trans`. -/
def copy (s : State) (src dst : ℕ) : State := bwrite (bread s src) dst (contents s src)

/-- `struct logheader`. -/
def storeHead (hb : Mem) (lh : List ℕ) : Mem := storeWords (storeWord hb 0 lh.length) 4 lh
def loadHead (hb : Mem) : List ℕ := loadWords hb 4 (loadWord hb 0)

section Code

variable (area : Area)

def read_head (s : State) : State :=
  { bread s area.start with lh := loadHead (contents s area.start) }

def write_head (s : State) : State :=
  bwrite s area.start (storeHead (contents s area.start) s.lh)

inductive Event where
  | begin_op
  /-- The caller has given the block this data. -/
  | log_write (b : ℕ) (data : Mem)
  | end_op
  /-- The next disk write of `commit` or step of `recover_from_log`. -/
  | advance
  | bread (b : ℕ)
  /-- `bget` recycles the buffer for another block. -/
  | recycle (b : ℕ)
  | crash

def panics (s : State) : Event → Bool
  | .log_write _ _ => LOGSIZE ≤ s.lh.length || area.size - 1 ≤ s.lh.length || s.outstanding < 1
  | _ => false

def begin_op (s : State) : Option State :=
  if s.lh.length + (s.outstanding + 1) * MAXOPBLOCKS ≤ LOGSIZE then
    some { s with outstanding := s.outstanding + 1 }
  else
    -- sleeps
    none

def log_write (s : State) (b : ℕ) (data : Mem) : State :=
  { s with
    cache := Function.update s.cache b (some ⟨data, true⟩)
    -- a block that is in the log is absorbed
    lh := if b ∈ s.lh then s.lh else s.lh ++ [b] }

def end_op (s : State) : Option State :=
  if s.outstanding = 0 then none
  else
    let s := { s with outstanding := s.outstanding - 1 }
    -- commit() writes nothing when nothing is logged
    some (if s.outstanding = 0 ∧ s.lh ≠ [] then { s with phase := .write_log 0 } else s)

def advance (s : State) : Option State :=
  match s.phase with
  | .running => none
  | .write_log tail =>
    match s.lh[tail]? with
    | some b => some { copy s b (area.slot tail) with phase := .write_log (tail + 1) }
    | none => some { write_head area s with phase := .install_trans false 0 }
  | .boot => some { read_head area s with phase := .install_trans true 0 }
  | .install_trans recovery tail =>
    match s.lh[tail]? with
    | some b => some { copy s (area.slot tail) b with phase := .install_trans recovery (tail + 1) }
    | none => some { write_head area { s with lh := [] } with phase := .running }

/-- Other processes read blocks during a commit but not during a recovery. -/
def Phase.live : Phase → Bool
  | .running | .write_log _ | .install_trans false _ => true
  | .install_trans true _ | .boot => false

def Phase.isRunning : Phase → Bool
  | .running => true
  | _ => false

def recycle (s : State) (b : ℕ) : Option State :=
  if (s.cache b).all fun buf => !buf.dirty then
    some { s with cache := Function.update s.cache b none }
  else none

def next (s : State) : Event → Option State
  | .begin_op => if s.phase.isRunning then begin_op s else none
  | .log_write b data =>
    if s.phase.isRunning && !panics area s (.log_write b data) then some (log_write s b data)
    else none
  | .end_op => if s.phase.isRunning then end_op s else none
  | .advance => advance area s
  | .bread b => if s.phase.live then some (bread s b) else none
  | .recycle b => recycle s b
  | .crash => some (boot s.disk)

def labels (s : State) : Event → List (Label ℕ Mem)
  | .begin_op => [.begin]
  | .log_write b data => [.write b data]
  | .end_op => [.finish]
  | .advance =>
    match s.phase with
    | .write_log tail => if tail < s.lh.length then [] else [.commit]
    | _ => []
  | .bread b => if area.Home b then [.read b (contents s b)] else []
  | .recycle _ => []
  | .crash => [.crash]

def trace (s : State) : List Event → List (Label ℕ Mem)
  | [] => []
  | e :: es => labels area s e ++ (next area s e).elim [] fun s => trace s es

/-- The file system writes to no block of the log. -/
def Event.Permitted : Event → Prop
  | .log_write b _ => area.Home b ∧ b < 4294967296
  | _ => True

end Code

section Buffers

variable {s : State} {L L' : List ℕ} {b c : ℕ} {data : Mem}

theorem contents_bread : contents (bread s b) c = contents s c := by
  simp only [contents, bread, Function.update_apply]
  split_ifs with h
  · subst h
    cases s.cache c <;> rfl
  · rfl

theorem contents_bwrite :
    contents (bwrite s b data) c = if c = b then data else contents s c := by
  simp only [contents, bwrite, Function.update_apply]
  split_ifs <;> rfl

theorem contents_log_write :
    contents (log_write s b data) c = if c = b then data else contents s c := by
  simp only [contents, log_write, Function.update_apply]
  split_ifs <;> rfl

theorem contents_copy {src dst : ℕ} :
    contents (copy s src dst) c = if c = dst then contents s src else contents s c := by
  rw [copy, contents_bwrite, contents_bread]

/-- A clean buffer holds what is on the disk, and the dirty ones are in the list. -/
def Tidy (s : State) (L : List ℕ) : Prop :=
  ∀ b buf, s.cache b = some buf → buf = ⟨s.disk b, false⟩ ∨ (buf.dirty = true ∧ b ∈ L)

theorem Tidy.contents (h : Tidy s L) (hb : b ∉ L) : contents s b = s.disk b := by
  rw [DiskLog.contents]
  cases hc : s.cache b with
  | none => rfl
  | some buf =>
    obtain rfl | ⟨-, hL⟩ := h b buf hc
    · rfl
    · exact absurd hL hb

theorem Tidy.bread (h : Tidy s L) : Tidy (bread s b) L := by
  intro c buf hc
  simp only [DiskLog.bread, Function.update_apply] at hc
  split_ifs at hc with hcb
  · subst hcb
    obtain rfl := Option.some.inj hc
    cases hc : s.cache c with
    | none => exact .inl rfl
    | some buf => exact h c buf hc
  · exact h c buf hc

theorem Tidy.bwrite (h : Tidy s L) (hL : ∀ c ∈ L, c ≠ b → c ∈ L') :
    Tidy (bwrite s b data) L' := by
  intro c buf hc
  simp only [DiskLog.bwrite, Function.update_apply] at hc ⊢
  split_ifs at hc ⊢ with hcb
  · exact .inl (Option.some.inj hc).symm
  · exact (h c buf hc).imp_right fun ⟨hd, hm⟩ => ⟨hd, hL c hm hcb⟩

theorem Tidy.copy {src dst : ℕ} (h : Tidy s L) (hL : ∀ c ∈ L, c ≠ dst → c ∈ L') :
    Tidy (copy s src dst) L' := h.bread.bwrite hL

theorem mem_log_write : c ∈ (log_write s b data).lh ↔ c ∈ s.lh ∨ c = b := by
  simp only [log_write]
  split_ifs with hb
  · exact ⟨.inl, Or.rec id fun h => h ▸ hb⟩
  · simp

theorem Tidy.log_write (h : Tidy s s.lh) :
    Tidy (log_write s b data) (log_write s b data).lh := by
  intro c buf hc
  rw [mem_log_write]
  simp only [DiskLog.log_write, Function.update_apply] at hc ⊢
  split_ifs at hc with hcb
  · obtain rfl := Option.some.inj hc
    exact .inr ⟨rfl, .inr hcb⟩
  · exact (h c buf hc).imp_right fun ⟨hd, hm⟩ => ⟨hd, .inl hm⟩

end Buffers

section Disks

variable {area : Area} {s : State} {d : ℕ → Mem} {lh : List ℕ} {b i : ℕ} {data hb : Mem}

def header (area : Area) (d : ℕ → Mem) : List ℕ := loadHead (d area.start)

/-- What the blocks hold once the log on the disk is installed. -/
def restored (area : Area) (d : ℕ → Mem) (b : ℕ) : Mem :=
  redo (header area d) (fun tail => d (area.slot tail)) d b

/-- What a header has to be for an installation to be safe. -/
structure WellFormed (area : Area) (lh : List ℕ) : Prop where
  nodup : lh.Nodup
  home : ∀ b ∈ lh, area.Home b
  word : ∀ b ∈ lh, b < 4294967296
  head : lh.length ≤ LOGSIZE
  slots : lh.length < area.size

theorem wellFormed_nil : WellFormed area [] :=
  ⟨List.nodup_nil, fun _ h => absurd h List.not_mem_nil, fun _ h => absurd h List.not_mem_nil,
    Nat.zero_le _, area.room⟩

theorem WellFormed.log_write (h : WellFormed area s.lh) (hb : area.Home b) (hw : b < 4294967296)
    (hp : panics area s (.log_write b data) = false) :
    WellFormed area (log_write s b data).lh := by
  have hroom := area.room
  simp only [panics, Bool.or_eq_false_iff, decide_eq_false_iff_not] at hp
  refine ⟨?_, fun c hc => ?_, fun c hc => ?_, ?_, ?_⟩
  · simp only [DiskLog.log_write]
    split_ifs with hm
    · exact h.nodup
    · exact h.nodup.append (List.nodup_singleton b) (by simpa using hm)
  · obtain hc | rfl := mem_log_write.mp hc
    · exact h.home c hc
    · exact hb
  · obtain hc | rfl := mem_log_write.mp hc
    · exact h.word c hc
    · exact hw
  all_goals
    have := h.head
    have := h.slots
    simp only [DiskLog.log_write]
    split_ifs
    · omega
    · rw [List.length_append, List.length_singleton]
      omega

theorem Area.start_not_home : ¬ area.Home area.start := by
  have := area.room
  simp only [Home]
  omega

theorem Area.slot_not_home (hi : i + 1 < area.size) : ¬ area.Home (area.slot i) := by
  simp only [Home, slot]
  omega

theorem Area.home_ne_start (h : area.Home b) : b ≠ area.start := by
  rintro rfl
  exact start_not_home h

theorem Area.home_ne_slot (h : area.Home b) (hi : i + 1 < area.size) : b ≠ area.slot i := by
  rintro rfl
  exact slot_not_home hi h

theorem Area.slot_ne_start : area.slot i ≠ area.start := by
  simp only [slot]
  omega

theorem Area.slot_injective {j : ℕ} (h : area.slot i = area.slot j) : i = j := by
  simp only [slot] at h
  omega

theorem loadHead_storeHead (hw : ∀ b ∈ lh, b < 4294967296) (hlen : lh.length ≤ LOGSIZE) :
    loadHead (storeHead hb lh) = lh := by
  have hn : loadWord (storeHead hb lh) 0 = lh.length := by
    rw [storeHead, loadWord_storeWords_of_disjoint (by omega), loadWord_storeWord,
      Nat.mod_eq_of_lt (by simp only [LOGSIZE] at hlen; omega)]
  rw [loadHead, hn, storeHead, loadWords_storeWords hw]

theorem header_update_of_ne (h : b ≠ area.start) :
    header area (Function.update d b data) = header area d := by
  rw [header, Function.update_of_ne h.symm, header]

theorem header_update_start (hw : ∀ b ∈ lh, b < 4294967296) (hlen : lh.length ≤ LOGSIZE) :
    header area (Function.update d area.start (storeHead hb lh)) = lh := by
  rw [header, Function.update_self, loadHead_storeHead hw hlen]

theorem restored_of_header_nil (h : header area d = []) : restored area d b = d b := by
  rw [restored, h, redo_nil]

end Disks

section Refinement

variable {area : Area} {s s' : State} {a : Store ℕ Mem} {b tail : ℕ}

/-- The blocks whose buffers may be dirty. -/
def unflushed (s : State) : List ℕ :=
  match s.phase with
  | .running | .write_log _ => s.lh
  | .install_trans false tail => s.lh.drop tail
  | .install_trans true _ | .boot => []

/-- How far the commit or the recovery has come. -/
def Stage (area : Area) (s : State) (a : Store ℕ Mem) : Prop :=
  match s.phase with
  | .running => header area s.disk = [] ∧ (s.outstanding = 0 → s.lh = [])
  | .write_log tail => header area s.disk = [] ∧ s.outstanding = 0 ∧
      ∀ i (hi : i < s.lh.length), i < tail → s.disk (area.slot i) = contents s s.lh[i]
  | .install_trans _ tail => header area s.disk = s.lh ∧ s.outstanding = 0 ∧
      a.current = a.durable ∧
      ∀ i (hi : i < s.lh.length), i < tail → s.disk s.lh[i] = s.disk (area.slot i)
  | .boot => s.outstanding = 0 ∧ a.current = a.durable

structure Refines (area : Area) (s : State) (a : Store ℕ Mem) : Prop where
  head : WellFormed area (header area s.disk)
  logged : WellFormed area s.lh
  active : a.active = s.outstanding
  durable : ∀ b, area.Home b → a.durable b = restored area s.disk b
  current : s.phase.live = true → ∀ b, area.Home b → a.current b = contents s b
  tidy : Tidy s (unflushed s)
  stage : Stage area s a

theorem mem_of_mem_unflushed (h : b ∈ unflushed s) : b ∈ s.lh := by
  simp only [unflushed] at h
  split at h
  · exact h
  · exact h
  · exact List.mem_of_mem_drop h
  all_goals exact absurd h List.not_mem_nil

theorem Refines.contents_of_not_home (h : Refines area s a) (hb : ¬ area.Home b) :
    contents s b = s.disk b :=
  h.tidy.contents fun hm => hb (h.logged.home b (mem_of_mem_unflushed hm))

theorem isRunning_eq : s.phase.isRunning = true ↔ s.phase = .running := by
  cases s.phase <;> simp [Phase.isRunning]

theorem begin_op_refines (h : Refines area s a) (hphase : s.phase = .running)
    (hn : begin_op s = some s') : Refines area s' { a with active := a.active + 1 } := by
  rw [begin_op, Option.ite_none_right_eq_some] at hn
  obtain ⟨-, hn⟩ := hn
  obtain rfl := Option.some.inj hn
  have hstage := h.stage
  rw [Stage, hphase] at hstage
  refine ⟨h.head, h.logged, congrArg (· + 1) h.active, h.durable, h.current, h.tidy, ?_⟩
  simp only [Stage, hphase]
  exact ⟨hstage.1, fun h0 => absurd h0 (Nat.succ_ne_zero _)⟩

theorem log_write_refines {data : Mem} (h : Refines area s a) (hphase : s.phase = .running)
    (hp : panics area s (.log_write b data) = false) (hb : area.Home b) (hw : b < 4294967296) :
    0 < a.active ∧
      Refines area (log_write s b data)
        { a with current := Function.update a.current b data } := by
  have hstage := h.stage
  have hactive : 0 < s.outstanding := by
    simp only [panics, Bool.or_eq_false_iff, decide_eq_false_iff_not] at hp
    omega
  have htidy := h.tidy
  simp only [unflushed, hphase] at htidy
  rw [Stage, hphase] at hstage
  refine ⟨h.active ▸ hactive, h.head, h.logged.log_write hb hw hp, h.active, h.durable, ?_, ?_,
    ?_⟩
  · intro _ c hc
    rw [contents_log_write, ← h.current (by rw [hphase]; rfl) c hc]
    exact Function.update_apply _ _ _ _
  · simp only [unflushed, log_write, hphase]
    exact htidy.log_write
  · simp only [Stage, log_write, hphase]
    exact ⟨hstage.1, fun h0 => absurd h0 (Nat.ne_of_gt hactive)⟩

theorem end_op_refines (h : Refines area s a) (hphase : s.phase = .running)
    (hn : end_op s = some s') :
    0 < a.active ∧ Refines area s' { a with active := a.active - 1 } := by
  rw [end_op, Option.ite_none_left_eq_some] at hn
  obtain ⟨h0, hn⟩ := hn
  obtain rfl := Option.some.inj hn
  have hstage := h.stage
  rw [Stage, hphase] at hstage
  refine ⟨h.active ▸ Nat.pos_of_ne_zero h0, ?_⟩
  have hactive : a.active - 1 = s.outstanding - 1 := congrArg (· - 1) h.active
  have hcurrent := h.current (by rw [hphase]; rfl)
  have htidy := h.tidy
  simp only [unflushed, hphase] at htidy
  split_ifs with hlast
  · refine ⟨h.head, h.logged, hactive, h.durable, fun _ => hcurrent, htidy, ?_⟩
    exact ⟨hstage.1, hlast.1, fun i _ hi => absurd hi (Nat.not_lt_zero i)⟩
  · refine ⟨h.head, h.logged, hactive, h.durable, fun _ => hcurrent, h.tidy, ?_⟩
    simp only [Stage, hphase]
    exact ⟨hstage.1, fun h1 => by_contra fun hne => hlast ⟨h1, hne⟩⟩

/-- A block copied to its slot, while the header on the disk is empty. -/
theorem write_log_refines (h : Refines area s a) (hphase : s.phase = .write_log tail)
    (hb : s.lh[tail]? = some b) :
    Refines area { copy s b (area.slot tail) with phase := .write_log (tail + 1) } a := by
  obtain ⟨ht, rfl⟩ := List.getElem?_eq_some_iff.mp hb
  have hslot : tail + 1 < area.size := lt_of_le_of_lt ht h.logged.slots
  have hne : ∀ c, area.Home c → c ≠ area.slot tail := fun c hc => Area.home_ne_slot hc hslot
  obtain ⟨hhead, hout, hwritten⟩ : _ ∧ _ ∧ _ := by
    have := h.stage
    rwa [Stage, hphase] at this
  have hhead' :
      header area (Function.update s.disk (area.slot tail) (contents s s.lh[tail])) = [] := by
    rw [header_update_of_ne Area.slot_ne_start, hhead]
  have htidy := h.tidy
  simp only [unflushed, hphase] at htidy
  refine ⟨?_, h.logged, h.active, fun c hc => ?_, fun _ c hc => ?_, ?_, hhead', hout, ?_⟩
  · exact hhead'.symm ▸ wellFormed_nil
  · rw [h.durable c hc, restored_of_header_nil hhead]
    exact ((restored_of_header_nil hhead').trans (Function.update_of_ne (hne c hc) _ _)).symm
  · rw [h.current (by rw [hphase]; rfl) c hc]
    exact (contents_copy.trans (if_neg (hne c hc))).symm
  · exact htidy.copy fun c hc _ => hc
  · intro i hi hlt
    have hkeep : contents (copy s s.lh[tail] (area.slot tail)) s.lh[i] = contents s s.lh[i] :=
      contents_copy.trans (if_neg (hne _ (h.logged.home _ (List.getElem_mem hi))))
    refine Eq.trans ?_ hkeep.symm
    obtain rfl | hlt := Nat.eq_or_lt_of_le (Nat.le_of_lt_succ hlt)
    · exact Function.update_self _ _ _
    · have hne : area.slot i ≠ area.slot tail := fun he => (Area.slot_injective he ▸ hlt).false
      exact (Function.update_of_ne hne _ _).trans (hwritten i hi hlt)

/-- The point at which the operations of the group become durable, all of them at once. -/
theorem commit_refines (h : Refines area s a) (hphase : s.phase = .write_log tail)
    (hb : s.lh[tail]? = none) :
    a.active = 0 ∧
      Refines area { write_head area s with phase := .install_trans false 0 }
        { a with durable := a.current } := by
  have ht := List.getElem?_eq_none_iff.mp hb
  obtain ⟨hhead, hout, hwritten⟩ : _ ∧ _ ∧ _ := by
    have := h.stage
    rwa [Stage, hphase] at this
  have htidy := h.tidy
  simp only [unflushed, hphase] at htidy
  have hcurrent := h.current (by rw [hphase]; rfl)
  set d := Function.update s.disk area.start (storeHead (contents s area.start) s.lh) with hd
  have hhead' : header area d = s.lh := header_update_start h.logged.word h.logged.head
  have hkeep : ∀ c, c ≠ area.start → d c = s.disk c := fun c hc => Function.update_of_ne hc _ _
  have hdurable : ∀ c, area.Home c → restored area d c = contents s c := by
    intro c hc
    rw [restored, hhead']
    refine redo_commit h.logged.nodup (fun i hi => ?_) fun hm => ?_
    · rw [hkeep _ Area.slot_ne_start, hwritten i hi (lt_of_lt_of_le hi ht)]
    · rw [hkeep c (Area.home_ne_start hc), htidy.contents hm]
  refine ⟨h.active.trans hout, ?_⟩
  refine ⟨?_, h.logged, h.active, fun c hc => ?_, fun _ c hc => ?_, ?_, hhead', hout, rfl, ?_⟩
  · exact hhead'.symm ▸ h.logged
  · exact (hcurrent c hc).trans (hdurable c hc).symm
  · exact (hcurrent c hc).trans (contents_bwrite.trans (if_neg (Area.home_ne_start hc))).symm
  · exact htidy.bwrite fun c hc _ => hc
  · exact fun i _ hi => absurd hi (Nat.not_lt_zero i)

/-- A slot copied home, in a commit or in a recovery. -/
theorem install_refines {recovery : Bool} (h : Refines area s a)
    (hphase : s.phase = .install_trans recovery tail) (hb : s.lh[tail]? = some b) :
    Refines area
      { copy s (area.slot tail) b with phase := .install_trans recovery (tail + 1) } a := by
  obtain ⟨ht, rfl⟩ := List.getElem?_eq_some_iff.mp hb
  obtain ⟨hhead, hout, hcur, hinstalled⟩ : _ ∧ _ ∧ _ ∧ _ := by
    have := h.stage
    rwa [Stage, hphase] at this
  have hhome : area.Home s.lh[tail] := h.logged.home _ (List.getElem_mem ht)
  have hslots : ∀ i < s.lh.length, area.slot i ≠ s.lh[tail] := fun i hi =>
    (Area.home_ne_slot hhome (lt_of_le_of_lt hi h.logged.slots)).symm
  have hread : contents s (area.slot tail) = s.disk (area.slot tail) :=
    h.contents_of_not_home (Area.slot_not_home (lt_of_le_of_lt ht h.logged.slots))
  set d := Function.update s.disk s.lh[tail] (contents s (area.slot tail)) with hd
  have hhead' : header area d = s.lh :=
    (header_update_of_ne (Area.home_ne_start hhome)).trans hhead
  have hdurable : ∀ c, restored area d c = restored area s.disk c := by
    intro c
    rw [restored, hhead', restored, hhead]
    have hsame : redo s.lh (fun tail => d (area.slot tail)) d c =
        redo s.lh (fun tail => s.disk (area.slot tail)) d c :=
      redo_congr (fun i hi => Function.update_of_ne (hslots i hi) _ _) fun _ => rfl
    rw [hsame, hd]
    exact redo_update ht _
  refine ⟨?_, h.logged, h.active, fun c hc => ?_, fun hlive c hc => ?_, ?_, hhead', hout, hcur,
    ?_⟩
  · exact hhead'.symm ▸ h.logged
  · exact (h.durable c hc).trans (hdurable c).symm
  · refine Eq.trans ?_ contents_copy.symm
    split_ifs with hct
    · subst hct
      rw [hcur, h.durable _ hc, restored, hhead, redo_getElem h.logged.nodup ht, hread]
    · refine h.current ?_ c hc
      rw [hphase]
      cases recovery
      · rfl
      · cases hlive
  · have htidy := h.tidy
    simp only [unflushed, hphase] at htidy ⊢
    refine htidy.copy fun c hc hne => ?_
    cases recovery with
    | true => exact hc
    | false =>
      have hc : c ∈ s.lh.drop tail := hc
      rw [List.drop_eq_getElem_cons ht] at hc
      exact (List.mem_cons.mp hc).resolve_left hne
  · intro i (hi : i < s.lh.length) hlt
    change d s.lh[i] = d (area.slot i)
    rw [hd, Function.update_of_ne (hslots i hi)]
    by_cases he : s.lh[i] = s.lh[tail]
    · obtain rfl := (h.logged.nodup.getElem_inj_iff).mp he
      rw [Function.update_self, hread]
    · rw [Function.update_of_ne he]
      refine hinstalled i hi (Nat.lt_of_le_of_ne (Nat.le_of_lt_succ hlt) ?_)
      rintro rfl
      exact he rfl

theorem erase_refines {recovery : Bool} (h : Refines area s a)
    (hphase : s.phase = .install_trans recovery tail) (hb : s.lh[tail]? = none) :
    Refines area { write_head area { s with lh := [] } with phase := .running } a := by
  have ht := List.getElem?_eq_none_iff.mp hb
  obtain ⟨hhead, hout, hcur, hinstalled⟩ : _ ∧ _ ∧ _ ∧ _ := by
    have := h.stage
    rwa [Stage, hphase] at this
  have htidy : Tidy s [] := by
    have htidy := h.tidy
    simp only [unflushed, hphase] at htidy
    cases recovery with
    | true => exact htidy
    | false =>
      have htidy : Tidy s (s.lh.drop tail) := htidy
      rwa [List.drop_eq_nil_of_le ht] at htidy
  have hdisk : ∀ c, area.Home c → a.durable c = s.disk c := by
    intro c hc
    rw [h.durable c hc, restored, hhead]
    exact redo_installed fun i hi => hinstalled i hi (lt_of_lt_of_le hi ht)
  set d := Function.update s.disk area.start (storeHead (contents s area.start) []) with hd
  have hhead' : header area d = [] :=
    header_update_start (fun _ h => absurd h List.not_mem_nil) (Nat.zero_le _)
  refine ⟨hhead'.symm ▸ wellFormed_nil, wellFormed_nil, h.active, fun c hc => ?_,
    fun _ c hc => ?_, ?_, hhead', fun _ => rfl⟩
  · rw [hdisk c hc]
    exact ((restored_of_header_nil hhead').trans
      (Function.update_of_ne (Area.home_ne_start hc) _ _)).symm
  · rw [hcur, hdisk c hc]
    refine Eq.trans ?_ (contents_bwrite.trans (if_neg (Area.home_ne_start hc))).symm
    exact (htidy.contents List.not_mem_nil).symm
  · exact htidy.bwrite (s := { s with lh := [] }) fun c hc _ => hc

theorem read_head_refines (h : Refines area s a) (hphase : s.phase = .boot) :
    Refines area { read_head area s with phase := .install_trans true 0 } a := by
  obtain ⟨hout, hcur⟩ : _ ∧ _ := by
    have := h.stage
    rwa [Stage, hphase] at this
  have htidy := h.tidy
  simp only [unflushed, hphase] at htidy
  have hlh : (read_head area s).lh = header area s.disk :=
    congrArg loadHead (h.contents_of_not_home Area.start_not_home)
  refine ⟨h.head, hlh.symm ▸ h.head, h.active, h.durable, fun hlive => ?_, htidy.bread, hlh.symm,
    hout, hcur, fun i _ hi => absurd hi (Nat.not_lt_zero i)⟩
  cases hlive

/-- Buffers may come and go as long as the contents stay. -/
theorem Refines.recache {cache : ℕ → Option Buf} (h : Refines area s a)
    (hc : ∀ b, contents { s with cache := cache } b = contents s b)
    (ht : Tidy { s with cache := cache } (unflushed s)) :
    Refines area { s with cache := cache } a := by
  refine ⟨h.head, h.logged, h.active, h.durable, fun hlive b hb => ?_, ht, ?_⟩
  · rw [hc, h.current hlive b hb]
  · have hstage := h.stage
    simp only [Stage] at hstage ⊢
    split at hstage
    · exact hstage
    · exact ⟨hstage.1, hstage.2.1, fun i hi hlt => (hstage.2.2 i hi hlt).trans (hc _).symm⟩
    · exact hstage
    · exact hstage

theorem recycle_refines (h : Refines area s a) (hn : recycle s b = some s') :
    Refines area s' a := by
  rw [recycle, Option.ite_none_right_eq_some] at hn
  obtain ⟨hclean, hn⟩ := hn
  obtain rfl := Option.some.inj hn
  refine h.recache (fun c => ?_) fun c buf hc => ?_
  · simp only [contents, Function.update_apply]
    split_ifs with hcb
    · subst hcb
      cases hc : s.cache c with
      | none => rfl
      | some buf =>
        rw [hc, Option.all_some] at hclean
        obtain rfl | ⟨hd, -⟩ := h.tidy c buf hc
        · rfl
        · rw [hd] at hclean
          cases hclean
    · rfl
  · simp only [Function.update_apply] at hc
    split_ifs at hc
    exact h.tidy c buf hc

theorem crash_refines (h : Refines area s a) :
    Refines area (boot s.disk) ⟨a.durable, a.durable, 0⟩ := by
  refine ⟨h.head, wellFormed_nil, rfl, h.durable, ?_, ?_, rfl, rfl⟩
  · rintro ⟨⟩
  · rintro c buf ⟨⟩

theorem advance_refines (h : Refines area s a) (hn : next area s .advance = some s') :
    ∃ a', Steps a (labels area s .advance) a' ∧ Refines area s' a' := by
  simp only [next, advance] at hn
  cases hphase : s.phase with
  | running => simp [hphase] at hn
  | boot =>
    have hl : labels area s .advance = [] := by simp [labels, hphase]
    simp only [hphase] at hn
    obtain rfl := Option.some.inj hn
    rw [hl]
    exact ⟨a, .nil a, read_head_refines h hphase⟩
  | write_log tail =>
    simp only [hphase] at hn
    cases hb : s.lh[tail]? with
    | some b =>
      have ht : tail < s.lh.length := (List.getElem?_eq_some_iff.mp hb).1
      have hl : labels area s .advance = [] := by simp [labels, hphase, ht]
      rw [hb] at hn
      obtain rfl := Option.some.inj hn
      rw [hl]
      exact ⟨a, .nil a, write_log_refines h hphase hb⟩
    | none =>
      have ht : s.lh.length ≤ tail := List.getElem?_eq_none_iff.mp hb
      have hl : labels area s .advance = [.commit] := by simp [labels, hphase, ht]
      rw [hb] at hn
      obtain rfl := Option.some.inj hn
      obtain ⟨hidle, h'⟩ := commit_refines h hphase hb
      rw [hl]
      exact ⟨_, .single (.commit a hidle), h'⟩
  | install_trans recovery tail =>
    have hl : labels area s .advance = [] := by simp [labels, hphase]
    simp only [hphase] at hn
    rw [hl]
    cases hb : s.lh[tail]? with
    | some b =>
      rw [hb] at hn
      obtain rfl := Option.some.inj hn
      exact ⟨a, .nil a, install_refines h hphase hb⟩
    | none =>
      rw [hb] at hn
      obtain rfl := Option.some.inj hn
      exact ⟨a, .nil a, erase_refines h hphase hb⟩

theorem bread_refines (h : Refines area s a) (hlive : s.phase.live = true) :
    Steps a (labels area s (.bread b)) a ∧ Refines area (bread s b) a := by
  refine ⟨?_, h.recache (fun _ => contents_bread) h.tidy.bread⟩
  rw [labels]
  split_ifs with hb
  · rw [← h.current hlive b hb]
    exact .single (.read a b)
  · exact .nil a

/-- A step of the code is what its labels say of the store. -/
theorem next_refines {e : Event} (h : Refines area s a) (he : e.Permitted area)
    (hn : next area s e = some s') :
    ∃ a', Steps a (labels area s e) a' ∧ Refines area s' a' := by
  cases e with
  | begin_op =>
    rw [next, Option.ite_none_right_eq_some] at hn
    exact ⟨_, .single (.begin a), begin_op_refines h (isRunning_eq.mp hn.1) hn.2⟩
  | log_write b data =>
    rw [next, Option.ite_none_right_eq_some, Bool.and_eq_true, Bool.not_eq_true'] at hn
    obtain ⟨⟨hrun, hp⟩, hn⟩ := hn
    obtain rfl := Option.some.inj hn
    obtain ⟨hactive, h'⟩ := log_write_refines h (isRunning_eq.mp hrun) hp he.1 he.2
    exact ⟨_, .single (.write a b data hactive), h'⟩
  | end_op =>
    rw [next, Option.ite_none_right_eq_some] at hn
    obtain ⟨hactive, h'⟩ := end_op_refines h (isRunning_eq.mp hn.1) hn.2
    exact ⟨_, .single (.finish a hactive), h'⟩
  | advance => exact advance_refines h hn
  | bread b =>
    rw [next, Option.ite_none_right_eq_some] at hn
    obtain rfl := Option.some.inj hn.2
    exact ⟨a, bread_refines h hn.1⟩
  | recycle b => exact ⟨a, .nil a, recycle_refines h hn⟩
  | crash =>
    obtain rfl := Option.some.inj hn
    exact ⟨_, .single (.crash a), crash_refines h⟩

theorem run_refines {es : List Event} (h : Refines area s a) (hes : ∀ e ∈ es, e.Permitted area)
    (hr : Runs.run (next area) s es = some s') :
    ∃ a', Steps a (trace area s es) a' ∧ Refines area s' a' := by
  induction es generalizing s a with
  | nil =>
    obtain rfl := Option.some.inj hr
    exact ⟨a, .nil a, h⟩
  | cons e es ih =>
    obtain ⟨u, hu, hr⟩ := Option.bind_eq_some_iff.mp hr
    obtain ⟨a₁, hsteps, h₁⟩ := next_refines h (hes e List.mem_cons_self) hu
    obtain ⟨a₂, hsteps', h₂⟩ := ih h₁ (fun e he => hes e (List.mem_cons_of_mem _ he)) hr
    refine ⟨a₂, ?_, h₂⟩
    rw [trace, hu]
    exact hsteps.append hsteps'

theorem boot_refines {d : ℕ → Mem} (h : WellFormed area (header area d)) :
    Refines area (boot d) ⟨restored area d, restored area d, 0⟩ := by
  refine ⟨h, wellFormed_nil, rfl, fun _ _ => rfl, ?_, ?_, rfl, rfl⟩
  · rintro ⟨⟩
  · rintro c buf ⟨⟩

end Refinement

section Recovery

variable {area : Area} {s : State} {tail : ℕ}

/-- An installation comes to its end, however long the log is. -/
theorem install_completes {recovery : Bool} (n : ℕ)
    (hphase : s.phase = .install_trans recovery tail) (hn : tail + n = s.lh.length) :
    ∃ s', Runs.run (next area) s (List.replicate (n + 1) .advance) = some s' ∧
      s'.phase = .running ∧ trace area s (List.replicate (n + 1) .advance) = [] := by
  have hl : labels area s .advance = [] := by simp only [labels, hphase]
  induction n generalizing s tail with
  | zero =>
    have hb : s.lh[tail]? = none := List.getElem?_eq_none_iff.mpr (by omega)
    have hstep : next area s .advance =
        some { write_head area { s with lh := [] } with phase := .running } := by
      simp only [next, advance, hphase, hb]
    refine ⟨_, by rw [List.replicate_succ, Runs.run, hstep]; rfl, rfl, ?_⟩
    rw [List.replicate_succ, trace, hl, hstep]
    rfl
  | succ n ih =>
    have ht : tail < s.lh.length := by omega
    set u : State := { copy s (area.slot tail) s.lh[tail] with
      phase := .install_trans recovery (tail + 1) } with hu
    have hstep : next area s .advance = some u := by
      simp only [next, advance, hphase, List.getElem?_eq_getElem ht, hu]
    have hn' : tail + 1 + n = u.lh.length := by
      rw [← Nat.add_right_comm, Nat.add_assoc, hn]
      rfl
    obtain ⟨s', hr, hrun, htrace⟩ := ih (s := u) rfl hn' rfl
    refine ⟨s', by rw [List.replicate_succ, Runs.run, hstep]; exact hr, hrun, ?_⟩
    rw [List.replicate_succ, trace, hl, hstep]
    exact htrace

theorem recovery_completes (area : Area) (d : ℕ → Mem) :
    ∃ n s', Runs.run (next area) (boot d) (List.replicate n .advance) = some s' ∧
      s'.phase = .running ∧ trace area (boot d) (List.replicate n .advance) = [] := by
  let s : State := { read_head area (boot d) with phase := .install_trans true 0 }
  have hphase : s.phase = .install_trans true 0 := rfl
  obtain ⟨s', hr, hrun, htrace⟩ := install_completes s.lh.length hphase (Nat.zero_add _)
  exact ⟨s.lh.length + 1 + 1, s', hr, hrun, htrace⟩

end Recovery

section Results

variable {area : Area} {d : ℕ → Mem} {es : List Event} {s : State}

/-- Every run of the log, with crashes anywhere, is a run of a store with atomic groups: the disk
always holds what is durable, and a reader always sees what is current. -/
theorem log_refines_atomic (hd : WellFormed area (header area d))
    (hes : ∀ e ∈ es, e.Permitted area) (hr : Runs.run (next area) (boot d) es = some s) :
    ∃ a, Steps ⟨restored area d, restored area d, 0⟩ (trace area (boot d) es) a ∧
      a.active = s.outstanding ∧
      (∀ b, area.Home b → restored area s.disk b = a.durable b) ∧
      (s.phase.live = true → ∀ b, area.Home b → contents s b = a.current b) := by
  obtain ⟨a, hsteps, h⟩ := run_refines (boot_refines hd) hes hr
  exact ⟨a, hsteps, h.active, fun b hb => (h.durable b hb).symm,
    fun hlive b hb => (h.current hlive b hb).symm⟩

theorem logsize_pos : 0 < LOGSIZE := Nat.succ_pos 29

/-- Where `mkfs` puts the log. -/
def mkfsArea : Area := ⟨2, LOGSIZE, logsize_pos⟩

/-- Two operations in one group, which is committed, and of which the first block is installed. -/
def groupRun : List Event :=
  [.advance, .advance, .begin_op, .log_write 50 (fun _ => 7), .begin_op, .end_op,
    .log_write 51 (fun _ => 8), .end_op, .advance, .advance, .advance, .advance]

theorem header_zero {area : Area} : header area (fun _ _ => 0) = [] := rfl

theorem permitted_groupRun : ∀ e ∈ groupRun, e.Permitted mkfsArea := by
  simp [groupRun, Event.Permitted, Area.Home, mkfsArea, LOGSIZE]

theorem log_refines_atomic_groupRun :
    ∃ s, Runs.run (next mkfsArea) (boot fun _ _ => 0) groupRun = some s ∧
      ∃ a, Steps ⟨restored mkfsArea (fun _ _ => 0),
          restored mkfsArea (fun _ _ => 0), 0⟩
          (trace mkfsArea (boot fun _ _ => 0) groupRun) a ∧
        a.active = s.outstanding ∧
        (∀ b, mkfsArea.Home b →
          restored mkfsArea s.disk b = a.durable b) ∧
        (s.phase.live = true → ∀ b, mkfsArea.Home b →
          contents s b = a.current b) := by
  obtain ⟨s, hs⟩ := Option.isSome_iff_exists.mp
    (show (Runs.run (next mkfsArea) (boot fun _ _ => 0) groupRun).isSome = true by decide)
  exact ⟨s, hs, log_refines_atomic (header_zero ▸ wellFormed_nil) permitted_groupRun hs⟩

/-- After a crash at any point of any run, the recovery ends, and the blocks hold exactly the
writes of the groups that were committed. When no operation is in progress, nothing is lost. -/
theorem recovers_committed (hd : WellFormed area (header area d))
    (hes : ∀ e ∈ es, e.Permitted area) (hr : Runs.run (next area) (boot d) es = some s) :
    ∃ n s', Runs.run (next area) s (.crash :: List.replicate n .advance) = some s' ∧
      s'.phase = .running ∧
      (∀ b, area.Home b → contents s' b =
        overlay (settled (trace area (boot d) es)).1 (restored area d) b) ∧
      (s.phase = .running → s.outstanding = 0 → ∀ b, area.Home b →
        contents s' b = contents s b) := by
  obtain ⟨a, hsteps, h⟩ := run_refines (boot_refines hd) hes hr
  obtain ⟨n, s', hr', hphase, htrace⟩ := recovery_completes area s.disk
  have hpermitted : ∀ e ∈ List.replicate n Event.advance, e.Permitted area := fun e he => by
    rw [List.eq_of_mem_replicate he]
    trivial
  obtain ⟨a', hsteps', h'⟩ := run_refines (crash_refines h) hpermitted hr'
  rw [htrace] at hsteps'
  cases hsteps'
  refine ⟨n, s', hr', hphase, fun b hb => ?_, fun hrun hidle b hb => ?_⟩
  · rw [← h'.current (by rw [hphase]; rfl) b hb]
    exact congrFun (hsteps.settled rfl).1 b
  · have hstage := h.stage
    rw [Stage, hrun] at hstage
    have htidy := h.tidy
    simp only [unflushed, hrun, hstage.2 hidle] at htidy
    rw [← h'.current (by rw [hphase]; rfl) b hb]
    refine (h.durable b hb).trans ?_
    rw [restored_of_header_nil hstage.1, htidy.contents List.not_mem_nil]

/-- The second block is not installed when the crash comes, and is there after the recovery. -/
theorem recovers_committed_groupRun :
    ∃ s, Runs.run (next mkfsArea) (boot fun _ _ => 0) groupRun = some s ∧
      s.disk 50 0 = 7 ∧ s.disk 51 0 = 0 ∧
      ∃ n s', Runs.run (next mkfsArea) s (.crash :: List.replicate n .advance) = some s' ∧
        s'.phase = .running ∧ contents s' 51 0 = 8 ∧
        (∀ b, mkfsArea.Home b → contents s' b =
          overlay (settled (trace mkfsArea (boot fun _ _ => 0) groupRun)).1
            (restored mkfsArea fun _ _ => 0) b) ∧
        (s.phase = .running → s.outstanding = 0 → ∀ b, mkfsArea.Home b →
          contents s' b = contents s b) := by
  obtain ⟨s, hs, hdisk⟩ := (Option.any_eq_true _ _).mp
    (show (Runs.run (next mkfsArea) (boot fun _ _ => 0) groupRun).any
      (fun s => s.disk 50 0 = 7 ∧ s.disk 51 0 = 0) = true by decide +kernel)
  obtain ⟨hfirst, hsecond⟩ := of_decide_eq_true hdisk
  obtain ⟨n, s', hr, hphase, hblocks, hidle⟩ :=
    recovers_committed (header_zero ▸ wellFormed_nil) permitted_groupRun hs
  refine ⟨s, hs, hfirst, hsecond, n, s', hr, hphase, ?_, hblocks, hidle⟩
  rw [hblocks 51 (by decide)]
  decide +kernel

end Results

end DiskLog
