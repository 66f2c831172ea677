import PadMule.Engine.MetSave
import PadMule.Lib.FileMap

/-
  The config dir: four files for each download index, and the two readers of the
  whole directory, `next_part_index` (`engine.rs`) and `resume_downloads`
  (`multi_source.rs`).

  Both readers go by the names ending in `.part.met` (`mem_metIndices`). The file
  operations of a save act on the met files of one index as `MetOp`s act on a `MetDir`
  (`metDir_run`), and no operation of one index touches another's files.
-/

namespace PadMule.Engine

open Files PadMule.Proto Decimal FileMap

abbrev ConfigDir := Dir Bytes Bytes

abbrev FileOp := Op Bytes Bytes

inductive FileKind where
  | part
  | met
  | tmp
  | bak
deriving DecidableEq

/-- `.part`, `.part.met`, `.part.met.tmp`, `.part.met.bak`. -/
def FileKind.suffix : FileKind → Bytes
  | part => [0x2E, 0x70, 0x61, 0x72, 0x74]
  | met => [0x2E, 0x70, 0x61, 0x72, 0x74, 0x2E, 0x6D, 0x65, 0x74]
  | tmp => [0x2E, 0x70, 0x61, 0x72, 0x74, 0x2E, 0x6D, 0x65, 0x74, 0x2E, 0x74, 0x6D, 0x70]
  | bak => [0x2E, 0x70, 0x61, 0x72, 0x74, 0x2E, 0x6D, 0x65, 0x74, 0x2E, 0x62, 0x61, 0x6B]

/-- An index in decimal, padded with zeros to three digits. -/
def paddedIndex (i : Nat) : Bytes := List.replicate (3 - (toDecimal i).length) 48 ++ toDecimal i

/-- `paths`, and the names derived from the met's. -/
def fileName (i : Nat) (k : FileKind) : Bytes := paddedIndex i ++ k.suffix

/-- The u32 in front of `.part.met`, if that is what the name is. -/
def stemIndex (name : Bytes) : Option Nat :=
  (name.dropSuffix? FileKind.met.suffix).bind (parseUnsigned (2 ^ 32))

def metIndices (d : ConfigDir) : List Nat := (names d).filterMap stemIndex

/-- `next_part_index`. -/
def nextPartIndex (d : ConfigDir) : Nat := ((metIndices d).foldl max 0 + 1) % 2 ^ 32

def metDir (d : ConfigDir) (i : Nat) : MetDir :=
  ⟨get d (fileName i .met), get d (fileName i .tmp), get d (fileName i .bak)⟩

/-- `PartStore::open` on a directory. -/
def openPart (d : ConfigDir) (i : Nat) : Except OpenError PartStore :=
  openStore (metDir d i) (get d (fileName i .part))

/-- `resume_downloads`: what opens, in the order of the indices. -/
def resumeDownloads (d : ConfigDir) : List (Nat × PartStore) :=
  ((metIndices d).mergeSort (· ≤ ·)).filterMap fun i => (openPart d i).toOption.map fun s => (i, s)

/-! ## The file operations of a download's life -/

def MetOp.toFileOp (i : Nat) : MetOp → FileOp
  | writeTmp b => .write (fileName i .tmp) b
  | promote => .rename (fileName i .met) (fileName i .bak)
  | install => .rename (fileName i .tmp) (fileName i .met)

def saveFileOps (i : Nat) (s : PartStore) : List FileOp := (saveOps s).map (MetOp.toFileOp i)

/-- `create`: open with truncation, set the length, save. -/
def createFileOps (i : Nat) (s : PartStore) : List FileOp :=
  .write (fileName i .part) [] :: .write (fileName i .part) (List.replicate s.pf.size 0) ::
    saveFileOps i s

/-- `finish` and `finish_in_place`: the data file leaves for the downloads directory,
    and only then the met goes. -/
def finishFileOps (d : ConfigDir) (i : Nat) : List FileOp :=
  if (get d (fileName i .part)).isSome then
    [.remove (fileName i .part), .remove (fileName i .met)]
  else []

def removeBackingFiles (i : Nat) : List FileOp :=
  [.remove (fileName i .part), .remove (fileName i .met)]

/-! ## Names -/

theorem isDigit_paddedIndex {i : Nat} : ∀ b ∈ paddedIndex i, IsDigit b := by
  intro b hb
  rcases List.mem_append.mp hb with hb | hb
  · rw [List.eq_of_mem_replicate hb]
    decide
  · exact isDigit_of_mem_toDecimal hb

/-- Digits in front of a byte that is none end where that byte is. -/
theorem digits_append_inj {s t a b : Bytes} {x y : UInt8} (hs : ∀ c ∈ s, IsDigit c)
    (ht : ∀ c ∈ t, IsDigit c) (hx : ¬ IsDigit x) (hy : ¬ IsDigit y)
    (h : s ++ x :: a = t ++ y :: b) : s = t ∧ x :: a = y :: b := by
  induction s generalizing t with
  | nil =>
    cases t with
    | nil => exact ⟨rfl, h⟩
    | cons c t =>
      rw [(List.cons.inj h).1] at hx
      exact absurd (ht c (List.mem_cons_self ..)) hx
  | cons c s ih =>
    obtain ⟨hc, hs⟩ := List.forall_mem_cons.mp hs
    cases t with
    | nil =>
      rw [(List.cons.inj h).1] at hc
      exact absurd hc hy
    | cons e t =>
      obtain ⟨hce, htail⟩ := List.cons.inj h
      obtain ⟨hst, hab⟩ := ih hs (List.forall_mem_cons.mp ht).2 htail
      exact ⟨by rw [hce, hst], hab⟩

theorem paddedIndex_inj {i j : Nat} (h : paddedIndex i = paddedIndex j) : i = j := by
  have hread : ∀ n, parseFrom 0 (paddedIndex n) = some n := by
    intro n
    rw [paddedIndex, parseFrom_zeros, parseFrom_toDecimal]
  have := hread i
  rw [h, hread j] at this
  exact (Option.some.inj this).symm

theorem FileKind.suffix_cons (k : FileKind) : ∃ a, k.suffix = 0x2E :: a := by
  cases k <;> exact ⟨_, rfl⟩

theorem FileKind.suffix_inj {k l : FileKind} (h : k.suffix = l.suffix) : k = l := by
  revert h
  cases k <;> cases l <;> decide

theorem fileName_inj {i j : Nat} {k l : FileKind} (h : fileName i k = fileName j l) :
    i = j ∧ k = l := by
  obtain ⟨a, ha⟩ := k.suffix_cons
  obtain ⟨b, hb⟩ := l.suffix_cons
  unfold fileName at h
  rw [ha, hb] at h
  obtain ⟨hpad, hsuffix⟩ := digits_append_inj isDigit_paddedIndex isDigit_paddedIndex
    (by decide) (by decide) h
  exact ⟨paddedIndex_inj hpad, FileKind.suffix_inj (by rw [ha, hb, hsuffix])⟩

theorem fileName_ne {i j : Nat} (hij : i ≠ j) (k l : FileKind) : fileName i k ≠ fileName j l :=
  fun h => hij (fileName_inj h).1

theorem stemIndex_met {i : Nat} (hi : i < 2 ^ 32) : stemIndex (fileName i .met) = some i := by
  have hdrop : (fileName i .met).dropSuffix? FileKind.met.suffix = some (paddedIndex i) :=
    List.dropSuffix?_eq_some_iff.mpr ⟨FileKind.met.suffix, rfl, by simp⟩
  rw [stemIndex, hdrop]
  exact parseUnsigned_pad hi _

/-- Only a met's name is taken for one. -/
theorem kind_of_stemIndex {i j : Nat} {k : FileKind} (h : stemIndex (fileName i k) = some j) :
    k = .met := by
  obtain ⟨stem, hdrop, -⟩ := Option.bind_eq_some_iff.mp h
  obtain ⟨s, hname, hs⟩ := List.dropSuffix?_eq_some_iff.mp hdrop
  rw [beq_iff_eq.mp hs] at hname
  -- the last four bytes tell the kinds apart
  have hlast := congrArg (fun n : Bytes => n.reverse.take 4) hname
  revert hlast
  unfold fileName
  cases k <;> simp [FileKind.suffix]

/-! ## What the readers of the directory see -/

/-- Only the program's own file names; indices start at one. -/
def Canonical (d : ConfigDir) : Prop :=
  ∀ name ∈ names d, ∃ i, (0 < i ∧ i < 2 ^ 32) ∧ ∃ k, name = fileName i k

theorem Canonical.index_of_live {d : ConfigDir} (h : Canonical d) {i : Nat}
    (hlive : (metDir d i).live ≠ none) : 0 < i ∧ i < 2 ^ 32 := by
  obtain ⟨j, hj, k, hk⟩ := h _ (mem_names_iff.mpr hlive)
  rw [(fileName_inj hk).1]
  exact hj

theorem mem_metIndices {d : ConfigDir} (h : Canonical d) {i : Nat} :
    i ∈ metIndices d ↔ (metDir d i).live ≠ none := by
  constructor
  · intro hi
    obtain ⟨name, hname, hstem⟩ := List.mem_filterMap.mp hi
    obtain ⟨j, hj, k, rfl⟩ := h name hname
    have hk := kind_of_stemIndex hstem
    subst hk
    rw [stemIndex_met hj.2] at hstem
    cases hstem
    exact mem_names_iff.mp hname
  · intro hlive
    exact List.mem_filterMap.mpr
      ⟨_, mem_names_iff.mpr hlive, stemIndex_met (h.index_of_live hlive).2⟩

theorem le_foldl_max (l : List Nat) (m : Nat) :
    m ≤ l.foldl max m ∧ ∀ x ∈ l, x ≤ l.foldl max m := by
  induction l generalizing m with
  | nil => exact ⟨le_rfl, by simp⟩
  | cons a l ih =>
    obtain ⟨h₁, h₂⟩ := ih (max m a)
    exact ⟨(le_max_left m a).trans h₁,
      List.forall_mem_cons.mpr ⟨(le_max_right m a).trans h₁, h₂⟩⟩

theorem foldl_max_lt {l : List Nat} {m b : Nat} (hm : m < b) (h : ∀ x ∈ l, x < b) :
    l.foldl max m < b := by
  induction l generalizing m with
  | nil => exact hm
  | cons a l ih =>
    obtain ⟨ha, hl⟩ := List.forall_mem_cons.mp h
    exact ih (Nat.max_lt.mpr ⟨hm, ha⟩) hl

/-- The u32 after the largest index in use does not wrap. -/
def HasRoom (d : ConfigDir) : Prop := (metIndices d).foldl max 0 + 1 < 2 ^ 32

theorem nextPartIndex_of_room {d : ConfigDir} (h : HasRoom d) :
    nextPartIndex d = (metIndices d).foldl max 0 + 1 := Nat.mod_eq_of_lt h

/-- The next index is not in use; should the u32 wrap, it is zero. -/
theorem nextPartIndex_ne {d : ConfigDir} (h : Canonical d) {i : Nat} (hi : i ∈ metIndices d) :
    nextPartIndex d ≠ i := by
  have hpos := (h.index_of_live ((mem_metIndices h).mp hi)).1
  have hle := (le_foldl_max (metIndices d) 0).2 i hi
  have hmax : (metIndices d).foldl max 0 < 2 ^ 32 := by
    refine foldl_max_lt (by decide) fun j hj => ?_
    exact (h.index_of_live ((mem_metIndices h).mp hj)).2
  unfold nextPartIndex
  omega

theorem mem_resumeDownloads {d : ConfigDir} {i : Nat} {s : PartStore} :
    (i, s) ∈ resumeDownloads d ↔ i ∈ metIndices d ∧ openPart d i = .ok s := by
  unfold resumeDownloads
  rw [List.mem_filterMap]
  constructor
  · rintro ⟨j, hj, hs⟩
    obtain ⟨t, ht, heq⟩ := Option.map_eq_some_iff.mp hs
    cases heq
    refine ⟨List.mem_mergeSort.mp hj, ?_⟩
    cases hopen : openPart d i with
    | error e => rw [hopen] at ht; cases ht
    | ok t' => rw [hopen] at ht; cases ht; rfl
  · rintro ⟨hi, hs⟩
    exact ⟨i, List.mem_mergeSort.mpr hi, by rw [hs]; rfl⟩

/-! ## Operations on one index -/

/-- Operations on the files of index `i` only. -/
def OnIndex (i : Nat) (ops : List FileOp) : Prop :=
  ∀ op ∈ ops, ∀ name ∈ op.touched, ∃ k, name = fileName i k

theorem OnIndex.take {i : Nat} {ops : List FileOp} (h : OnIndex i ops) (n : Nat) :
    OnIndex i (ops.take n) := fun op hop => h op (List.mem_of_mem_take hop)

/-- Files of other indices keep their contents. -/
theorem OnIndex.get_run {i : Nat} {ops : List FileOp} (h : OnIndex i ops) {j : Nat} (hj : j ≠ i)
    (k : FileKind) (d : ConfigDir) : get (run ops d) (fileName j k) = get d (fileName j k) := by
  refine get_run_of_notMem (fun op hop hmem => ?_) d
  obtain ⟨l, hl⟩ := h op hop _ hmem
  exact fileName_ne hj k l hl

theorem OnIndex.metDir_run {i : Nat} {ops : List FileOp} (h : OnIndex i ops) {j : Nat} (hj : j ≠ i)
    (d : ConfigDir) : metDir (run ops d) j = metDir d j := by
  unfold metDir
  rw [h.get_run hj, h.get_run hj, h.get_run hj]

theorem OnIndex.canonical_run {i : Nat} (hi : 0 < i ∧ i < 2 ^ 32) {ops : List FileOp} (h : OnIndex i ops)
    {d : ConfigDir} (hd : Canonical d) : Canonical (run ops d) := by
  intro name hname
  rcases mem_names_run hname with hold | ⟨op, hop, hmem⟩
  · exact hd name hold
  · obtain ⟨k, hk⟩ := h op hop name hmem
    exact ⟨i, hi, k, hk⟩

theorem onIndex_toFileOp (i : Nat) (op : MetOp) :
    ∀ name ∈ (op.toFileOp i).touched, ∃ k, name = fileName i k ∧ k ≠ .part := by
  intro name hname
  cases op with
  | writeTmp b => exact ⟨.tmp, List.mem_singleton.mp hname, by decide⟩
  | promote =>
    rcases List.mem_pair.mp hname with rfl | rfl
    · exact ⟨.met, rfl, by decide⟩
    · exact ⟨.bak, rfl, by decide⟩
  | install =>
    rcases List.mem_pair.mp hname with rfl | rfl
    · exact ⟨.tmp, rfl, by decide⟩
    · exact ⟨.met, rfl, by decide⟩

theorem onIndex_map_toFileOp (i : Nat) (ops : List MetOp) : OnIndex i (ops.map (MetOp.toFileOp i)) := by
  intro op hop name hname
  obtain ⟨mop, -, rfl⟩ := List.mem_map.mp hop
  obtain ⟨k, hk, -⟩ := onIndex_toFileOp i mop name hname
  exact ⟨k, hk⟩

theorem onIndex_saveFileOps (i : Nat) (s : PartStore) : OnIndex i (saveFileOps i s) :=
  onIndex_map_toFileOp i (saveOps s)

theorem onIndex_createFileOps (i : Nat) (s : PartStore) : OnIndex i (createFileOps i s) := by
  refine List.forall_mem_cons.mpr ⟨fun n hn => ⟨.part, List.mem_singleton.mp hn⟩, ?_⟩
  exact List.forall_mem_cons.mpr
    ⟨fun n hn => ⟨.part, List.mem_singleton.mp hn⟩, onIndex_saveFileOps i s⟩

theorem onIndex_removeBackingFiles (i : Nat) : OnIndex i (removeBackingFiles i) := by
  intro op hop name hname
  rcases List.mem_pair.mp hop with rfl | rfl <;> exact ⟨_, List.mem_singleton.mp hname⟩

theorem onIndex_nil (i : Nat) : OnIndex i [] := fun _ hop => absurd hop List.not_mem_nil

/-- The data file stays out of it. -/
theorem get_part_run (i : Nat) (ops : List MetOp) (d : ConfigDir) :
    get (run (ops.map (MetOp.toFileOp i)) d) (fileName i .part) = get d (fileName i .part) := by
  refine get_run_of_notMem (fun op hop hmem => ?_) d
  obtain ⟨mop, -, rfl⟩ := List.mem_map.mp hop
  obtain ⟨k, hk, hne⟩ := onIndex_toFileOp i mop _ hmem
  exact hne (fileName_inj hk).2.symm

theorem fileName_eq_iff {i : Nat} {k l : FileKind} : fileName i k = fileName i l ↔ k = l :=
  ⟨fun h => (fileName_inj h).2, fun h => by rw [h]⟩

/-- A file operation of a save does to the directory what its `MetOp` does to the met
    files. -/
theorem metDir_toFileOp (i : Nat) (op : MetOp) (d : ConfigDir) :
    metDir ((op.toFileOp i).apply d) i = op.apply (metDir d i) := by
  cases op with
  | writeTmp b =>
    simp only [MetOp.toFileOp, Op.apply, metDir, get_write, fileName_eq_iff, MetOp.apply]
    rfl
  | promote =>
    show metDir (rename d _ _) i = if (FileMap.get d (fileName i .met)).isSome then _ else _
    simp only [metDir, get_rename, fileName_eq_iff]
    split <;> simp
  | install =>
    show metDir (rename d _ _) i = if (FileMap.get d (fileName i .tmp)).isSome then _ else _
    simp only [metDir, get_rename, fileName_eq_iff]
    split <;> simp

theorem metDir_run (i : Nat) (ops : List MetOp) (d : ConfigDir) :
    metDir (run (ops.map (MetOp.toFileOp i)) d) i =
      ops.foldl (fun d op => op.apply d) (metDir d i) := by
  unfold run
  induction ops generalizing d with
  | nil => rfl
  | cons op ops ih => rw [List.map_cons, List.foldl_cons, List.foldl_cons, ih, metDir_toFileOp]

/-! ## Cut-off operations -/

theorem live_saveFileOps (k i : Nat) (s : PartStore) (d : ConfigDir) :
    (metDir (run ((saveFileOps i s).take k) d) i).live =
      if k ≤ 1 then (metDir d i).live else if k = 2 then none
      else some (writePartMet s.metOf) := by
  rw [saveFileOps, ← List.map_take, metDir_run]
  exact live_crashedSave k s (metDir d i)

theorem part_saveFileOps (k i : Nat) (s : PartStore) (d : ConfigDir) :
    get (run ((saveFileOps i s).take k) d) (fileName i .part) = get d (fileName i .part) := by
  rw [saveFileOps, ← List.map_take]
  exact get_part_run i _ d

theorem live_write_part (d : ConfigDir) (i : Nat) (file : Bytes) :
    (metDir (write d (fileName i .part) file) i).live = (metDir d i).live := by
  simp [metDir, get_write, fileName_eq_iff]

/-- With no live met to begin with, there is one from the last operation on. -/
theorem live_createFileOps {d : ConfigDir} {i : Nat} (h : (metDir d i).live = none) (k : Nat)
    (s : PartStore) : (metDir (run ((createFileOps i s).take k) d) i).live =
      if k < 5 then none else some (writePartMet s.metOf) := by
  match k with
  | 0 => exact h
  | 1 => exact (live_write_part d i []).trans h
  | k + 2 =>
    show (metDir (run ((saveFileOps i s).take k) (write (write d _ _) _ _)) i).live = _
    rw [live_saveFileOps, live_write_part, live_write_part, h]
    by_cases hk : k < 3
    · rw [if_pos (by omega : k + 2 < 5)]
      split
      · rfl
      · rw [if_pos (by omega)]
    · rw [if_neg (by omega), if_neg (by omega), if_neg (by omega)]

theorem part_createFileOps {k : Nat} (hk : 2 ≤ k) (d : ConfigDir) (i : Nat) (s : PartStore) :
    (get (run ((createFileOps i s).take k) d) (fileName i .part)).isSome := by
  match k with
  | k + 2 =>
    show (get (run ((saveFileOps i s).take k) (write (write d _ _) _ _)) _).isSome
    rw [part_saveFileOps, get_write, if_pos rfl]
    rfl

theorem run_removeBackingFiles (k i : Nat) (d : ConfigDir) :
    (metDir (run ((removeBackingFiles i).take k) d) i).live =
        (if k ≤ 1 then (metDir d i).live else none) ∧
      get (run ((removeBackingFiles i).take k) d) (fileName i .part) =
        if k = 0 then get d (fileName i .part) else none := by
  match k with
  | 0 => exact ⟨rfl, rfl⟩
  | 1 => simp [removeBackingFiles, run, Op.apply, metDir, get_remove, fileName_eq_iff]
  | k + 2 => simp [removeBackingFiles, run, Op.apply, metDir, get_remove, fileName_eq_iff]

theorem finishFileOps_of_part {d : ConfigDir} {i : Nat} (h : (get d (fileName i .part)).isSome) :
    finishFileOps d i = removeBackingFiles i := if_pos h

end PadMule.Engine
