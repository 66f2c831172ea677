import PadMule.Engine.LibraryAgrees
import PadMule.Files.Known2Walks
import PadMule.Lib.FirstWins
import PadMule.Proto.AichComplete

/-
  `mule-engine/src/known2_store.rs`: the file-backed store of hashsets over whole runs.

  An append reaches the file whole, or a crash leaves any prefix of it, which the next load cuts
  off; a removal and a prune write another file and rename it, so a crash leaves the old file or
  the new one. The file is that of a list of hashsets all the time and the index points to the
  first one of each root (`Holds`), so the store answers like a map from roots to leaves
  (`store_refines`).
-/

namespace PadMule.Engine.Known2Runs

open PadMule.Proto PadMule.Files LibraryAgrees FirstWins
open Aich (AichTree)
open Known2Walks (Hashset storeOf known2EntryBytes countAt entryLenAt leavesFrom entriesOf)

variable (pair : Hash20 → Hash20 → Hash20)

/-- What is on disk when `written` bytes of an append have reached it. A store of no byte at all
    gets its version byte first. -/
def appended (file : Option Bytes) (root : Hash20) (leaves : List Hash20) (written : Nat) : Bytes :=
  match file.getD [] with
  | [] => (KNOWN2_MET_VERSION :: known2EntryBytes root leaves).take written
  | existing => existing ++ (known2EntryBytes root leaves).take written

/-- `append` with leaves of any number. `none` is an error, of a file that has another version. -/
def append (s : Known2Store) (root : Hash20) (leaves : List Hash20) : Option Known2Store :=
  if s.has root then some s
  else
    match s.file.getD [] with
    | [] => some ⟨some (KNOWN2_MET_VERSION :: known2EntryBytes root leaves), (root, 1) :: s.index⟩
    | version :: rest =>
      if version ≠ KNOWN2_MET_VERSION then none
      else
        let existing := version :: rest
        some ⟨some (existing ++ known2EntryBytes root leaves), (root, existing.length) :: s.index⟩

/-- The roots of the index that the catalog does not name. -/
def orphans (s : Known2Store) (live : List Hash20) : List Hash20 :=
  (s.index.map Prod.fst).filter (· ∉ live)

/-- What `prune_orphans` writes. What is left does not depend on the order of the roots. -/
def prunedFile (bytes : Bytes) (roots : List Hash20) : Bytes :=
  roots.foldl (fun bytes root => (removeKnown2Entry bytes root).getD bytes) bytes

def pruneOrphans (s : Known2Store) (live : List Hash20) : Known2Store :=
  if orphans s live = [] then s
  else
    match s.file with
    | none => s
    | some bytes =>
      let out := prunedFile bytes (orphans s live)
      ⟨some out, ((scanKnown2Met out).toOption.map Known2Index.byRoot).getD []⟩

def lookup (s : Known2Store) (root : Hash20) (fileSize : Nat) : Option AichTree := do
  let off ← s.index.lookup root
  let file ← s.file
  if file.length < off + ENTRY_HEADER then none
  else if (file.drop off).take HASHSIZE ≠ root.bytes then none
  else if countAt file off ≠ AichTree.leafCount fileSize then none
  else
    let leaves ← (leavesFrom file (countAt file off) (off + ENTRY_HEADER)).toOption
    let tree ← AichTree.fromLeaves pair fileSize leaves
    if tree.masterHash = some root then some tree else none

/-! ## Runs -/

inductive StoreOp where
  | reload
  | append (root : Hash20) (leaves : List Hash20)
  | remove (root : Hash20)
  | pruneOrphans (live : List Hash20)
  /-- The process dies when so many bytes have reached the file, and starts again. -/
  | crashInAppend (root : Hash20) (leaves : List Hash20) (written : Nat)
  /-- The process dies with the new file renamed over the old one or not, and starts again. -/
  | crashInRemove (root : Hash20) (renamed : Bool)
  | crashInPrune (live : List Hash20) (renamed : Bool)

/-- The appends pass leaves that the count can tell. -/
def StoreOp.Fits : StoreOp → Prop
  | .append _ leaves | .crashInAppend _ leaves _ => leaves.length < 2 ^ 32
  | _ => True

/-- The operation may take the hashset of `root` out. -/
def StoreOp.Names (root : Hash20) : StoreOp → Prop
  | .remove r | .crashInRemove r _ => r = root
  | .pruneOrphans live | .crashInPrune live _ => root ∉ live
  | _ => False

def step (s : Known2Store) : StoreOp → Known2Store
  | .reload => .load s.file
  | .append root leaves => (append s root leaves).getD s
  | .remove root => s.remove root
  | .pruneOrphans live => pruneOrphans s live
  | .crashInAppend root leaves written =>
    if s.has root then .load s.file else .load (some (appended s.file root leaves written))
  | .crashInRemove root renamed => .load (if renamed then s.remove root else s).file
  | .crashInPrune live renamed => .load (if renamed then pruneOrphans s live else s).file

/-! ## The map -/

/-- The leaves of each root that has any. -/
abbrev Leaves := Hash20 → Option (List Hash20)

namespace Leaves

/-- The first append of a root counts. -/
def add (m : Leaves) (root : Hash20) (leaves : List Hash20) : Leaves :=
  fun r => (m r).or (if root = r then some leaves else none)

def keep (m : Leaves) (p : Hash20 → Bool) : Leaves := fun r => if p r then m r else none

/-- What an operation does to the map. An append that was torn has not been. -/
def step (m : Leaves) : StoreOp → Leaves
  | .reload => m
  | .append root leaves => m.add root leaves
  | .remove root => m.keep (· ≠ root)
  | .pruneOrphans live => m.keep (· ∈ live)
  | .crashInAppend root leaves written =>
    if (known2EntryBytes root leaves).length ≤ written then m.add root leaves else m
  | .crashInRemove root renamed => if renamed then m.keep (· ≠ root) else m
  | .crashInPrune live renamed => if renamed then m.keep (· ∈ live) else m

/-- The map of a list of hashsets. -/
def ofList (hs : List Hashset) : Leaves := fun root =>
  (first Hashset.root hs root).map Hashset.leaves

end Leaves

/-- The tree of the leaves, if their count is the one of the size and their master hash `root`. -/
def treeOf (root : Hash20) (fileSize : Nat) (leaves : List Hash20) : Option AichTree :=
  (AichTree.fromLeaves pair fileSize leaves).filter fun tree => tree.masterHash = some root

/-! ## The file and the index -/

/-- The index points to the first hashset of each root. -/
def Points (hs : List Hashset) (index : List (Hash20 × Nat)) : Prop :=
  ∀ root, (∀ off, index.lookup root = some off →
      ∃ before g after, hs = before ++ g :: after ∧ g.root = root ∧
        (∀ h ∈ before, h.root ≠ root) ∧ off = (storeOf before).length) ∧
    (index.lookup root = none → ∀ h ∈ hs, h.root ≠ root)

/-- The file is that of these hashsets, and the index points into it. -/
structure Holds (s : Known2Store) (hs : List Hashset) : Prop where
  fits : ∀ h ∈ hs, h.Fits
  file : s.file = some (storeOf hs)
  points : Points hs s.index

theorem points_scan {hs : List Hashset} (hfit : ∀ h ∈ hs, h.Fits) :
    Points hs (indexFrom 1 (entriesOf hs hfit)) := by
  refine fun root => ⟨fun off hoff => ?_, (Known2Walks.lookup_indexFrom_eq_none_iff hfit).mp⟩
  obtain ⟨before, g, after, hsplit, hg, hbefore, hat⟩ := Known2Walks.lookup_indexFrom hfit hoff
  have hlen : off = (storeOf before).length := by
    rw [hat, storeOf, List.length_cons, Nat.add_comm]
  exact ⟨before, g, after, hsplit, hg, hbefore, hlen⟩

/-- A load cuts a torn tail off and points to what is whole. -/
theorem holds_load {hs : List Hashset} (hfit : ∀ h ∈ hs, h.Fits) {tail : Bytes}
    (htail : nextEntry tail = none) : Holds (.load (some (storeOf hs ++ tail))) hs := by
  have hscan := Known2Walks.scan_store hfit htail
  rw [Known2Walks.scan_eq] at hscan
  have hload : Known2Store.load (some (storeOf hs ++ tail)) =
      ⟨some (storeOf hs), indexFrom 1 (entriesOf hs hfit)⟩ := by
    have hne : storeOf hs ++ tail = KNOWN2_MET_VERSION :: (hs.flatMap Hashset.bytes ++ tail) := rfl
    rw [Known2Store.load, Option.getD_some]
    rw [hne] at hscan ⊢
    simp only [hscan]
    rw [← hne, List.take_left]
  rw [hload]
  exact ⟨hfit, rfl, points_scan hfit⟩

theorem holds_load_nil {file : Option Bytes} (h : file.getD [] = []) : Holds (.load file) [] := by
  have hload : Known2Store.load file = ⟨some [KNOWN2_MET_VERSION], []⟩ := by
    rw [Known2Store.load, h]
  rw [hload]
  refine ⟨fun h hh => absurd hh List.not_mem_nil, rfl, fun root => ⟨?_, ?_⟩⟩
  · intro offset hroot
    cases hroot
  · intro _ h hh
    exact absurd hh List.not_mem_nil

theorem Holds.reload {s : Known2Store} {hs : List Hashset} (h : Holds s hs) :
    Holds (.load s.file) hs := by
  have hload := holds_load h.fits Known2Walks.nextEntry_nil
  rwa [List.append_nil, ← h.file] at hload

theorem Holds.has_iff {s : Known2Store} {hs : List Hashset} (h : Holds s hs) (root : Hash20) :
    s.has root = true ↔ first Hashset.root hs root ≠ none := by
  rw [Known2Store.has, Option.isSome_iff_ne_none, ne_eq, ne_eq, not_iff_not, first_eq_none_iff]
  refine ⟨(h.points root).2, fun hnone => ?_⟩
  by_contra hsome
  obtain ⟨off, hoff⟩ := Option.ne_none_iff_exists'.mp hsome
  obtain ⟨before, g, after, rfl, hg, -⟩ := (h.points root).1 off hoff
  exact hnone g (by simp) hg

/-! ## What an operation leaves -/

theorem Leaves.ofList_concat (hs : List Hashset) (root : Hash20) (leaves : List Hash20) :
    Leaves.ofList (hs ++ [⟨root, leaves⟩]) = (Leaves.ofList hs).add root leaves := by
  funext r
  rw [ofList, first_concat, add, ofList]
  cases first Hashset.root hs r with
  | some g => rfl
  | none =>
    by_cases hr : root = r
    · simp [hr]
    · simp [hr]

theorem Leaves.ofList_filter (hs : List Hashset) (p : Hash20 → Bool) :
    Leaves.ofList (hs.filter fun h => p h.root) = (Leaves.ofList hs).keep p := by
  funext r
  rw [ofList, first_filter, keep, ofList]
  split_ifs <;> rfl

/-- A root that is there keeps its leaves. -/
theorem Leaves.add_of_has {hs : List Hashset} {root : Hash20}
    (h : first Hashset.root hs root ≠ none) (leaves : List Hash20) :
    (ofList hs).add root leaves = ofList hs := by
  funext r
  rw [add]
  by_cases hr : root = r
  · obtain ⟨g, hg⟩ := Option.ne_none_iff_exists'.mp h
    rw [ofList, ← hr, hg]
    rfl
  · rw [if_neg hr, Option.or_none]

theorem Points.concat {hs : List Hashset} {index : List (Hash20 × Nat)} (h : Points hs index)
    {root : Hash20} (hnew : index.lookup root = none) (leaves : List Hash20) :
    Points (hs ++ [⟨root, leaves⟩]) ((root, (storeOf hs).length) :: index) := by
  intro r
  rw [List.lookup_cons]
  by_cases hr : r = root
  · rw [beq_iff_eq.mpr hr]
    refine ⟨fun off hoff => ?_, fun hnone => by cases hnone⟩
    obtain rfl := Option.some.inj hoff
    exact ⟨hs, _, [], rfl, hr.symm, hr ▸ (h root).2 hnew, rfl⟩
  · rw [beq_eq_false_iff_ne.mpr hr]
    refine ⟨fun off hoff => ?_, fun hnone g hg => ?_⟩
    · obtain ⟨before, g, after, rfl, hg, hbefore, hat⟩ := (h r).1 off hoff
      exact ⟨before, g, after ++ [⟨root, leaves⟩], by simp, hg, hbefore, hat⟩
    · rcases List.mem_append.mp hg with hg | hg
      · exact (h r).2 hnone g hg
      · rw [List.mem_singleton.mp hg]
        exact Ne.symm hr

theorem storeOf_concat (hs : List Hashset) (h : Hashset) :
    storeOf (hs ++ [h]) = storeOf hs ++ h.bytes := by
  simp [storeOf]

theorem Holds.append {s : Known2Store} {hs : List Hashset} (h : Holds s hs) (root : Hash20)
    {leaves : List Hash20} (hfit : leaves.length < 2 ^ 32) :
    ∃ s' hs', append s root leaves = some s' ∧ Holds s' hs' ∧
      Leaves.ofList hs' = (Leaves.ofList hs).add root leaves := by
  rw [Known2Runs.append]
  split_ifs with hhas
  · exact ⟨s, hs, rfl, h, (Leaves.add_of_has ((h.has_iff root).mp hhas) leaves).symm⟩
  · have hnew : s.index.lookup root = none := Option.not_isSome_iff_eq_none.mp hhas
    refine ⟨_, hs ++ [⟨root, leaves⟩], by rw [h.file]; rfl, ⟨?_, ?_, h.points.concat hnew leaves⟩,
      Leaves.ofList_concat hs root leaves⟩
    · exact List.forall_mem_append.mpr ⟨h.fits, List.forall_mem_singleton.mpr hfit⟩
    · exact congrArg some (storeOf_concat hs ⟨root, leaves⟩).symm

theorem Holds.mem_roots {s : Known2Store} {hs : List Hashset} (h : Holds s hs) (root : Hash20) :
    root ∈ s.index.map Prod.fst ↔ root ∈ hs.map Hashset.root := by
  rw [← Known2Store.has_iff, h.has_iff, ne_eq, first_eq_none_iff, List.mem_map]
  simp

/-- A file that is written anew, with the index of its scan. -/
theorem holds_rewritten {hs : List Hashset} (hfit : ∀ h ∈ hs, h.Fits) :
    Holds ⟨some (storeOf hs),
      ((scanKnown2Met (storeOf hs)).toOption.map Known2Index.byRoot).getD []⟩ hs := by
  have hscan := Known2Walks.scan_store hfit Known2Walks.nextEntry_nil
  rw [Known2Walks.scan_eq, List.append_nil] at hscan
  rw [hscan]
  exact ⟨hfit, rfl, points_scan hfit⟩

theorem remove_storeOf {hs : List Hashset} (hfit : ∀ h ∈ hs, h.Fits) {root : Hash20}
    (hroot : root ∈ hs.map Hashset.root) :
    removeKnown2Entry (storeOf hs) root = some (storeOf (hs.filter fun h => h.root ≠ root)) := by
  have hremove := Known2Walks.remove_store hfit Known2Walks.nextEntry_nil hroot
  rwa [Known2Walks.remove_eq, List.append_nil] at hremove

theorem filter_of_absent {hs : List Hashset} {root : Hash20}
    (h : root ∉ hs.map Hashset.root) : (hs.filter fun h => h.root ≠ root) = hs :=
  List.filter_eq_self.mpr fun _ hg =>
    decide_eq_true fun heq => h (heq ▸ List.mem_map_of_mem hg)

theorem Holds.remove {s : Known2Store} {hs : List Hashset} (h : Holds s hs) (root : Hash20) :
    Holds (s.remove root) (hs.filter fun h => h.root ≠ root) := by
  rw [Known2Store.remove]
  by_cases hmem : root ∈ hs.map Hashset.root
  · have hhas : s.has root = true := Known2Store.has_iff root |>.mpr ((h.mem_roots root).mpr hmem)
    simp only [hhas, h.file, remove_storeOf h.fits hmem, Bool.not_true, Bool.false_eq_true,
      if_false]
    exact holds_rewritten (Known2Walks.fits_filter h.fits _)
  · have hhas : s.has root = false := Bool.eq_false_iff.mpr fun hhas =>
      hmem ((h.mem_roots root).mp ((Known2Store.has_iff root).mp hhas))
    rw [hhas, filter_of_absent hmem]
    exact h

theorem prunedFile_storeOf {hs : List Hashset} (hfit : ∀ h ∈ hs, h.Fits) (roots : List Hash20) :
    prunedFile (storeOf hs) roots = storeOf (hs.filter fun h => h.root ∉ roots) := by
  induction roots generalizing hs with
  | nil => simp [prunedFile]
  | cons root roots ih =>
    have hone : (removeKnown2Entry (storeOf hs) root).getD (storeOf hs) =
        storeOf (hs.filter fun h => h.root ≠ root) := by
      by_cases hmem : root ∈ hs.map Hashset.root
      · rw [remove_storeOf hfit hmem, Option.getD_some]
      · have habsent : ∀ h ∈ hs, h.root ≠ root := fun _ hg heq =>
          hmem (heq ▸ List.mem_map_of_mem hg)
        have hremove := Known2Walks.remove_absent hfit Known2Walks.nextEntry_nil habsent
        rw [Known2Walks.remove_eq, List.append_nil] at hremove
        rw [hremove, Option.getD_none, filter_of_absent hmem]
    have hrest := ih (Known2Walks.fits_filter hfit fun h => h.root ≠ root)
    rw [prunedFile, List.foldl_cons, hone]
    refine hrest.trans (congrArg storeOf ?_)
    rw [List.filter_filter]
    refine List.filter_congr fun h _ => ?_
    rw [← Bool.decide_and, decide_eq_decide, List.mem_cons, not_or, and_comm]

theorem Holds.pruneOrphans {s : Known2Store} {hs : List Hashset} (h : Holds s hs)
    (live : List Hash20) : Holds (pruneOrphans s live) (hs.filter fun h => h.root ∈ live) := by
  have hlive : (hs.filter fun h => h.root ∉ orphans s live) = hs.filter fun h => h.root ∈ live := by
    refine List.filter_congr fun g hg => ?_
    have hmem : g.root ∈ s.index.map Prod.fst := (h.mem_roots _).mpr (List.mem_map_of_mem hg)
    simp only [orphans, List.mem_filter, hmem, true_and, decide_eq_true_eq, not_not]
  rw [Known2Runs.pruneOrphans]
  split_ifs with hnone
  · rw [hnone] at hlive
    rw [← hlive]
    simpa using h
  · simp only [h.file, prunedFile_storeOf h.fits, hlive]
    exact holds_rewritten (Known2Walks.fits_filter h.fits _)

/-- The file of an append that a crash cut: nothing of it is left, or all of it was there. -/
theorem holds_cut {s : Known2Store} {hs : List Hashset} (h : Holds s hs) (root : Hash20)
    {leaves : List Hash20} (hfit : leaves.length < 2 ^ 32) (written : Nat) :
    ∃ hs', Holds (.load (some (appended s.file root leaves written))) hs' ∧
      Leaves.ofList hs' = (Leaves.ofList hs).step (.crashInAppend root leaves written) := by
  have hfile : appended s.file root leaves written =
      storeOf hs ++ (known2EntryBytes root leaves).take written := by
    rw [appended, h.file]
    rfl
  rw [hfile, Leaves.step]
  split_ifs with hwhole
  · refine ⟨hs ++ [⟨root, leaves⟩], ?_, Leaves.ofList_concat hs root leaves⟩
    have hfits : ∀ g ∈ hs ++ [⟨root, leaves⟩], g.Fits :=
      List.forall_mem_append.mpr ⟨h.fits, List.forall_mem_singleton.mpr hfit⟩
    have hload := holds_load hfits Known2Walks.nextEntry_nil
    rw [List.append_nil, storeOf_concat] at hload
    rwa [List.take_of_length_le hwhole]
  · refine ⟨hs, holds_load h.fits ?_, rfl⟩
    have hfits : (⟨root, leaves⟩ : Hashset).Fits := hfit
    refine Known2Walks.nextEntry_torn hfits (List.take_prefix _ _) fun heq => ?_
    have hlen : min written (known2EntryBytes root leaves).length =
        (known2EntryBytes root leaves).length := by
      rw [← List.length_take, heq]
      rfl
    omega

theorem holds_step {s : Known2Store} {hs : List Hashset} (h : Holds s hs) {op : StoreOp}
    (hfit : op.Fits) :
    ∃ hs', Holds (step s op) hs' ∧ Leaves.ofList hs' = (Leaves.ofList hs).step op := by
  cases op with
  | reload => exact ⟨hs, h.reload, rfl⟩
  | append root leaves =>
    obtain ⟨s', hs', happend, hholds, hmap⟩ := h.append root hfit
    refine ⟨hs', ?_, hmap⟩
    rw [step, happend]
    exact hholds
  | remove root => exact ⟨_, h.remove root, Leaves.ofList_filter hs (· ≠ root)⟩
  | pruneOrphans live => exact ⟨_, h.pruneOrphans live, Leaves.ofList_filter hs (· ∈ live)⟩
  | crashInAppend root leaves written =>
    rw [step]
    split_ifs with hhas
    · refine ⟨hs, h.reload, ?_⟩
      have hadd := Leaves.add_of_has ((h.has_iff root).mp hhas) leaves
      rw [Leaves.step]
      split_ifs
      · exact hadd.symm
      · rfl
    · exact holds_cut h root hfit written
  | crashInRemove root renamed =>
    cases renamed with
    | false => exact ⟨hs, h.reload, rfl⟩
    | true => exact ⟨_, (h.remove root).reload, Leaves.ofList_filter hs (· ≠ root)⟩
  | crashInPrune live renamed =>
    cases renamed with
    | false => exact ⟨hs, h.reload, rfl⟩
    | true => exact ⟨_, (h.pruneOrphans live).reload, Leaves.ofList_filter hs (· ∈ live)⟩

/-! ## What is found -/

theorem Holds.find {s : Known2Store} {hs : List Hashset} (h : Holds s hs) (root : Hash20) :
    (s.index.lookup root = none ∧ Leaves.ofList hs root = none) ∨
      ∃ off, ∃ g : Hashset, ∃ rest, s.index.lookup root = some off ∧ g.root = root ∧ g.Fits ∧
        (storeOf hs).drop off = g.bytes ++ rest ∧ Leaves.ofList hs root = some g.leaves := by
  cases hlookup : s.index.lookup root with
  | none =>
    refine .inl ⟨rfl, ?_⟩
    rw [Leaves.ofList, first_eq_none_iff.mpr ((h.points root).2 hlookup)]
    rfl
  | some off =>
    obtain ⟨before, g, after, hsplit, hg, hbefore, hat⟩ := (h.points root).1 off hlookup
    have hfirst := first_eq_some_iff.mpr ⟨before, after, hsplit, hg, hbefore⟩
    refine .inr ⟨off, g, after.flatMap Hashset.bytes, rfl, hg, h.fits g (by simp [hsplit]), ?_, ?_⟩
    · have hcut : storeOf hs = storeOf before ++ (g.bytes ++ after.flatMap Hashset.bytes) := by
        simp [hsplit, storeOf]
      rw [hcut, hat, List.drop_left]
    · rw [Leaves.ofList, hfirst]
      rfl

theorem Holds.lookup {s : Known2Store} {hs : List Hashset} (h : Holds s hs) (root : Hash20)
    (fileSize : Nat) :
    lookup pair s root fileSize = (Leaves.ofList hs root).bind (treeOf pair root fileSize) := by
  rcases h.find root with ⟨hnone, hmap⟩ | ⟨off, g, rest, hsome, rfl, hfit, hdrop, hmap⟩
  · rw [Known2Runs.lookup, hnone, hmap]
    rfl
  · have hhead := Known2Walks.header_le_of_drop hdrop
    rw [Known2Runs.lookup, hsome, h.file, hmap]
    simp only [Option.bind_eq_bind, Option.bind_some, Known2Walks.take_root_of_drop hdrop,
      Known2Walks.countAt_of_drop hfit hdrop, Known2Walks.leavesFrom_of_drop hdrop,
      Except.toOption, treeOf]
    rw [if_neg (by omega), if_neg (by simp)]
    split_ifs with hcount
    · rw [AichTree.fromLeaves, if_pos hcount]
      rfl
    · cases AichTree.fromLeaves pair fileSize g.leaves with
      | none => rfl
      | some tree => simp [Option.filter]

/-- The bytes of a root at the offset of the index. -/
def stored (s : Known2Store) (root : Hash20) : Option Bytes := do
  let off ← s.index.lookup root
  let file ← s.file
  return (file.drop off).take (entryLenAt file off)

theorem Holds.stored {s : Known2Store} {hs : List Hashset} (h : Holds s hs) (root : Hash20) :
    stored s root = (Leaves.ofList hs root).map (known2EntryBytes root) := by
  rcases h.find root with ⟨hnone, hmap⟩ | ⟨off, g, rest, hsome, rfl, hfit, hdrop, hmap⟩
  · rw [Known2Runs.stored, hnone, hmap]
    rfl
  · have hlen : entryLenAt (storeOf hs) off = g.bytes.length := by
      rw [entryLenAt, Known2Walks.countAt_of_drop hfit hdrop, g.length_bytes]
    rw [Known2Runs.stored, hsome, h.file, hmap]
    show some (((storeOf hs).drop off).take (entryLenAt (storeOf hs) off)) = some g.bytes
    rw [hlen, hdrop, List.take_left]

/-! ## Whole runs -/

def run (s : Known2Store) (ops : List StoreOp) : Known2Store := ops.foldl step s

def Leaves.run (m : Leaves) (ops : List StoreOp) : Leaves := ops.foldl Leaves.step m

/-- A file to start from: none, an empty one, or a store of these hashsets with a torn one at its
    end or not. -/
def Starts (file : Option Bytes) (hs : List Hashset) : Prop :=
  (file.getD [] = [] ∧ hs = []) ∨
    (∀ h ∈ hs, h.Fits) ∧ ∃ torn : Hashset, ∃ tail : Bytes, torn.Fits ∧ tail <+: torn.bytes ∧
      tail ≠ torn.bytes ∧ file = some (storeOf hs ++ tail)

theorem holds_start {file : Option Bytes} {hs : List Hashset} (h : Starts file hs) :
    Holds (.load file) hs := by
  rcases h with ⟨hnil, rfl⟩ | ⟨hfit, torn, tail, htorn, hpart, hne, rfl⟩
  · exact holds_load_nil hnil
  · exact holds_load hfit (Known2Walks.nextEntry_torn htorn hpart hne)

theorem holds_run {s : Known2Store} {hs : List Hashset} (h : Holds s hs) {ops : List StoreOp}
    (hfit : ∀ op ∈ ops, op.Fits) :
    ∃ hs', Holds (run s ops) hs' ∧ Leaves.ofList hs' = (Leaves.ofList hs).run ops := by
  induction ops generalizing s hs with
  | nil => exact ⟨hs, h, rfl⟩
  | cons op ops ih =>
    obtain ⟨hop, hops⟩ := List.forall_mem_cons.mp hfit
    obtain ⟨hs₁, h₁, hmap₁⟩ := holds_step h hop
    obtain ⟨hs₂, h₂, hmap₂⟩ := ih h₁ hops
    exact ⟨hs₂, h₂, by rw [hmap₂, hmap₁]; rfl⟩

/-- An operation that does not name a root keeps its leaves. -/
theorem Leaves.step_kept {m : Leaves} {root : Hash20} {leaves : List Hash20}
    (h : m root = some leaves) {op : StoreOp} (hop : ¬ op.Names root) :
    m.step op root = some leaves := by
  have hadd (r : Hash20) (l : List Hash20) : m.add r l root = some leaves := by
    rw [add, h, Option.some_or]
  have hkeep (p : Hash20 → Bool) (hp : p root = true) : m.keep p root = some leaves := by
    rw [keep, if_pos hp, h]
  cases op with
  | reload => exact h
  | append r l => exact hadd r l
  | remove r => exact hkeep (· ≠ r) (decide_eq_true (Ne.symm hop))
  | pruneOrphans live => exact hkeep (· ∈ live) (decide_eq_true (not_not.mp hop))
  | crashInAppend r l written =>
    rw [step]
    split_ifs
    · exact hadd r l
    · exact h
  | crashInRemove r renamed =>
    cases renamed with
    | false => exact h
    | true => exact hkeep (· ≠ r) (decide_eq_true (Ne.symm hop))
  | crashInPrune live renamed =>
    cases renamed with
    | false => exact h
    | true => exact hkeep (· ∈ live) (decide_eq_true (not_not.mp hop))

theorem Leaves.run_kept {m : Leaves} {root : Hash20} {leaves : List Hash20}
    (h : m root = some leaves) {ops : List StoreOp} (hops : ∀ op ∈ ops, ¬ op.Names root) :
    m.run ops root = some leaves := by
  induction ops generalizing m with
  | nil => exact h
  | cons op ops ih =>
    obtain ⟨hop, hrest⟩ := List.forall_mem_cons.mp hops
    exact ih (Leaves.step_kept h hop) hrest

/-- Whatever has run on a store that was whole or torn at its end, it answers like the map: a
    lookup gives the tree of the leaves of its root, and the bytes at the offset of a root are
    those of its leaves. An append comes through and its leaves stay until an operation names the
    root. A removal and a prune leave a file of the other hashsets as they were, found where they
    are now. -/
theorem store_refines {file : Option Bytes} {hs : List Hashset} (hstart : Starts file hs)
    {ops : List StoreOp} (hfit : ∀ op ∈ ops, op.Fits) :
    let s := run (.load file) ops
    let m := (Leaves.ofList hs).run ops
    (∀ root fileSize, lookup pair s root fileSize = (m root).bind (treeOf pair root fileSize)) ∧
    (∀ root, stored s root = (m root).map (known2EntryBytes root)) ∧
    (∀ root, ∀ leaves : List Hash20, leaves.length < 2 ^ 32 → ∃ s', append s root leaves = some s' ∧
      ∀ later : List StoreOp, (∀ op ∈ later, op.Fits ∧ ¬ op.Names root) →
        stored (run s' later) root = some (known2EntryBytes root ((m root).getD leaves))) ∧
    ∃ gs, s.file = some (storeOf gs) ∧
      (∀ root, (s.remove root).file = some (storeOf (gs.filter fun g => g.root ≠ root)) ∧
        ∀ r, stored (s.remove root) r = if r = root then none else stored s r) ∧
      ∀ live, (pruneOrphans s live).file = some (storeOf (gs.filter fun g => g.root ∈ live)) ∧
        ∀ r, stored (pruneOrphans s live) r = if r ∈ live then stored s r else none := by
  intro s m
  obtain ⟨gs, hholds, hmap⟩ := holds_run (holds_start hstart) hfit
  have hm : Leaves.ofList gs = m := hmap
  refine ⟨fun root fileSize => ?_, fun root => ?_, fun root leaves hleaves => ?_, gs, hholds.file,
    fun root => ⟨(hholds.remove root).file, fun r => ?_⟩,
    fun live => ⟨(hholds.pruneOrphans live).file, fun r => ?_⟩⟩
  · rw [hholds.lookup, hm]
  · rw [hholds.stored, hm]
  · obtain ⟨s', gs', happend, hholds', hadd⟩ := hholds.append root hleaves
    refine ⟨s', happend, fun later hlater => ?_⟩
    obtain ⟨gs'', hholds'', hrun⟩ := holds_run hholds' fun op hop => (hlater op hop).1
    have hthere : Leaves.ofList gs' root = some ((m root).getD leaves) := by
      rw [hadd, hm, Leaves.add, if_pos rfl]
      cases m root <;> rfl
    have hkept := Leaves.run_kept hthere fun op hop => (hlater op hop).2
    rw [hholds''.stored, hrun, hkept]
    rfl
  · rw [(hholds.remove root).stored, hholds.stored, Leaves.ofList_filter gs (· ≠ root), Leaves.keep]
    by_cases hr : r = root <;> simp [hr]
  · rw [(hholds.pruneOrphans live).stored, hholds.stored, Leaves.ofList_filter gs (· ∈ live),
      Leaves.keep]
    by_cases hr : r ∈ live <;> simp [hr]

/-- An append, then one that a crash cuts in its header. -/
theorem store_refines_torn : stored (run (.load none)
    [.append (Digest.fill 20 1) [Digest.fill 20 2], .crashInAppend (Digest.fill 20 3) [] 10])
      (Digest.fill 20 1) = some (known2EntryBytes (Digest.fill 20 1) [Digest.fill 20 2]) := by
  have hruns := @store_refines (fun l _ => l) none [] (.inl ⟨rfl, rfl⟩)
    [.append (Digest.fill 20 1) [Digest.fill 20 2], .crashInAppend (Digest.fill 20 3) [] 10]
    (by simp [StoreOp.Fits])
  have hstored := hruns.2.1 (Digest.fill 20 1)
  exact hstored

/-! ## Leaves that the count cannot tell -/

theorem lookup_eq_none {s : Known2Store} {root : Hash20} {fileSize : Nat}
    (hsize : 2 ^ 32 ≤ AichTree.leafCount fileSize) : lookup pair s root fileSize = none := by
  have hcount (file : Bytes) (off : Nat) : countAt file off ≠ AichTree.leafCount fileSize := by
    have hfour : ((file.drop (off + HASHSIZE)).take 4).length ≤ 4 := List.length_take_le ..
    have hlt : countAt file off < 2 ^ 32 :=
      (LittleEndian.ofLE_lt _).trans_le (Nat.pow_le_pow_right (by decide) hfour)
    omega
  rw [lookup]
  cases s.index.lookup root with
  | none => rfl
  | some off =>
    cases s.file with
    | none => rfl
    | some file =>
      simp only [Option.bind_eq_bind, Option.bind_some, if_pos (hcount file off), ite_self]

/-- If the pair hash is that of the left child, leaves that are all the same have it at the top. -/
theorem hash_of_same {n : Nat} {b : Bool} {T : Aich.Node} {d : Hash20}
    (h : Aich.Node.Complete (fun l _ => l) n b T) (hall : ∀ x ∈ T.leafHashes, x = d) :
    T.hash = some d := by
  induction h with
  | leaf x hn =>
    exact congrArg some (hall x (by simp [Aich.Node.leafHashes, Aich.Node.leafRecords]))
  | inner hn hl hr hlh hrh ihl ihr =>
    rw [Aich.Node.leafHashes_inner hl.present] at hall
    have hleft := ihl fun x hx => hall x (List.mem_append_left _ hx)
    rw [hlh] at hleft
    exact hleft

/-- The size of a file with `2 ^ 32` leaves. -/
def wrappingSize : Nat := 81037118 * PARTSIZE + 42 * EMBLOCKSIZE

/-- The store takes the hashset of such a file and never finds it again. -/
theorem wrapped_count_hides_hashset :
    let leaves := List.replicate (2 ^ 32) (Digest.fill 20 0)
    let root := Digest.fill 20 0
    ∃ s, append (.load none) root leaves = some s ∧
      lookup (fun l _ => l) s root wrappingSize = none ∧
      (treeOf (fun l _ => l) root wrappingSize leaves).isSome := by
  intro leaves root
  have hcount : leaves.length = AichTree.leafCount wrappingSize := List.length_replicate
  refine ⟨_, rfl, lookup_eq_none _ (hcount ▸ (List.length_replicate ..).ge), ?_⟩
  obtain ⟨T, hT, hcomplete, hhashes⟩ := Aich.fromLeaves_eq (fun l _ => l) (by decide) hcount
  have hhash : T.hash = some root := hash_of_same hcomplete fun x hx => by
    rw [hhashes] at hx
    exact List.eq_of_mem_replicate hx
  rw [treeOf, hT]
  simp [Option.filter, AichTree.masterHash, hhash]

end PadMule.Engine.Known2Runs
