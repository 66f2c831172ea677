import PadMule.Files.Known2Met

/-
  `mule-files/src/known2_met.rs`: the walks over the hashset store, by byte offset.

  The scan, the list of offsets behind a full read and a removal, and the reading of one hashset
  each take the leaf count from the bytes by themselves. On whole hashsets one behind the other all
  three stop at the same places, a torn one at the end or not, so what is scanned, read and
  removed is what `Known2Met` says of the list of hashsets (`scan_eq`, `remove_eq`,
  `known2_store_codec`). The count is written as a u32 and the leaves are not cut to it: a hashset
  reads back exactly if it has fewer than `2 ^ 32` leaves (`readKnown2Met_iff`).
-/

namespace PadMule.Files.Known2Walks

open PadMule.Proto LittleEndian

/-- `Known2Entry` as the source has it: the master root and the leaves from left to right. -/
structure Hashset where
  root : Hash20
  leaves : List Hash20
deriving DecidableEq

def known2EntryBytes (root : Hash20) (leaves : List Hash20) : Bytes :=
  root.bytes ++ (writeU32 (.ofNat leaves.length) ++ leaves.flatMap Digest.bytes)

def Hashset.bytes (h : Hashset) : Bytes := known2EntryBytes h.root h.leaves

/-- The leaves that the count can tell. -/
def Hashset.Fits (h : Hashset) : Prop := h.leaves.length < 2 ^ 32

instance (h : Hashset) : Decidable h.Fits := inferInstanceAs (Decidable (_ < _))

/-- A store of these hashsets. -/
def storeOf (hs : List Hashset) : Bytes := KNOWN2_MET_VERSION :: hs.flatMap Hashset.bytes

/-! ## The walks -/

/-- The leaf count behind the root at `pos`. -/
def countAt (bytes : Bytes) (pos : Nat) : Nat := ofLE ((bytes.drop (pos + HASHSIZE)).take 4)

def entryLenAt (bytes : Bytes) (pos : Nat) : Nat := ENTRY_HEADER + countAt bytes pos * HASHSIZE

/-- `bytes[pos..pos + HASHSIZE]` -/
def hashAt (bytes : Bytes) (pos : Nat) (h : pos + HASHSIZE ≤ bytes.length) : Hash20 :=
  ⟨(bytes.drop pos).take HASHSIZE, List.length_take_of_le (by rw [List.length_drop]; omega)⟩

/-- `by_root.entry(root).or_insert(pos)` -/
def orInsert (byRoot : List (Hash20 × Nat)) (root : Hash20) (pos : Nat) : List (Hash20 × Nat) :=
  if root ∈ byRoot.map Prod.fst then byRoot else byRoot ++ [(root, pos)]

/-- The loop of the scan. Each turn goes on by a header at least. -/
def scanFrom (bytes : Bytes) : Nat → Nat → List (Hash20 × Nat) → Known2Index
  | 0, pos, byRoot => ⟨byRoot, pos⟩
  | fuel + 1, pos, byRoot =>
    if bytes.length ≤ pos then ⟨byRoot, pos⟩
    else if h : bytes.length - pos < ENTRY_HEADER then ⟨byRoot, pos⟩
    else if bytes.length - pos < entryLenAt bytes pos then ⟨byRoot, pos⟩
    else
      let root := hashAt bytes pos (by unfold ENTRY_HEADER at h; omega)
      scanFrom bytes fuel (pos + entryLenAt bytes pos) (orInsert byRoot root pos)

def scanKnown2Met (bytes : Bytes) : Except IoError Known2Index :=
  match bytes with
  | [] => .error .unexpectedEof
  | version :: rest =>
    if version ≠ KNOWN2_MET_VERSION then .error (.badTag version)
    else .ok (scanFrom bytes rest.length 1 [])

/-- The loop over the leaves. -/
def leavesFrom (bytes : Bytes) : Nat → Nat → Except IoError (List Hash20)
  | 0, _ => .ok []
  | count + 1, pos =>
    if h : bytes.length < pos + HASHSIZE then .error .unexpectedEof
    else do
      let leaves ← leavesFrom bytes count (pos + HASHSIZE)
      return hashAt bytes pos (Nat.le_of_not_lt h) :: leaves

def readKnown2Entry (bytes : Bytes) (offset : Nat) : Except IoError Hashset :=
  if h : bytes.length < offset + ENTRY_HEADER then .error .unexpectedEof
  else do
    let leaves ← leavesFrom bytes (countAt bytes offset) (offset + ENTRY_HEADER)
    return ⟨hashAt bytes offset (by unfold ENTRY_HEADER at h; omega), leaves⟩

def offsetsFrom (bytes : Bytes) (validLen : Nat) : Nat → Nat → List Nat
  | 0, _ => []
  | fuel + 1, pos =>
    if validLen ≤ pos then []
    else pos :: offsetsFrom bytes validLen fuel (pos + entryLenAt bytes pos)

/-- Where the hashsets start, duplicates included. -/
def entryOffsets (bytes : Bytes) (validLen : Nat) : List Nat :=
  offsetsFrom bytes validLen validLen 1

def readKnown2Met (bytes : Bytes) : Except IoError (List Hashset) := do
  let idx ← scanKnown2Met bytes
  (entryOffsets bytes idx.validLen).mapM (readKnown2Entry bytes)

/-- What a removal keeps of the hashset at `off`. -/
def keptAt (bytes : Bytes) (root : Hash20) (off : Nat) : Bytes :=
  if (bytes.drop off).take HASHSIZE = root.bytes then []
  else (bytes.drop off).take (entryLenAt bytes off)

def removeKnown2Entry (bytes : Bytes) (root : Hash20) : Option Bytes := do
  let idx ← (scanKnown2Met bytes).toOption
  let _offset ← idx.byRoot.lookup root
  return KNOWN2_MET_VERSION :: (entryOffsets bytes idx.validLen).flatMap (keptAt bytes root)

/-! ## The scan and the list of hashsets -/

theorem entryLenAt_eq (bytes : Bytes) (pos : Nat) :
    entryLenAt bytes pos = entryLen (bytes.drop pos) := by
  rw [entryLenAt, countAt, entryLen, leafCount, List.drop_drop]

/-- The index that the scan builds while it goes over `es`. -/
def indexInto : List (Hash20 × Nat) → Nat → List Known2Entry → List (Hash20 × Nat)
  | byRoot, _, [] => byRoot
  | byRoot, pos, e :: es => indexInto (orInsert byRoot e.root pos) (pos + e.bytes.length) es

/-- New roots go behind the ones that are there. -/
theorem indexInto_eq (byRoot : List (Hash20 × Nat)) (pos : Nat) (es : List Known2Entry) :
    indexInto byRoot pos es =
      byRoot ++ (indexFrom pos es).filter fun r => r.1 ∉ byRoot.map Prod.fst := by
  induction es generalizing byRoot pos with
  | nil => simp [indexInto, indexFrom]
  | cons e es ih =>
    rw [indexInto, indexFrom, ih, orInsert]
    split_ifs with hmem
    · rw [List.filter_cons_of_neg (by simpa using hmem), List.filter_filter]
      refine congrArg (byRoot ++ ·) (List.filter_congr fun r _ => ?_)
      by_cases hr : r.1 = e.root
      · simpa [hr] using hmem
      · simp [hr]
    · rw [List.filter_cons_of_pos (by simpa using hmem), List.filter_filter, List.append_assoc]
      refine congrArg (fun l => byRoot ++ (e.root, pos) :: l) (List.filter_congr fun r _ => ?_)
      simp only [List.map_append, List.mem_append, List.map_singleton, List.mem_singleton, not_or,
        ← Bool.decide_and]

theorem entryLenAt_of_drop {bytes rest : Bytes} {pos : Nat} {e : Known2Entry}
    (h : bytes.drop pos = e.bytes ++ rest) : entryLenAt bytes pos = e.bytes.length := by
  rw [entryLenAt_eq, h, entryLen_append e.header_le, ← e.whole]

theorem drop_next {bytes rest : Bytes} {pos : Nat} {e : Known2Entry}
    (h : bytes.drop pos = e.bytes ++ rest) : bytes.drop (pos + e.bytes.length) = rest := by
  rw [← List.drop_drop, h, List.drop_left]

theorem take_root {bytes rest : Bytes} {pos : Nat} {e : Known2Entry}
    (h : bytes.drop pos = e.bytes ++ rest) : (bytes.drop pos).take HASHSIZE = e.root.bytes := by
  rw [h]
  exact List.take_append_of_le_length (le_trans (by decide) e.header_le)

/-- From the start of a whole hashset to its end. -/
theorem scanFrom_step {bytes rest : Bytes} {pos : Nat} {e : Known2Entry}
    (h : bytes.drop pos = e.bytes ++ rest) (fuel : Nat) (byRoot : List (Hash20 × Nat)) :
    scanFrom bytes (fuel + 1) pos byRoot =
      scanFrom bytes fuel (pos + e.bytes.length) (orInsert byRoot e.root pos) := by
  have hlen : bytes.length - pos = e.bytes.length + rest.length := by
    rw [← List.length_drop, h, List.length_append]
  have hhead := e.header_le
  have hpos : 0 < ENTRY_HEADER := by decide
  have hentry := entryLenAt_of_drop h
  rw [scanFrom, if_neg (by omega), dif_neg (by omega), if_neg (by omega), hentry]
  exact congrArg (fun root => scanFrom bytes fuel _ (orInsert byRoot root pos))
    (Digest.ext_bytes (take_root h))

/-- Where no whole hashset starts the scan is over. -/
theorem scanFrom_stop {bytes : Bytes} {pos : Nat} (h : nextEntry (bytes.drop pos) = none)
    (fuel : Nat) (byRoot : List (Hash20 × Nat)) :
    scanFrom bytes fuel pos byRoot = ⟨byRoot, pos⟩ := by
  cases fuel with
  | zero => rfl
  | succ fuel =>
    have hrest : (bytes.drop pos).length = bytes.length - pos := List.length_drop
    unfold nextEntry at h
    split_ifs at h with hshort
    rw [hrest, ← entryLenAt_eq] at hshort
    rw [scanFrom]
    split_ifs with hend hhead hentry
    · rfl
    · rfl
    · rfl
    · exact absurd ⟨by omega, by omega⟩ hshort

theorem scanFrom_eq (bytes : Bytes) (fuel pos : Nat) (byRoot : List (Hash20 × Nat)) :
    scanFrom bytes fuel pos byRoot =
      ⟨indexInto byRoot pos (entriesFrom fuel (bytes.drop pos)),
        pos + ((entriesFrom fuel (bytes.drop pos)).flatMap Known2Entry.bytes).length⟩ := by
  induction fuel generalizing pos byRoot with
  | zero => rfl
  | succ fuel ih =>
    rw [entriesFrom]
    cases hnext : nextEntry (bytes.drop pos) with
    | none => exact scanFrom_stop hnext _ _
    | some next =>
      have hdrop := nextEntry_eq_some hnext
      rw [scanFrom_step hdrop, ih, drop_next hdrop]
      simp only [indexInto, List.flatMap_cons, List.length_append, Nat.add_assoc]

/-- The scan finds the hashsets that are whole. -/
theorem scan_eq (bytes : Bytes) : scanKnown2Met bytes = Files.scanKnown2Met bytes := by
  cases bytes with
  | nil => rfl
  | cons version rest =>
    rw [scanKnown2Met, Files.scanKnown2Met, scanFrom_eq, List.drop_succ_cons, List.drop_zero,
      indexInto_eq]
    simp [wholeEntries]

/-! ## The offsets -/

/-- Where the hashsets of a list start. -/
def startsFrom : Nat → List Known2Entry → List Nat
  | _, [] => []
  | pos, e :: es => pos :: startsFrom (pos + e.bytes.length) es

theorem offsetsFrom_eq {bytes tail : Bytes} {fuel pos : Nat} {es : List Known2Entry}
    (h : bytes.drop pos = es.flatMap Known2Entry.bytes ++ tail) (hfuel : es.length ≤ fuel) :
    offsetsFrom bytes (pos + (es.flatMap Known2Entry.bytes).length) fuel pos =
      startsFrom pos es := by
  induction es generalizing pos fuel with
  | nil =>
    cases fuel with
    | zero => rfl
    | succ fuel => exact if_pos (le_refl _)
  | cons e es ih =>
    cases fuel with
    | zero => exact absurd hfuel (Nat.not_succ_le_zero _)
    | succ fuel =>
      have hhead : 0 < e.bytes.length := lt_of_lt_of_le (by decide) e.header_le
      rw [List.flatMap_cons, List.append_assoc] at h
      have hnext := ih (drop_next h) (Nat.le_of_succ_le_succ hfuel)
      rw [List.flatMap_cons, List.length_append, offsetsFrom, if_neg (by omega),
        entryLenAt_of_drop h, startsFrom, ← Nat.add_assoc, hnext]

/-- What is behind the version byte of a store that scans. -/
theorem drop_one_of_scan {bytes : Bytes} {idx : Known2Index}
    (h : Files.scanKnown2Met bytes = .ok idx) : ∃ tail,
      bytes.drop 1 = (known2Entries bytes).flatMap Known2Entry.bytes ++ tail ∧
        idx.validLen = 1 + ((known2Entries bytes).flatMap Known2Entry.bytes).length := by
  rw [known2Entries, h]
  cases bytes with
  | nil => cases h
  | cons version rest =>
    rw [Files.scanKnown2Met] at h
    split at h
    · cases h
    · cases h
      obtain ⟨tail, htail⟩ := entriesFrom_isPrefix rest.length rest
      exact ⟨tail, htail.symm, rfl⟩

theorem entryOffsets_eq {bytes : Bytes} {idx : Known2Index}
    (h : Files.scanKnown2Met bytes = .ok idx) :
    entryOffsets bytes idx.validLen = startsFrom 1 (known2Entries bytes) := by
  obtain ⟨tail, hdrop, hvalid⟩ := drop_one_of_scan h
  rw [entryOffsets, hvalid]
  exact offsetsFrom_eq hdrop ((length_le_flatMap _).trans (Nat.le_add_left ..))

/-! ## Removing -/

theorem flatMap_keptAt {bytes tail : Bytes} {root : Hash20} {pos : Nat} {es : List Known2Entry}
    (h : bytes.drop pos = es.flatMap Known2Entry.bytes ++ tail) :
    (startsFrom pos es).flatMap (keptAt bytes root) =
      (es.filter fun e => e.root ≠ root).flatMap Known2Entry.bytes := by
  induction es generalizing pos with
  | nil => rfl
  | cons e es ih =>
    rw [List.flatMap_cons, List.append_assoc] at h
    have hbytes : (bytes.drop pos).take (entryLenAt bytes pos) = e.bytes := by
      rw [entryLenAt_of_drop h, h, List.take_left]
    rw [startsFrom, List.flatMap_cons, ih (drop_next h), keptAt, take_root h, hbytes]
    by_cases heq : e.root = root
    · rw [if_pos (congrArg Digest.bytes heq), List.filter_cons_of_neg (by simpa using heq),
        List.nil_append]
    · rw [if_neg (heq ∘ Digest.ext_bytes), List.filter_cons_of_pos (by simpa using heq),
        List.flatMap_cons]

/-- The removal keeps the hashsets of the other roots. -/
theorem remove_eq (bytes : Bytes) (root : Hash20) :
    removeKnown2Entry bytes root = Files.removeKnown2Entry bytes root := by
  rw [removeKnown2Entry, Files.removeKnown2Entry, scan_eq]
  cases hscan : Files.scanKnown2Met bytes with
  | error err => rfl
  | ok idx =>
    obtain ⟨tail, hdrop, -⟩ := drop_one_of_scan hscan
    cases hlookup : idx.byRoot.lookup root with
    | none => simp [Except.toOption, hlookup]
    | some offset =>
      simp [Except.toOption, hlookup, entryOffsets_eq hscan, flatMap_keptAt hdrop, writeKnown2Met]

/-! ## Reading -/

theorem hashAt_eq {bytes rest : Bytes} {pos : Nat} {d : Hash20}
    (h : bytes.drop pos = d.bytes ++ rest) (hle : pos + HASHSIZE ≤ bytes.length) :
    hashAt bytes pos hle = d := by
  have htake : (bytes.drop pos).take HASHSIZE = d.bytes := by
    rw [h]
    exact List.take_left' d.len
  exact Digest.ext_bytes htake

theorem leavesFrom_eq {bytes rest : Bytes} {pos : Nat} {leaves : List Hash20}
    (h : bytes.drop pos = leaves.flatMap Digest.bytes ++ rest) :
    leavesFrom bytes leaves.length pos = .ok leaves := by
  induction leaves generalizing pos with
  | nil => rfl
  | cons leaf leaves ih =>
    rw [List.flatMap_cons, List.append_assoc] at h
    have hsize : leaf.bytes.length = HASHSIZE := leaf.len
    have hlen := congrArg List.length h
    rw [List.length_drop, List.length_append, hsize] at hlen
    have hpos : 0 < HASHSIZE := by decide
    have hrest : bytes.drop (pos + HASHSIZE) = leaves.flatMap Digest.bytes ++ rest := by
      rw [← List.drop_drop, h, List.drop_left' hsize]
    rw [List.length_cons, leavesFrom, dif_neg (by omega), ih hrest, hashAt_eq h]
    rfl

theorem length_of_leavesFrom {bytes : Bytes} {count pos : Nat} {leaves : List Hash20}
    (h : leavesFrom bytes count pos = .ok leaves) : leaves.length = count := by
  induction count generalizing pos leaves with
  | zero =>
    cases h
    rfl
  | succ count ih =>
    rw [leavesFrom] at h
    split at h
    · cases h
    · cases hrest : leavesFrom bytes count (pos + HASHSIZE) with
      | error err =>
        rw [hrest] at h
        cases h
      | ok rest =>
        rw [hrest] at h
        cases h
        rw [List.length_cons, ih hrest]

/-- What is read has as many leaves as its count says. -/
theorem fits_of_read {bytes : Bytes} {offset : Nat} {h : Hashset}
    (hread : readKnown2Entry bytes offset = .ok h) : h.Fits := by
  rw [readKnown2Entry] at hread
  split at hread
  · cases hread
  · cases hleaves : leavesFrom bytes (countAt bytes offset) (offset + ENTRY_HEADER) with
    | error err =>
      rw [hleaves] at hread
      cases hread
    | ok leaves =>
      rw [hleaves] at hread
      cases hread
      have hfour : ((bytes.drop (offset + HASHSIZE)).take 4).length ≤ 4 := List.length_take_le ..
      show leaves.length < 2 ^ 32
      rw [length_of_leavesFrom hleaves, countAt]
      exact (ofLE_lt _).trans_le (Nat.pow_le_pow_right (by decide) hfour)

namespace Hashset

theorem length_leaves (leaves : List Hash20) :
    (leaves.flatMap Digest.bytes).length = leaves.length * HASHSIZE := by
  induction leaves with
  | nil => rfl
  | cons leaf leaves ih =>
    rw [List.flatMap_cons, List.length_append, ih, leaf.len, List.length_cons, Nat.succ_mul,
      Nat.add_comm]
    rfl

theorem leafCount_bytes {h : Hashset} (hfit : h.Fits) (rest : Bytes) :
    leafCount (h.bytes ++ rest) = h.leaves.length := by
  have hroot : h.root.bytes.length = HASHSIZE := h.root.len
  have hcount : (UInt32.ofNat h.leaves.length).toNat = h.leaves.length :=
    UInt32.toNat_ofNat_of_lt' hfit
  have hfour : (writeU32 (.ofNat h.leaves.length)).length = 4 := length_toLE 4 _
  rw [leafCount, bytes, known2EntryBytes, List.append_assoc, List.append_assoc,
    List.drop_left' hroot, List.take_left' hfour, writeU32, hcount,
    ofLE_toLE (show h.leaves.length < 256 ^ 4 from hfit)]

theorem length_bytes (h : Hashset) :
    h.bytes.length = ENTRY_HEADER + h.leaves.length * HASHSIZE := by
  rw [bytes, known2EntryBytes, List.length_append, List.length_append, length_leaves, h.root.len,
    writeU32, length_toLE, ← Nat.add_assoc]
  rfl

theorem whole {h : Hashset} (hfit : h.Fits) : h.bytes.length = entryLen h.bytes := by
  have hcount := leafCount_bytes hfit []
  rw [List.append_nil] at hcount
  rw [entryLen, hcount, length_bytes]

/-- One that fits is whole in the bytes that are written for it. -/
def entry (h : Hashset) (hfit : h.Fits) : Known2Entry := ⟨h.bytes, whole hfit⟩

theorem root_entry {h : Hashset} (hfit : h.Fits) : (h.entry hfit).root = h.root := by
  have hroot : h.root.bytes.length = HASHSIZE := h.root.len
  exact Digest.ext_bytes (List.take_left' hroot)

end Hashset

section

variable {bytes rest : Bytes} {pos : Nat} {h : Hashset}

theorem header_le_of_drop (hdrop : bytes.drop pos = h.bytes ++ rest) :
    pos + ENTRY_HEADER ≤ bytes.length := by
  have hlen := congrArg List.length hdrop
  rw [List.length_drop, List.length_append, h.length_bytes] at hlen
  have hpos : 0 < ENTRY_HEADER := by decide
  omega

theorem take_root_of_drop (hdrop : bytes.drop pos = h.bytes ++ rest) :
    (bytes.drop pos).take HASHSIZE = h.root.bytes := by
  rw [hdrop, Hashset.bytes, known2EntryBytes, List.append_assoc]
  exact List.take_left' h.root.len

theorem countAt_of_drop (hfit : h.Fits) (hdrop : bytes.drop pos = h.bytes ++ rest) :
    countAt bytes pos = h.leaves.length := by
  rw [countAt, ← List.drop_drop, hdrop]
  exact Hashset.leafCount_bytes hfit rest

theorem leavesFrom_of_drop (hdrop : bytes.drop pos = h.bytes ++ rest) :
    leavesFrom bytes h.leaves.length (pos + ENTRY_HEADER) = .ok h.leaves := by
  have hhead : (h.root.bytes ++ writeU32 (.ofNat h.leaves.length)).length = ENTRY_HEADER := by
    rw [List.length_append, h.root.len, writeU32, length_toLE]
    rfl
  have hleaves : bytes.drop (pos + ENTRY_HEADER) = h.leaves.flatMap Digest.bytes ++ rest := by
    rw [← List.drop_drop, hdrop, Hashset.bytes, known2EntryBytes, ← List.append_assoc,
      List.append_assoc, List.drop_left' hhead]
  exact leavesFrom_eq hleaves

theorem readKnown2Entry_eq (hfit : h.Fits) (hdrop : bytes.drop pos = h.bytes ++ rest) :
    readKnown2Entry bytes pos = .ok h := by
  have hhead := header_le_of_drop hdrop
  have hroot := hdrop
  rw [Hashset.bytes, known2EntryBytes, List.append_assoc] at hroot
  rw [readKnown2Entry, dif_neg (by omega), countAt_of_drop hfit hdrop, leavesFrom_of_drop hdrop,
    hashAt_eq hroot]
  rfl

end

/-! ## Stores -/

section

variable {hs : List Hashset} (hfit : ∀ h ∈ hs, h.Fits)

/-- The hashsets of a list as the walks take them. -/
def entriesOf (hs : List Hashset) (hfit : ∀ h ∈ hs, h.Fits) : List Known2Entry :=
  hs.pmap Hashset.entry hfit

theorem flatMap_entriesOf :
    (entriesOf hs hfit).flatMap Known2Entry.bytes = hs.flatMap Hashset.bytes := by
  induction hs with
  | nil => rfl
  | cons h hs ih =>
    obtain ⟨-, hrest⟩ := List.forall_mem_cons.mp hfit
    exact congrArg (h.bytes ++ ·) (ih hrest)

theorem roots_entriesOf : (entriesOf hs hfit).map Known2Entry.root = hs.map Hashset.root := by
  rw [entriesOf, List.map_pmap]
  induction hs with
  | nil => rfl
  | cons h hs ih =>
    obtain ⟨hhead, hrest⟩ := List.forall_mem_cons.mp hfit
    rw [List.pmap_cons, List.map_cons, Hashset.root_entry hhead, ih hrest]

/-- Whether a strict prefix of a hashset is cut in its header or behind it, no whole one starts
    there. -/
theorem nextEntry_torn {torn : Hashset} (hfits : torn.Fits) {tail : Bytes}
    (hstart : tail <+: torn.bytes) (hne : tail ≠ torn.bytes) : nextEntry tail = none := by
  obtain ⟨rest, hrest⟩ := hstart
  have hlen := congrArg List.length hrest
  rw [List.length_append, Hashset.whole hfits] at hlen
  have hpos : 0 < rest.length := by
    refine List.length_pos_iff.mpr fun hnil => hne ?_
    rw [← hrest, hnil, List.append_nil]
  refine dif_neg fun hwhole => ?_
  have hsame := entryLen_append hwhole.1 rest
  rw [hrest] at hsame
  have hle := hwhole.2
  omega

theorem known2Entries_store {tail : Bytes} (htail : nextEntry tail = none) :
    known2Entries (storeOf hs ++ tail) = entriesOf hs hfit := by
  have hlen := length_le_flatMap (entriesOf hs hfit)
  rw [flatMap_entriesOf] at hlen
  rw [storeOf, List.cons_append, known2Entries, Files.scanKnown2Met, if_neg (by simp)]
  show wholeEntries (hs.flatMap Hashset.bytes ++ tail) = _
  rw [wholeEntries, ← flatMap_entriesOf hfit]
  refine entriesFrom_append htail ?_
  rw [flatMap_entriesOf, List.length_append]
  omega

theorem scan_store {tail : Bytes} (htail : nextEntry tail = none) :
    scanKnown2Met (storeOf hs ++ tail) =
      .ok ⟨indexFrom 1 (entriesOf hs hfit), (storeOf hs).length⟩ := by
  have hentries := known2Entries_store hfit htail
  have hok : ∃ idx, Files.scanKnown2Met (storeOf hs ++ tail) = .ok idx := by
    rw [storeOf, List.cons_append, Files.scanKnown2Met, if_neg (by simp)]
    exact ⟨_, rfl⟩
  obtain ⟨idx, hidx⟩ := hok
  obtain ⟨-, -, hvalid⟩ := drop_one_of_scan hidx
  have hroots := byRoot_of_scan hidx
  rw [hentries] at hroots hvalid
  rw [flatMap_entriesOf] at hvalid
  rw [scan_eq, hidx, ← hroots, storeOf, List.length_cons, Nat.add_comm, ← hvalid]

theorem mapM_starts {bytes tail : Bytes} {pos : Nat}
    (h : bytes.drop pos = hs.flatMap Hashset.bytes ++ tail) :
    (startsFrom pos (entriesOf hs hfit)).mapM (readKnown2Entry bytes) = .ok hs := by
  induction hs generalizing pos with
  | nil => rfl
  | cons g hs ih =>
    obtain ⟨hhead, hrest⟩ := List.forall_mem_cons.mp hfit
    rw [List.flatMap_cons, List.append_assoc] at h
    have hnext : bytes.drop (pos + g.bytes.length) = hs.flatMap Hashset.bytes ++ tail := by
      rw [← List.drop_drop, h, List.drop_left]
    show (pos :: startsFrom (pos + g.bytes.length) (entriesOf hs hrest)).mapM _ = _
    rw [List.mapM_cons, readKnown2Entry_eq hhead h, ih hrest hnext]
    rfl

theorem lookup_filter_ne {k r : Hash20} (hne : r ≠ k) (l : List (Hash20 × Nat)) :
    (l.filter fun x => x.1 ≠ k).lookup r = l.lookup r := by
  induction l with
  | nil => rfl
  | cons x l ih =>
    by_cases hx : x.1 = k
    · have hr : (r == x.1) = false := by simpa [hx] using hne
      rw [List.filter_cons_of_neg (by simpa using hx), ih, List.lookup_cons, hr]
    · rw [List.filter_cons_of_pos (by simpa using hx), List.lookup_cons, List.lookup_cons, ih]

/-- The index points to the first hashset of a root. -/
theorem lookup_indexFrom {pos off : Nat} {root : Hash20}
    (h : (indexFrom pos (entriesOf hs hfit)).lookup root = some off) :
    ∃ before g after, hs = before ++ g :: after ∧ g.root = root ∧
      (∀ x ∈ before, x.root ≠ root) ∧ off = pos + (before.flatMap Hashset.bytes).length := by
  induction hs generalizing pos with
  | nil => cases h
  | cons g hs ih =>
    obtain ⟨hhead, hrest⟩ := List.forall_mem_cons.mp hfit
    have hcons : indexFrom pos (entriesOf (g :: hs) hfit) =
        (g.root, pos) :: (indexFrom (pos + g.bytes.length) (entriesOf hs hrest)).filter
          fun r => r.1 ≠ g.root := by
      rw [← Hashset.root_entry hhead]
      rfl
    rw [hcons, List.lookup_cons] at h
    by_cases hroot : root = g.root
    · rw [beq_iff_eq.mpr hroot] at h
      cases h
      exact ⟨[], g, hs, rfl, hroot.symm, fun x hx => absurd hx List.not_mem_nil, rfl⟩
    · rw [beq_eq_false_iff_ne.mpr hroot, lookup_filter_ne hroot] at h
      obtain ⟨before, g', after, hsplit, hg, hbefore, hoff⟩ := ih hrest h
      refine ⟨g :: before, g', after, by rw [hsplit]; rfl, hg, ?_, ?_⟩
      · exact List.forall_mem_cons.mpr ⟨Ne.symm hroot, hbefore⟩
      · rw [hoff, List.flatMap_cons, List.length_append, Nat.add_assoc]

theorem lookup_indexFrom_eq_none_iff {pos : Nat} {root : Hash20} :
    (indexFrom pos (entriesOf hs hfit)).lookup root = none ↔ ∀ h ∈ hs, h.root ≠ root := by
  have hroots : root ∈ (indexFrom pos (entriesOf hs hfit)).map Prod.fst ↔
      root ∈ hs.map Hashset.root := by
    rw [mem_indexFrom, roots_entriesOf]
  rw [List.lookup_eq_none_iff]
  constructor
  · intro h g hg heq
    obtain ⟨x, hx, hxr⟩ := List.mem_map.mp (hroots.mpr (heq ▸ List.mem_map_of_mem hg))
    exact bne_iff_ne.mp (h x hx) hxr.symm
  · intro h x hx
    refine bne_iff_ne.mpr fun heq => ?_
    obtain ⟨g, hg, hgr⟩ := List.mem_map.mp (hroots.mp (heq ▸ List.mem_map_of_mem hx))
    exact h g hg hgr

include hfit in
theorem readKnown2Met_store {tail : Bytes} (htail : nextEntry tail = none) :
    readKnown2Met (storeOf hs ++ tail) = .ok hs := by
  have hscan := scan_store hfit htail
  have hscan' := hscan
  rw [scan_eq] at hscan'
  have hoffsets := entryOffsets_eq hscan'
  rw [known2Entries_store hfit htail] at hoffsets
  rw [readKnown2Met, hscan]
  show (entryOffsets _ (storeOf hs).length).mapM _ = _
  rw [hoffsets]
  have hdrop : (storeOf hs ++ tail).drop 1 = hs.flatMap Hashset.bytes ++ tail := rfl
  exact mapM_starts hfit hdrop

/-- What a removal keeps. -/
theorem flatMap_kept (root : Hash20) :
    ((entriesOf hs hfit).filter fun e => e.root ≠ root).flatMap Known2Entry.bytes =
      (hs.filter fun h => h.root ≠ root).flatMap Hashset.bytes := by
  induction hs with
  | nil => rfl
  | cons g hs ih =>
    obtain ⟨hhead, hrest⟩ := List.forall_mem_cons.mp hfit
    have hgroot := Hashset.root_entry hhead
    show ((g.entry hhead :: entriesOf hs hrest).filter _).flatMap _ = _
    by_cases heq : g.root = root
    · rw [List.filter_cons_of_neg (by simp [hgroot, heq]),
        List.filter_cons_of_neg (by simp [heq]), ih hrest]
    · rw [List.filter_cons_of_pos (by simp [hgroot, heq]),
        List.filter_cons_of_pos (by simp [heq]), List.flatMap_cons, List.flatMap_cons, ih hrest]
      rfl

include hfit in
/-- A removal writes the store of the hashsets of the other roots. -/
theorem remove_store {tail : Bytes} (htail : nextEntry tail = none) {root : Hash20}
    (hroot : root ∈ hs.map Hashset.root) :
    removeKnown2Entry (storeOf hs ++ tail) root =
      some (storeOf (hs.filter fun h => h.root ≠ root)) := by
  have hscan := scan_store hfit htail
  have hentries := known2Entries_store hfit htail
  obtain ⟨off, hoff⟩ : ∃ off, (indexFrom 1 (entriesOf hs hfit)).lookup root = some off := by
    refine Option.ne_none_iff_exists'.mp fun hnone => ?_
    obtain ⟨h, hh, hhr⟩ := List.mem_map.mp hroot
    exact (lookup_indexFrom_eq_none_iff hfit).mp hnone h hh hhr
  rw [scan_eq] at hscan
  rw [remove_eq, Files.removeKnown2Entry, hscan, hentries]
  show ((indexFrom 1 (entriesOf hs hfit)).lookup root >>= fun _ => _) = _
  rw [hoff]
  exact congrArg (fun bytes => some (KNOWN2_MET_VERSION :: bytes)) (flatMap_kept hfit root)

include hfit in
theorem remove_absent {tail : Bytes} (htail : nextEntry tail = none) {root : Hash20}
    (hroot : ∀ h ∈ hs, h.root ≠ root) : removeKnown2Entry (storeOf hs ++ tail) root = none := by
  have habsent : (indexFrom 1 (entriesOf hs hfit)).lookup root = none :=
    (lookup_indexFrom_eq_none_iff hfit).mpr hroot
  rw [removeKnown2Entry, scan_store hfit htail]
  show (List.lookup root (indexFrom 1 _) >>= fun _ => _) = none
  rw [habsent]
  rfl

end

theorem fits_filter {hs : List Hashset} (hfit : ∀ h ∈ hs, h.Fits) (p : Hashset → Bool) :
    ∀ h ∈ hs.filter p, h.Fits := fun h hh => hfit h (List.mem_of_mem_filter hh)

theorem nextEntry_nil : nextEntry [] = none := dif_neg (by decide)

theorem fits_of_mapM {bytes : Bytes} {offs : List Nat} {hs : List Hashset}
    (hread : offs.mapM (readKnown2Entry bytes) = .ok hs) : ∀ h ∈ hs, h.Fits := by
  induction offs generalizing hs with
  | nil =>
    cases hread
    exact fun h hh => absurd hh List.not_mem_nil
  | cons off offs ih =>
    rw [List.mapM_cons] at hread
    cases hfirst : readKnown2Entry bytes off with
    | error err =>
      rw [hfirst] at hread
      cases hread
    | ok h =>
      rw [hfirst] at hread
      cases hrest : offs.mapM (readKnown2Entry bytes) with
      | error err =>
        rw [hrest] at hread
        cases hread
      | ok hs' =>
        rw [hrest] at hread
        cases hread
        exact List.forall_mem_cons.mpr ⟨fits_of_read hfirst, ih hrest⟩

/-- A full read gives the hashsets back exactly if the count can tell the leaves of each. -/
theorem readKnown2Met_iff (hs : List Hashset) :
    readKnown2Met (storeOf hs) = .ok hs ↔ ∀ h ∈ hs, h.Fits := by
  constructor
  · intro hread
    rw [readKnown2Met] at hread
    cases hscan : scanKnown2Met (storeOf hs) with
    | error err =>
      rw [hscan] at hread
      cases hread
    | ok idx =>
      rw [hscan] at hread
      exact fits_of_mapM hread
  · intro hfit
    have hread := readKnown2Met_store hfit nextEntry_nil
    rwa [List.append_nil] at hread

/-- A hashset of `2 ^ 32` leaves is written with the count zero. -/
theorem wrapped_count_loses_leaves :
    readKnown2Met (storeOf [⟨Digest.fill 20 0, List.replicate (2 ^ 32) (Digest.fill 20 0)⟩]) ≠
      .ok [⟨Digest.fill 20 0, List.replicate (2 ^ 32) (Digest.fill 20 0)⟩] := by
  intro hread
  have hfits := (readKnown2Met_iff _).mp hread _ (List.mem_singleton_self _)
  rw [Hashset.Fits, List.length_replicate] at hfits
  exact lt_irrefl _ hfits

/-- On hashsets of fewer than `2 ^ 32` leaves one behind the other, with a torn one at the end or
    not: the scan ends behind the last whole one and points to the first of each root, that one
    reads back, a full read gives them all, and a removal leaves the others as they are and the
    root absent. -/
theorem known2_store_codec (hs : List Hashset) (hfit : ∀ h ∈ hs, h.Fits) (torn : Hashset)
    (htorn : torn.Fits) (tail : Bytes) (htail : tail <+: torn.bytes) (hne : tail ≠ torn.bytes) :
    ∃ idx, scanKnown2Met (storeOf hs ++ tail) = .ok idx ∧
      idx.validLen = (storeOf hs).length ∧
      (∀ root, idx.byRoot.lookup root = none ↔ ∀ h ∈ hs, h.root ≠ root) ∧
      (∀ root off, idx.byRoot.lookup root = some off →
        ∃ before g after, hs = before ++ g :: after ∧ g.root = root ∧
          (∀ h ∈ before, h.root ≠ root) ∧ off = (storeOf before).length ∧
          readKnown2Entry (storeOf hs ++ tail) off = .ok g) ∧
      readKnown2Met (storeOf hs ++ tail) = .ok hs ∧
      ∀ root ∈ hs.map Hashset.root, ∃ out idx',
        removeKnown2Entry (storeOf hs ++ tail) root = some out ∧
        out = storeOf (hs.filter fun h => h.root ≠ root) ∧
        scanKnown2Met out = .ok idx' ∧ idx'.byRoot.lookup root = none ∧
        removeKnown2Entry out root = none := by
  have htorn := nextEntry_torn htorn htail hne
  refine ⟨_, scan_store hfit htorn, rfl, fun root => lookup_indexFrom_eq_none_iff hfit,
    fun root off hoff => ?_, readKnown2Met_store hfit htorn, fun root hroot => ?_⟩
  · obtain ⟨before, g, after, rfl, hg, hbefore, hat⟩ := lookup_indexFrom hfit hoff
    have hlen : off = (storeOf before).length := by
      rw [hat, storeOf, List.length_cons, Nat.add_comm]
    refine ⟨before, g, after, rfl, hg, hbefore, hlen, ?_⟩
    have hsplit : storeOf (before ++ g :: after) ++ tail =
        storeOf before ++ (g.bytes ++ (after.flatMap Hashset.bytes ++ tail)) := by
      simp [storeOf]
    have hdrop : (storeOf (before ++ g :: after) ++ tail).drop off =
        g.bytes ++ (after.flatMap Hashset.bytes ++ tail) := by
      rw [hsplit, hlen, List.drop_left]
    exact readKnown2Entry_eq (hfit g (by simp)) hdrop
  · have hleft : ∀ h ∈ hs.filter fun h => h.root ≠ root, h.root ≠ root := fun h hh =>
      of_decide_eq_true (List.mem_filter.mp hh).2
    have hfit' := fits_filter hfit fun h => h.root ≠ root
    have hscan := scan_store hfit' nextEntry_nil
    have hremove := remove_absent hfit' nextEntry_nil hleft
    rw [List.append_nil] at hscan hremove
    exact ⟨_, _, remove_store hfit htorn hroot, rfl, hscan,
      (lookup_indexFrom_eq_none_iff hfit').mpr hleft, hremove⟩

/-- Two hashsets of one root, and the header of a third one cut short. -/
theorem known2_store_codec_duplicate :
    readKnown2Met (storeOf [⟨Digest.fill 20 1, [Digest.fill 20 2]⟩, ⟨Digest.fill 20 1, []⟩] ++
      [3, 3, 3]) = .ok [⟨Digest.fill 20 1, [Digest.fill 20 2]⟩, ⟨Digest.fill 20 1, []⟩] :=
  have hstore := known2_store_codec
    [⟨Digest.fill 20 1, [Digest.fill 20 2]⟩, ⟨Digest.fill 20 1, []⟩] (by decide)
    ⟨Digest.fill 20 3, []⟩ (by decide) [3, 3, 3] ⟨_, rfl⟩ (by decide)
  hstore.choose_spec.2.2.2.2.1

end PadMule.Files.Known2Walks
