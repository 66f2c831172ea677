import PadMule.Proto.AichComplete

/-
  Recovery payloads, record by record.

  A record's ident is the number of a root path, so `set_hash` on a decoded ident is
  `setPath`. `readRecoveryData_cases` says all a payload can do; `readRecoveryData_payload`
  is a well-formed payload read back as its records.
-/

namespace PadMule.Proto.Aich

open LittleEndian BitPath

namespace Node

/-! ## Idents -/

/-- The bits of a path that are shifted up to the marker stay below it. -/
theorem bits_shift_lt {p : List Bool} (hlen : p.length ≤ 31) :
    2 ^ p.length * 2 ^ (31 - p.length) = 2 ^ 31 ∧ bits p * 2 ^ (31 - p.length) < 2 ^ 31 := by
  have hpow : 2 ^ p.length * 2 ^ (31 - p.length) = 2 ^ 31 := by
    rw [← pow_add]
    congr 1
    omega
  refine ⟨hpow, ?_⟩
  rw [← hpow]
  exact Nat.mul_lt_mul_of_pos_right (bits_lt p) (Nat.two_pow_pos _)

/-- Descending by the bits of a path below the marker follows the path. -/
theorem setHash_eq_setPath (x : Hash20) {p : List Bool} {path : Nat} (hlen : p.length ≤ 31)
    (hpath : path % 2 ^ 31 = bits p * 2 ^ (31 - p.length)) (t : Node) :
    t.setHash x false p.length path = t.setPath x p := by
  induction p generalizing path t with
  | nil =>
    cases t with
    | absent => rfl
    | node h n s b l r => cases h <;> rfl
  | cons d p ih =>
    cases t with
    | absent => rfl
    | node h n s b l r =>
      rw [List.length_cons] at hlen hpath
      -- shifting drops the marker and leaves the direction in its place
      obtain ⟨hpow, hrest⟩ := bits_shift_lt (p := p) (by omega)
      have hshift : path * 2 % 2 ^ 32 = d.toNat * 2 ^ 31 + bits p * 2 ^ (31 - p.length) := by
        have h2 : path * 2 % 2 ^ 32 = path % 2 ^ 31 * 2 := by omega
        rw [h2, hpath, bits_cons, ← hpow, Nat.add_mul, Nat.add_mul,
          show 31 - p.length = 31 - (p.length + 1) + 1 by omega, pow_succ]
        ring
      rw [List.length_cons, setHash, setPath]
      split
      · rfl
      · dsimp only
        rw [hshift]
        cases d with
        | true =>
          rw [if_pos (by simp), ih (by omega) (by simpa using hrest)]
          rfl
        | false =>
          rw [if_neg (by simpa using hrest), ih (by omega) (by simpa using hrest)]
          rfl

theorem decodeIdent_ofPath {p : List Bool} (hlen : p.length ≤ 31) :
    decodeIdent (ofPath p) = some (ofPath p * 2 ^ (31 - p.length) % 2 ^ 32, p.length) := by
  have hne : ofPath p ≠ 0 := by
    have := le_ofPath p
    have := Nat.two_pow_pos p.length
    omega
  rw [decodeIdent, if_neg hne, log2_ofPath]
  simp only [Nat.sub_sub_self hlen]

theorem ofPath_shift_mod {p : List Bool} (hlen : p.length ≤ 31) :
    ofPath p * 2 ^ (31 - p.length) % 2 ^ 32 % 2 ^ 31 = bits p * 2 ^ (31 - p.length) := by
  obtain ⟨hpow, hrest⟩ := bits_shift_lt hlen
  rw [ofPath_eq, Nat.add_mul, hpow]
  omega

theorem ofPath_eq_one {p : List Bool} : ofPath p = 1 ↔ p = [] := by
  constructor
  · intro h
    cases p with
    | nil => rfl
    | cons d p =>
      have hle := le_ofPath (d :: p)
      have hpow := Nat.two_pow_pos p.length
      rw [List.length_cons, pow_succ] at hle
      omega
  · intro h
    subst h
    rfl

/-- One record plants its hash at the path of its ident, and consumes it. -/
theorem plant_ofPath (root : Node) {p : List Bool} (hne : p ≠ []) (hlen : p.length ≤ 31)
    {cur : Bytes} {x : Hash20} {rest : Bytes} (hcur : cur = x.bytes ++ rest) :
    root.plant (ofPath p) cur =
      (if (root.setPath x p).1 then some rest else none, (root.setPath x p).2) := by
  have hx : x.bytes.length = HASHSIZE := x.len
  have hsize : ¬ cur.length < HASHSIZE := by
    rw [hcur, List.length_append, hx]
    omega
  have htake : cur.take HASHSIZE = x.bytes := by rw [hcur, ← hx, List.take_left]
  have hdrop : cur.drop HASHSIZE = rest := by rw [hcur, ← hx, List.drop_left]
  rw [plant, if_neg (mt ofPath_eq_one.mp hne), decodeIdent_ofPath hlen]
  simp only [dif_neg hsize, hdrop]
  rw [setHash_eq_setPath _ hlen (ofPath_shift_mod hlen)]
  congr

/-- All a record can do: be refused unread, or plant a hash somewhere below the root. -/
theorem plant_cases (root : Node) {ident : Nat} (hid : ident < 2 ^ 32) (cur : Bytes) :
    root.plant ident cur = (none, root) ∧ (HASHSIZE ≤ cur.length → ident ≤ 1) ∨
      ∃ p x, p ≠ [] ∧ HASHSIZE ≤ cur.length ∧ root.plant ident cur =
        (if (root.setPath x p).1 then some (cur.drop HASHSIZE) else none,
          (root.setPath x p).2) := by
  by_cases h1 : ident = 1
  · exact .inl ⟨by rw [plant, if_pos h1], fun _ => h1.le⟩
  · by_cases h0 : ident = 0
    · refine .inl ⟨?_, fun _ => by omega⟩
      rw [plant, if_neg h1, decodeIdent, if_pos h0]
    · have hp : ofPath (toPath ident.log2 ident) = ident := ofPath_toPath h0
      have hlen : (toPath ident.log2 ident).length ≤ 31 := by
        rw [length_toPath]
        exact Nat.lt_succ_iff.mp ((Nat.log2_lt h0).mpr hid)
      by_cases hs : cur.length < HASHSIZE
      · refine .inl ⟨?_, fun h => by omega⟩
        rw [← hp, plant, if_neg (by rwa [hp]), decodeIdent_ofPath hlen]
        simp only [dif_pos hs]
      · have hcur : cur = cur.take HASHSIZE ++ cur.drop HASHSIZE :=
          (List.take_append_drop _ _).symm
        have hx : (cur.take HASHSIZE).length = 20 := by
          rw [List.length_take]
          exact Nat.min_eq_left (Nat.le_of_not_lt hs)
        refine .inr ⟨toPath ident.log2 ident, ⟨cur.take HASHSIZE, hx⟩, ?_,
          Nat.le_of_not_lt hs, ?_⟩
        · intro hnil
          rw [hnil] at hp
          exact h1 hp.symm
        · rw [← plant_ofPath root (fun hnil => h1 (by rw [← hp, hnil]; rfl)) hlen hcur, hp]

end Node

/-! ## Record loops -/

theorem readLE_lt {w ident : Nat} {cur rest : Bytes} (h : readLE w cur = some (ident, rest)) :
    ident < 256 ^ w ∧ cur.length = w + rest.length := by
  unfold readLE at h
  split at h
  · cases h
  · rename_i hw
    simp only [Option.some.injEq, Prod.mk.injEq] at h
    obtain ⟨rfl, rfl⟩ := h
    have hlen : (cur.take w).length = w := by
      rw [List.length_take]
      omega
    refine ⟨?_, ?_⟩
    · have := ofLE_lt (cur.take w)
      rwa [hlen] at this
    · rw [List.length_drop]
      omega

theorem readLE_toLE {w n : Nat} (hn : n < 256 ^ w) (rest : Bytes) :
    readLE w (toLE w n ++ rest) = some (n, rest) := by
  have hlen := length_toLE w n
  rw [readLE, if_neg (by rw [List.length_append, hlen]; omega), List.take_left' hlen,
    List.drop_left' hlen, ofLE_toLE hn]

namespace Node

/-- What single records keep, a record loop keeps. -/
theorem plantRecords_induct {I : Node → Prop}
    (step : ∀ x p t, p ≠ [] → I t → I (setPath x p t).2) {w : Nat} (hw : w ≤ 4)
    (bound count : Nat) {root : Node} (hI : I root) (cur : Bytes) :
    I (plantRecords w bound count root cur).2 := by
  induction count generalizing root cur with
  | zero => exact hI
  | succ count ih =>
    rw [plantRecords]
    split
    · exact hI
    · rename_i ident cur' hread
      split
      · exact hI
      · have hid : ident < 2 ^ 32 :=
          (readLE_lt hread).1.trans_le ((Nat.pow_le_pow_right (by decide) hw).trans (by decide))
        obtain ⟨hp, -⟩ | ⟨p, x, hne, -, hp⟩ := plant_cases root hid cur'
        · rw [hp]
          exact hI
        · rw [hp]
          have hstep := step x p root hne hI
          by_cases hok : (setPath x p root).1
          · simp only [hok, if_true]
            exact ih hstep _
          · simp only [hok]
            exact hstep

/-- With the bytes of all records there, no ident is missing. -/
theorem plantRecords_ne_cut {w : Nat} (hw : w ≤ 4) (bound count : Nat) (root : Node)
    {cur : Bytes} (hcur : count * (HASHSIZE + w) ≤ cur.length) :
    (plantRecords w bound count root cur).1 ≠ .cut := by
  induction count generalizing root cur with
  | zero => simp [plantRecords]
  | succ count ih =>
    rw [Nat.succ_mul] at hcur
    rw [plantRecords]
    split
    · rename_i hread
      unfold readLE at hread
      split at hread
      · rename_i hshort
        omega
      · cases hread
    · rename_i ident cur' hread
      split
      · simp
      · obtain ⟨hlt, hlen⟩ := readLE_lt hread
        have hid : ident < 2 ^ 32 :=
          hlt.trans_le ((Nat.pow_le_pow_right (by decide) hw).trans (by decide))
        obtain ⟨hp, -⟩ | ⟨p, x, -, hsize, hp⟩ := plant_cases root hid cur'
        · rw [hp]
          simp
        · rw [hp]
          by_cases hok : (setPath x p root).1
          · simp only [hok, if_true]
            exact ih _ (by rw [List.length_drop]; omega)
          · simp [hok]

/-- Plant a list of hashes at their paths, up to the first refusal. -/
def setAll : List (List Bool × Hash20) → Node → Planted × Node
  | [], t => (.done, t)
  | (p, x) :: recs, t =>
    if (t.setPath x p).1 then setAll recs (t.setPath x p).2 else (.refused, (t.setPath x p).2)

/-- One record on the wire, with a `w`-byte ident. -/
def encodeRecord (w : Nat) (r : List Bool × Hash20) : Bytes := toLE w (ofPath r.1) ++ r.2.bytes

theorem length_encodeRecords (w : Nat) (recs : List (List Bool × Hash20)) :
    (recs.flatMap (encodeRecord w)).length = recs.length * (HASHSIZE + w) := by
  induction recs with
  | nil => simp
  | cons r recs ih =>
    have hx : r.2.bytes.length = HASHSIZE := r.2.len
    rw [List.flatMap_cons, List.length_append, ih, encodeRecord, List.length_append, length_toLE, hx,
      List.length_cons, Nat.succ_mul]
    omega

/-- Records whose idents fit the section: below the root, and within width and bound. -/
def Encodable (w bound : Nat) (recs : List (List Bool × Hash20)) : Prop :=
  ∀ r ∈ recs, r.1 ≠ [] ∧ r.1.length ≤ 31 ∧ ofPath r.1 ≤ bound ∧ ofPath r.1 < 256 ^ w

/-- The record loop on encoded records plants them one by one. -/
theorem plantRecords_encode {w bound : Nat} {recs : List (List Bool × Hash20)}
    (hrecs : Encodable w bound recs) (root : Node) (rest : Bytes) :
    plantRecords w bound recs.length root (recs.flatMap (encodeRecord w) ++ rest) =
      setAll recs root := by
  induction recs generalizing root with
  | nil => rfl
  | cons r recs ih =>
    obtain ⟨p, x⟩ := r
    obtain ⟨⟨hne, hlen, hbound, hw⟩, htail⟩ := List.forall_mem_cons.mp hrecs
    rw [List.length_cons, plantRecords, List.flatMap_cons, encodeRecord, List.append_assoc,
      List.append_assoc, readLE_toLE hw]
    simp only
    rw [if_neg (Nat.not_lt_of_le hbound), plant_ofPath root hne hlen rfl, setAll]
    by_cases hok : (root.setPath x p).1
    · simp only [hok, if_true]
      exact ih htail _
    · simp [hok]

theorem setAll_append (recs recs' : List (List Bool × Hash20)) {t t' : Node}
    (h : setAll recs t = (.done, t')) : setAll (recs ++ recs') t = setAll recs' t' := by
  induction recs generalizing t with
  | nil =>
    cases h
    rfl
  | cons r recs ih =>
    rw [List.cons_append, setAll]
    rw [setAll] at h
    split at h
    · rename_i hok
      rw [if_pos hok]
      exact ih h
    · cases h

/-- What single records keep, planting a list keeps. -/
theorem setAll_induct {I : Node → Prop} {recs : List (List Bool × Hash20)}
    (step : ∀ r ∈ recs, ∀ t, I t → I (setPath r.2 r.1 t).2) {t : Node} (hI : I t) :
    I (setAll recs t).2 := by
  induction recs generalizing t with
  | nil => exact hI
  | cons r recs ih =>
    obtain ⟨hr, htail⟩ := List.forall_mem_cons.mp step
    rw [setAll]
    split
    · exact ih htail (hr t hI)
    · exact hr t hI

end Node

/-! ## Payloads -/

open Node

/-- The payload of a list of records, in the 16-bit or the 32-bit section. -/
def payloadOf (ident32 : Bool) (recs : List (List Bool × Hash20)) : Bytes :=
  if ident32 then toLE 2 0 ++ toLE 2 recs.length ++ recs.flatMap (encodeRecord 4)
  else toLE 2 recs.length ++ recs.flatMap (encodeRecord 2) ++ toLE 2 0

/-- The ident bound of a section. -/
def identBound (ident32 : Bool) : Nat := if ident32 then 0x400000 else 0xFFFF

/-- The width of a section's idents. -/
def identWidth (ident32 : Bool) : Nat := if ident32 then 4 else 2

/-- The records the receiver expects for a part at path `p`. -/
def recordCount (p : List Bool) (partSize : Nat) : Nat := p.length + ceilDiv partSize EMBLOCKSIZE

section

variable {pair : Hash20 → Hash20 → Hash20} {n partStart : Nat} {p : List Bool} {s : Bool}
  {root : Node}

/-- A receiving tree of an `n`-byte file: nothing out of place, and the root is known. -/
structure Receiver (n : Nat) (master : Hash20) (root : Node) : Prop where
  shaped : Shaped n true root
  hash : root.hash = some master

theorem Receiver.present {master : Hash20} (h : Receiver n master root) :
    root.isAbsent = false := by
  cases root with
  | absent => cases h.hash
  | node => rfl

theorem Receiver.fileSize {master : Hash20} (h : Receiver n master root) :
    (AichTree.mk root).fileSize = n := h.shaped.dataSize h.present

theorem Receiver.partSize {master : Hash20} (h : Receiver n master root) :
    (AichTree.mk root).partSize partStart = min PARTSIZE (n - partStart) := by
  rw [AichTree.partSize, h.fileSize]

/-- The reader's first check lets a part of the file pass. -/
theorem Receiver.unguarded {master : Hash20} (h : Receiver n master root)
    (hpart : PARTSIZE ∣ partStart) (hlt : partStart < n) :
    ¬ ((AichTree.mk root).root.hash.isNone ∨ (AichTree.mk root).fileSize ≤ partStart ∨
      ¬ PARTSIZE ∣ partStart) := by
  rw [h.fileSize]
  simp [h.hash, hpart, hlt]

/-- All a payload can do: nothing but growing the path of the part, or planting as many
    records as expected and absorbing them. -/
theorem readRecoveryData_cases {master : Hash20} (hroot : Receiver n master root)
    (hpart : PARTSIZE ∣ partStart) (hlt : partStart < n)
    (hc : Covers n true p partStart (min PARTSIZE (n - partStart)) s) (payload : Bytes) :
    (AichTree.mk root).readRecoveryData pair partStart payload =
        (false, ⟨root.grow (p.take MAX_LEVEL)⟩) ∨
      p.length < MAX_LEVEL ∧ ∃ w bound cur, w ≤ 4 ∧
        recordCount p (min PARTSIZE (n - partStart)) * (HASHSIZE + w) ≤ cur.length ∧
        (AichTree.mk root).readRecoveryData pair partStart payload =
          AichTree.absorb pair partStart ((root.grow p).plantRecords w bound
            (recordCount p (min PARTSIZE (n - partStart))) cur) := by
  unfold AichTree.readRecoveryData
  rw [if_neg (hroot.unguarded hpart hlt)]
  simp only [hroot.partSize]
  rw [findMut_eq hc (by omega) hroot.shaped hroot.present]
  by_cases hlen : p.length < MAX_LEVEL
  · have htake : p.take MAX_LEVEL = p := List.take_of_length_le hlen.le
    simp only [if_pos hlen, htake, Nat.add_sub_cancel]
    split
    · exact .inl rfl
    · rename_i avail cur hread
      split
      · exact .inl rfl
      · rename_i hlen16
        rw [not_or, not_and_or, not_not, not_not] at hlen16
        split
        · rename_i havail
          refine .inr ⟨hlen, 2, 0xFFFF, cur, by decide, Nat.le_of_not_lt hlen16.1, ?_⟩
          rw [hlen16.2.resolve_right havail]
          rfl
        · split
          · exact .inl rfl
          · rename_i avail' cur' hread'
            split
            · exact .inl rfl
            · rename_i hlen32
              rw [not_or] at hlen32
              split
              · exact .inl rfl
              · exact .inr ⟨hlen, 4, 0x400000, cur', by decide, Nat.le_of_not_lt hlen32.1, rfl⟩
  · left
    simp only [if_neg hlen]

/-- A payload with the expected records is read as exactly these. -/
theorem readRecoveryData_payload {master : Hash20} (hroot : Receiver n master root)
    (hpart : PARTSIZE ∣ partStart) (hlt : partStart < n)
    (hc : Covers n true p partStart (min PARTSIZE (n - partStart)) s)
    (hlevel : p.length < MAX_LEVEL) (ident32 : Bool) {recs : List (List Bool × Hash20)}
    (hcount : recs.length = recordCount p (min PARTSIZE (n - partStart)))
    (hpos : recs ≠ []) (hmax : recs.length < 2 ^ 16)
    (hrecs : Encodable (identWidth ident32) (identBound ident32) recs) :
    (AichTree.mk root).readRecoveryData pair partStart (payloadOf ident32 recs) =
      AichTree.absorb pair partStart (setAll recs (root.grow p)) := by
  have hne : recs.length ≠ 0 := fun h => hpos (List.length_eq_zero_iff.mp h)
  have htake : p.take MAX_LEVEL = p := List.take_of_length_le hlevel.le
  have hcnt : p.length + ceilDiv (min PARTSIZE (n - partStart)) EMBLOCKSIZE = recs.length :=
    hcount.symm
  unfold AichTree.readRecoveryData
  rw [if_neg (hroot.unguarded hpart hlt)]
  simp only [hroot.partSize]
  rw [findMut_eq hc (by omega) hroot.shaped hroot.present, if_pos hlevel, htake]
  simp only [Nat.add_sub_cancel, hcnt]
  cases ident32 with
  | true =>
    simp only [payloadOf, if_true, List.append_assoc]
    rw [readLE_toLE (by decide)]
    simp only
    rw [if_neg, if_neg (by simp), readLE_toLE (by simpa using hmax)]
    · simp only
      rw [if_neg, if_neg hne]
      · have h := plantRecords_encode hrecs (root.grow p) []
        rw [List.append_nil] at h
        exact congrArg _ h
      · simp only [length_encodeRecords]
        simp
    · simp only [List.length_append, length_toLE, length_encodeRecords, HASHSIZE]
      omega
  | false =>
    simp only [payloadOf, Bool.false_eq_true, if_false, List.append_assoc]
    rw [readLE_toLE (by simpa using hmax)]
    simp only
    rw [if_neg, if_pos hne]
    · exact congrArg _ (plantRecords_encode hrecs (root.grow p) (toLE 2 0))
    · simp only [List.length_append, length_toLE, length_encodeRecords]
      omega

end

end PadMule.Proto.Aich
