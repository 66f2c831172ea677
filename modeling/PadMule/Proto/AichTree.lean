import PadMule.Proto.Io

/-
  `mule-proto/src/aich.rs`: the SHA-1 hash tree of a file and its recovery payloads.

  SHA-1 is opaque: the tree code takes the pair hash as the parameter `pair`. Sizes and
  offsets are `Nat`: no u64 sum of the source overflows on a file that ends at least
  `PARTSIZE` below `2 ^ 64`. Idents and paths are u32, so their shifts are taken modulo
  `2 ^ 32`.
-/

namespace PadMule.Proto.Aich

open LittleEndian

/-- Recursion cap of the lookups. -/
def MAX_LEVEL : Nat := 22

def HASHSIZE : Nat := 20

/-- `base_for`: parts above the part level, blocks below. -/
def baseFor (size : Nat) : Nat := if size ≤ PARTSIZE then EMBLOCKSIZE else PARTSIZE

def ceilDiv (n d : Nat) : Nat := n / d + if n % d = 0 then 0 else 1

/-- `Node::split`, left half: the odd child goes left under a left branch. -/
def splitLeft (dataSize : Nat) (isLeft : Bool) (base : Nat) : Nat :=
  let blocks := ceilDiv dataSize base
  (if isLeft then blocks + 1 else blocks) / 2 * base

/-- A tree node; `absent` is the `None` of a child. -/
inductive Node where
  | absent
  | node (hash : Option Hash20) (dataSize : Nat) (isLeft : Bool) (base : Nat) (left right : Node)
deriving DecidableEq

namespace Node

/-- `Node::new` with `base_for(size)`, the base of every node the code creates. -/
def new (size : Nat) (isLeft : Bool) : Node :=
  .node none size isLeft (baseFor size) .absent .absent

def isAbsent : Node → Bool
  | .absent => true
  | .node .. => false

/-- The hash of a present node that has one. -/
def hash : Node → Option Hash20
  | .absent => none
  | .node h .. => h

def dataSize : Node → Nat
  | .absent => 0
  | .node _ n .. => n

/-- `ensure_left` and `ensure_right`: the child itself, or a new one of the given size. -/
def orNew (size : Nat) (isLeft : Bool) : Node → Node
  | .absent => new size isLeft
  | t => t

/-- `find_mut` with `budget` levels left: the levels visited if the node is found, and
    the tree with the children created on the way. -/
def findMut : Nat → Node → Nat → Nat → Option Nat × Node
  | 0, t, _, _ => (none, t)
  | _ + 1, .absent, _, _ => (none, .absent)
  | budget + 1, .node h n isLeft base l r, start, size =>
    if n < start + size then (none, .node h n isLeft base l r)
    else if start = 0 ∧ size = n then (some 1, .node h n isLeft base l r)
    else if n ≤ base then (none, .node h n isLeft base l r)
    else
      let nleft := splitLeft n isLeft base
      if start < nleft then
        if nleft < start + size then (none, .node h n isLeft base l r)
        else
          let (level, l') := findMut budget (l.orNew nleft true) start size
          (level.map (· + 1), .node h n isLeft base l' r)
      else
        let (level, r') := findMut budget (r.orNew (n - nleft) false) (start - nleft) size
        (level.map (· + 1), .node h n isLeft base l r')

/-- `find`: the lookup that creates nothing. -/
def find : Nat → Node → Nat → Nat → Option Node
  | 0, _, _, _ => none
  | _ + 1, .absent, _, _ => none
  | budget + 1, .node h n isLeft base l r, start, size =>
    if n < start + size then none
    else if start = 0 ∧ size = n then some (.node h n isLeft base l r)
    else if n ≤ base then none
    else
      let nleft := splitLeft n isLeft base
      if start < nleft then
        if nleft < start + size then none
        else find budget l start size
      else find budget r (start - nleft) size

section

variable (pair : Hash20 → Hash20 → Hash20)

/-- `recalculate`: fill interior hashes bottom-up. -/
def recalculate (dontReplace : Bool) : Node → Bool × Node
  | .absent => (true, .absent)
  | .node h n isLeft base l r =>
    if l.isAbsent || r.isAbsent then (true, .node h n isLeft base l r)
    else
      let (okL, l') := recalculate dontReplace l
      if !okL then (false, .node h n isLeft base l' r)
      else
        let (okR, r') := recalculate dontReplace r
        if !okR then (false, .node h n isLeft base l' r')
        else if dontReplace && h.isSome then (true, .node h n isLeft base l' r')
        else
          match l'.hash, r'.hash with
          | some lh, some rh => (true, .node (some (pair lh rh)) n isLeft base l' r')
          | _, _ => (h.isSome, .node h n isLeft base l' r')

/-- What `verify` does first to a child: recalculate it if it has no hash. -/
def filled (t : Node) : Node :=
  if t.hash.isNone then (recalculate pair true t).2 else t

def height : Node → Nat
  | .absent => 0
  | .node _ _ _ _ l r => max l.height r.height + 1

theorem height_recalculate (b : Bool) (t : Node) :
    (recalculate pair b t).2.height = t.height := by
  induction t with
  | absent => rfl
  | node h n isLeft base l r ihl ihr =>
    unfold recalculate
    dsimp only
    split
    · rfl
    · split
      · simp [height, ihl]
      · split
        · simp [height, ihl, ihr]
        · split
          · simp [height, ihl, ihr]
          · split <;> simp [height, ihl, ihr]

theorem height_filled (t : Node) : (filled pair t).height = t.height := by
  unfold filled
  split
  · exact height_recalculate pair true t
  · rfl

/-- `verify`: check each child pair against its parent, top-down from a node with a
    hash; a subtree that fails is deleted when `deleteBad`. -/
def verify (deleteBad : Bool) : Node → Bool × Node
  | .absent => (false, .absent)
  | .node none n isLeft base l r =>
    (false, if deleteBad then .node none n isLeft base .absent .absent
      else .node none n isLeft base l r)
  | .node (some h) n isLeft base l r =>
    let l₁ := filled pair l
    let r₁ := filled pair r
    let bad : Bool × Node :=
      (false, if deleteBad then .node (some h) n isLeft base .absent .absent
        else .node (some h) n isLeft base l₁ r₁)
    match l₁.hash, r₁.hash with
    | some lh, some rh =>
      if pair lh rh ≠ h then bad
      else
        let (okL, l') := verify deleteBad l₁
        if !okL then (false, .node (some h) n isLeft base l' r₁)
        else
          let (okR, r') := verify deleteBad r₁
          (okR, .node (some h) n isLeft base l' r')
    | none, none => (true, .node (some h) n isLeft base l₁ r₁)
    | _, _ => bad
termination_by t => t.height
decreasing_by
  all_goals
    simp only [height_filled, height]
    omega

end

/-- `set_hash`: descend `level` edges along the top bits of `path` below its marker. -/
def setHash (hash : Hash20) (allowOverwrite : Bool) : Nat → Nat → Node → Bool × Node
  | _, _, .absent => (false, .absent)
  | 0, _, .node h n isLeft base l r =>
    if h.isSome && !allowOverwrite then (true, .node h n isLeft base l r)
    else (true, .node (some hash) n isLeft base l r)
  | level + 1, path, .node h n isLeft base l r =>
    if n ≤ base then (false, .node h n isLeft base l r)
    else
      let nleft := splitLeft n isLeft base
      let path := path * 2 % 2 ^ 32
      if 2 ^ 31 ≤ path then
        let (ok, l') := setHash hash allowOverwrite level path (l.orNew nleft true)
        (ok, .node h n isLeft base l' r)
      else
        let (ok, r') := setHash hash allowOverwrite level path (r.orNew (n - nleft) false)
        (ok, .node h n isLeft base l r')

end Node

/-- `write_ident`: 16-bit idents are refused, not truncated. -/
def writeIdent (ident : Nat) (ident32 : Bool) : Option Bytes :=
  if ident32 then some (toLE 4 ident)
  else if 0xFFFF < ident then none
  else some (toLE 2 ident)

/-- `(ident << 1) | is_left`. -/
def childIdent (ident : Nat) (isLeft : Bool) : Nat := ident * 2 % 2 ^ 32 + isLeft.toNat

namespace Node

/-- `write_hash`: the record of this node. -/
def writeHash (ident : Nat) (ident32 : Bool) : Node → Option Bytes
  | .absent => none
  | .node none .. => none
  | .node (some h) _ isLeft _ _ _ => do
    let bs ← writeIdent (childIdent ident isLeft) ident32
    return bs ++ h.bytes

/-- `write_lowest_level`: the leaves below this node, left to right. -/
def writeLowestLevel (noIdent ident32 : Bool) : Nat → Node → Option Bytes
  | _, .absent => none
  | ident, .node h n isLeft base l r =>
    let ident := childIdent ident isLeft
    if l.isAbsent && r.isAbsent then
      match h with
      | none => none
      | some h =>
        if base < n then none
        else if noIdent then some h.bytes
        else do
          let bs ← writeIdent ident ident32
          return bs ++ h.bytes
    else if !l.isAbsent && !r.isAbsent then do
      let ls ← writeLowestLevel noIdent ident32 ident l
      let rs ← writeLowestLevel noIdent ident32 ident r
      return ls ++ rs
    else none

/-- `create_part_recovery`: the sibling record at each level above the part, then the
    block records of the part. -/
def createPartRecovery (ident32 : Bool) : Nat → Nat → Nat → Node → Option Bytes
  | _, _, _, .absent => none
  | start, size, ident, .node h n isLeft base l r =>
    if n < start + size then none
    else if start = 0 ∧ size = n then
      writeLowestLevel false ident32 ident (.node h n isLeft base l r)
    else if n ≤ base then none
    else
      let ident := childIdent ident isLeft
      let nleft := splitLeft n isLeft base
      if l.isAbsent || r.isAbsent then none
      else if start < nleft then
        if nleft < start + size || r.hash.isNone then none
        else do
          let sib ← writeHash ident ident32 r
          let rest ← createPartRecovery ident32 start size ident l
          return sib ++ rest
      else if l.hash.isNone then none
      else do
        let sib ← writeHash ident ident32 l
        let rest ← createPartRecovery ident32 (start - nleft) size ident r
        return sib ++ rest

end Node

/-- `decode_ident`: the marker bit shifted up to bit 31, and the edges to descend. -/
def decodeIdent (ident : Nat) : Option (Nat × Nat) :=
  if ident = 0 then none
  else
    let lead := 31 - ident.log2
    some (ident * 2 ^ lead % 2 ^ 32, 31 - lead)

theorem le_baseFor (size : Nat) : EMBLOCKSIZE ≤ baseFor size := by
  unfold baseFor EMBLOCKSIZE PARTSIZE
  split <;> omega

/-- An inner node splits into two smaller, non-empty halves. -/
theorem splitLeft_bounds {n base : Nat} (isLeft : Bool) (hb : 0 < base) (hn : base < n) :
    0 < splitLeft n isLeft base ∧ splitLeft n isLeft base < n := by
  have hcount : 2 ≤ ceilDiv n base ∧ (ceilDiv n base - 1) * base < n := by
    have hdm := Nat.div_add_mod n base
    have hpos : 1 ≤ n / base := (Nat.one_le_div_iff hb).mpr hn.le
    unfold ceilDiv
    split
    case isTrue h0 =>
      have h1 : n / base ≠ 1 := by
        intro h1
        rw [h1, h0] at hdm
        omega
      refine ⟨by omega, ?_⟩
      rw [Nat.add_zero, Nat.sub_mul, Nat.mul_comm (n / base)]
      omega
    case isFalse h0 =>
      refine ⟨by omega, ?_⟩
      rw [Nat.add_sub_cancel, Nat.mul_comm]
      omega
  obtain ⟨htwo, hlt⟩ := hcount
  have hhalf : 0 < (if isLeft then ceilDiv n base + 1 else ceilDiv n base) / 2 ∧
      (if isLeft then ceilDiv n base + 1 else ceilDiv n base) / 2 ≤ ceilDiv n base - 1 := by
    split <;> omega
  exact ⟨Nat.mul_pos hhalf.1 hb, (Nat.mul_le_mul_right base hhalf.2).trans_lt hlt⟩

theorem baseFor_pos (size : Nat) : 0 < baseFor size :=
  Nat.lt_of_lt_of_le (by decide) (le_baseFor size)

namespace Node

/-- `load_lowest_level` on the fresh node `Node::new(size, is_left, base_for(size))`,
    the only kind it is run on: plant a left-to-right list of leaves. -/
def loadLowestLevel (size : Nat) (isLeft : Bool) (leaves : List Hash20) :
    Option (Node × List Hash20) :=
  if _h : size ≤ baseFor size then
    match leaves with
    | hash :: rest => some (.node (some hash) size isLeft (baseFor size) .absent .absent, rest)
    | [] => none
  else
    let nleft := splitLeft size isLeft (baseFor size)
    do
      let (l, leaves) ← loadLowestLevel nleft true leaves
      let (r, leaves) ← loadLowestLevel (size - nleft) false leaves
      return (.node none size isLeft (baseFor size) l r, leaves)
termination_by size
decreasing_by
  all_goals
    have hsplit := splitLeft_bounds isLeft (baseFor_pos size) (by omega : baseFor size < size)
    omega

end Node

/-! ## `AichTree` -/

/-- The hash tree of one file; the root's `dataSize` is the file size. -/
structure AichTree where
  root : Node
deriving DecidableEq

namespace AichTree

def newForSize (fileSize : Nat) : Option AichTree :=
  if fileSize = 0 then none else some ⟨Node.new fileSize true⟩

/-- An empty tree whose root is already trusted. -/
def withMaster (fileSize : Nat) (master : Hash20) : Option AichTree :=
  if fileSize = 0 then none
  else some ⟨.node (some master) fileSize true (baseFor fileSize) .absent .absent⟩

def fileSize (self : AichTree) : Nat := self.root.dataSize

def masterHash (self : AichTree) : Option Hash20 := self.root.hash

def leafCount (fileSize : Nat) : Nat :=
  let full := ceilDiv PARTSIZE EMBLOCKSIZE * (fileSize / PARTSIZE)
  let tail := fileSize % PARTSIZE
  full + if tail ≠ 0 then ceilDiv tail EMBLOCKSIZE else 0

/-- Rebuild the full tree from its left-to-right leaves. -/
def fromLeaves (pair : Hash20 → Hash20 → Hash20) (fileSize : Nat) (leaves : List Hash20) :
    Option AichTree :=
  if leaves.length ≠ leafCount fileSize then none
  else if fileSize = 0 then none
  else
    match Node.loadLowestLevel fileSize true leaves with
    | none => none
    | some (root, rest) =>
      if !rest.isEmpty then none
      else
        let (ok, root) := root.recalculate pair false
        if !ok || root.hash.isNone then none else some ⟨root⟩

/-- `chunks_exact(20)`, each chunk copied to a hash; `k` chunks at most. -/
def chunksExact : Nat → Bytes → List Hash20
  | 0, _ => []
  | k + 1, bs =>
    if h : HASHSIZE ≤ bs.length then
      ⟨bs.take HASHSIZE, by rw [List.length_take]; exact Nat.min_eq_left h⟩ ::
        chunksExact k (bs.drop HASHSIZE)
    else []

/-- All leaf hashes, left to right; `none` unless complete. -/
def leaves (self : AichTree) : Option (List Hash20) := do
  let out ← self.root.writeLowestLevel true true 0
  return chunksExact (out.length / HASHSIZE) out

/-- The bytes of a part: a full part, or the tail of the file. -/
def partSize (self : AichTree) (partStart : Nat) : Nat := min PARTSIZE (self.fileSize - partStart)

/-- The OP_AICHANSWER payload of a part, and the tree after its `find_mut`. -/
def createPartRecoveryData (partStart : Nat) (self : AichTree) : Option Bytes × AichTree :=
  let fileSize := self.fileSize
  if fileSize ≤ EMBLOCKSIZE ∨ fileSize ≤ partStart ∨ ¬ PARTSIZE ∣ partStart then (none, self)
  else
    let partSize := self.partSize partStart
    match self.root.findMut MAX_LEVEL partStart partSize with
    | (none, root) => (none, ⟨root⟩)
    | (some level, root) =>
      let hashCount := level - 1 + ceilDiv partSize EMBLOCKSIZE
      let ident32 := decide (OLD_MAX_FILE_SIZE < fileSize)
      if 0xFFFF < hashCount then (none, ⟨root⟩)
      else
        match root.createPartRecovery ident32 partStart partSize 0 with
        | none => (none, ⟨root⟩)
        | some body =>
          let rec_ := HASHSIZE + if ident32 then 4 else 2
          if body.length ≠ hashCount * rec_ then (none, ⟨root⟩)
          else if ident32 then (some (toLE 2 0 ++ toLE 2 hashCount ++ body), ⟨root⟩)
          else (some (toLE 2 hashCount ++ body ++ toLE 2 0), ⟨root⟩)

end AichTree

/-- `read_u16` and `read_u32`: a `w`-byte integer and the rest of the cursor. -/
def readLE (w : Nat) (cur : Bytes) : Option (Nat × Bytes) :=
  if cur.length < w then none else some (ofLE (cur.take w), cur.drop w)

/-- `plant`: one record; the rest of the cursor if the hash was accepted. -/
def Node.plant (root : Node) (ident : Nat) (cur : Bytes) : Option Bytes × Node :=
  if ident = 1 then (none, root)
  else
    match decodeIdent ident with
    | none => (none, root)
    | some (path, level) =>
      if h : cur.length < HASHSIZE then (none, root)
      else
        let hash : Hash20 := ⟨cur.take HASHSIZE, by
          rw [List.length_take]; exact Nat.min_eq_left (Nat.le_of_not_lt h)⟩
        let (ok, root) := root.setHash hash false level path
        (if ok then some (cur.drop HASHSIZE) else none, root)

/-- How a record loop ends. -/
inductive Planted where
  /-- every record was planted -/
  | done
  /-- an ident could not be read: `return false` at once -/
  | cut
  /-- a record was refused: `verify(true)`, then `return false` -/
  | refused
deriving DecidableEq

/-- The record loop of one section: `count` records with `w`-byte idents up to `bound`. -/
def Node.plantRecords (w bound : Nat) : Nat → Node → Bytes → Planted × Node
  | 0, root, _ => (.done, root)
  | count + 1, root, cur =>
    match readLE w cur with
    | none => (.cut, root)
    | some (ident, cur) =>
      if bound < ident then (.refused, root)
      else
        match root.plant ident cur with
        | (none, root) => (.refused, root)
        | (some cur, root) => Node.plantRecords w bound count root cur

/-- The offsets `0, EMBLOCKSIZE, ..` below `size`, from `pos` on. -/
def blockStarts (size pos : Nat) : List Nat :=
  if pos < size then pos :: blockStarts size (pos + EMBLOCKSIZE) else []
termination_by size - pos
decreasing_by
  simp only [EMBLOCKSIZE]
  omega

namespace AichTree

/-- The lookup of the block of the part at `partStart` that begins at offset `pos`. -/
def findBlock (self : AichTree) (partStart pos : Nat) : Option Node :=
  self.root.find MAX_LEVEL (partStart + pos) (min EMBLOCKSIZE (self.partSize partStart - pos))

/-- The completeness sweep: every block of the part is there with a hash. -/
def sweep (partStart : Nat) (self : AichTree) : Bool :=
  (blockStarts (self.partSize partStart) 0).all fun pos =>
    ((self.findBlock partStart pos).bind Node.hash).isSome

/-- The end of `read_recovery_data`: verify, then the sweep over the part's blocks. -/
def verifyPart (pair : Hash20 → Hash20 → Hash20) (partStart : Nat) (root : Node) :
    Bool × AichTree :=
  let (ok, root) := root.verify pair true
  if !ok then (false, ⟨root⟩) else (sweep partStart ⟨root⟩, ⟨root⟩)

/-- The record loop of a section and what follows it. -/
def absorb (pair : Hash20 → Hash20 → Hash20) (partStart : Nat) (result : Planted × Node) :
    Bool × AichTree :=
  match result with
  | (.cut, root) => (false, ⟨root⟩)
  | (.refused, root) => (false, ⟨(root.verify pair true).2⟩)
  | (.done, root) => verifyPart pair partStart root

/-- `read_recovery_data`: verify and absorb a payload for the part at `partStart`. -/
def readRecoveryData (pair : Hash20 → Hash20 → Hash20) (partStart : Nat) (payload : Bytes)
    (self : AichTree) : Bool × AichTree :=
  if self.root.hash.isNone ∨ self.fileSize ≤ partStart ∨ ¬ PARTSIZE ∣ partStart then (false, self)
  else
    let partSize := self.partSize partStart
    match self.root.findMut MAX_LEVEL partStart partSize with
    | (none, root) => (false, ⟨root⟩)
    | (some level, root) =>
      let toRead := level - 1 + ceilDiv partSize EMBLOCKSIZE
      match readLE 2 payload with
      | none => (false, ⟨root⟩)
      | some (avail, cur) =>
        if cur.length < toRead * (HASHSIZE + 2) ∨ avail ≠ toRead ∧ avail ≠ 0 then (false, ⟨root⟩)
        else if avail ≠ 0 then absorb pair partStart (root.plantRecords 2 0xFFFF avail cur)
        else
          -- the 32-bit section; with no hashes in it either, nothing was planted
          match readLE 2 cur with
          | none => (false, ⟨root⟩)
          | some (avail, cur) =>
            if cur.length < toRead * (HASHSIZE + 4) ∨ avail ≠ toRead ∧ avail ≠ 0 then
              (false, ⟨root⟩)
            else if avail = 0 then (false, ⟨root⟩)
            else absorb pair partStart (root.plantRecords 4 0x400000 toRead cur)

/-- `part_block_hashes`: `(start, len, hash)` of every block of the part. -/
def partBlockHashes (partStart : Nat) (self : AichTree) : Option (List (Nat × Nat × Hash20)) :=
  if self.fileSize ≤ partStart ∨ ¬ PARTSIZE ∣ partStart then none
  else
    (blockStarts (self.partSize partStart) 0).mapM fun pos => do
      let node ← self.findBlock partStart pos
      let hash ← node.hash
      return (partStart + pos, min EMBLOCKSIZE (self.partSize partStart - pos), hash)

end AichTree

end PadMule.Proto.Aich
