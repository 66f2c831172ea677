import PadMule.Engine.ReceiverRuns

/-
  `BlockReceiver` fed by an honest uploader: each requested block is answered in request
  order, as raw pieces or as the fragments of one zlib stream, while further blocks are
  requested at any time.

  The batch completes (`honest_batch_completes`) where no request repeats a start still
  open or differs from an earlier block with its start, no raw piece is credited to an
  earlier block that contains it, and the last fragment of a stream still brings data. A
  fragment with the checksum alone is refused, since its block's state is gone
  (`honest_batch_stalls`).
-/

namespace PadMule.Engine

open PadMule.Proto FileMap Inflate Readers BlockReceiver

variable {Z : Inflater}

/-! ## Honest answers -/

/-- One packet of an answer, and the bytes of the block it brings. -/
structure Part where
  content : Content
  bytes : Bytes

/-- Raw pieces from `pos` on, in order. -/
def rawParts (pos : Nat) : List Bytes → List Part
  | [] => []
  | piece :: pieces =>
    ⟨.raw pos (pos + piece.length) piece, piece⟩ :: rawParts (pos + piece.length) pieces

/-- Fragments for the block at `start`, with what each one decompresses to. -/
def packedParts (start : Nat) (frags outs : List Bytes) : List Part :=
  (frags.zip outs).map fun p => ⟨.packed start p.1, p.2⟩

def bytesOf (parts : List Part) : Bytes := parts.flatMap Part.bytes

/-- The answer of an honest uploader to a request for `data` at `start`: raw pieces of any
    sizes, or a zlib stream of the data in any fragments. -/
inductive Honest (Z : Inflater) (start : Nat) (data : Bytes) : List Part → Prop where
  | raw (pieces : List Bytes) (hne : ∀ p ∈ pieces, p ≠ []) (hflat : pieces.flatten = data) :
      Honest Z start data (rawParts start pieces)
  | packed (stream : Bytes) (hdecodes : Z.Decodes stream data) (frags outs : List Bytes)
      (hne : ∀ f ∈ frags, f ≠ []) (hflat : frags.flatten = stream) (houts : outs.flatten = data)
      (hfollows : Z.Follows Z.new data.length frags outs) :
      Honest Z start data (packedParts start frags outs)

/-- A requested block, its bytes, and the answer it gets. -/
structure Reply (Z : Inflater) where
  block : Block
  data : Bytes
  parts : List Part
  len : data.length = block.2 - block.1
  honest : Honest Z block.1 data parts

/-- The last packet still brings bytes: none carries the stream's trailer alone. -/
def NoTail (parts : List Part) : Prop := ∀ p ∈ parts.getLast?, p.bytes ≠ []

/-! ## The exchange -/

/-- A session and what the uploader has yet to send, block after block. -/
structure Exchange (Z : Inflater) where
  session : Session Z
  queue : List (Block × List Part)

def Reply.job (r : Reply Z) : Block × List Part := (r.block, r.parts)

/-- The queue behind the first packet of the block in front. -/
def afterSend (b : Block) (parts : List Part) (queue : List (Block × List Part)) :
    List (Block × List Part) :=
  if parts = [] then queue else (b, parts) :: queue

/-- The requests meet the conditions: blocks of the file whose starts are not open, each the
    first requested block with its start, and no trailer on its own. -/
structure Requestable (rx : BlockReceiver Z) (rs : List (Reply Z)) : Prop where
  inFile : ∀ r ∈ rs, InFile rx.fileSize r.block
  closed : ∀ r ∈ rs, get rx.left r.block.1 = none
  starts : (rs.map fun r => r.block.1).Nodup
  first : ∀ r ∈ rs, (rx.addBlocks (rs.map Reply.block)).blockAt r.block.1 = some r.block
  noTail : ∀ r ∈ rs, NoTail r.parts

/-- The requested block that contains a raw piece first is the one it answers. -/
def Owned (rx : BlockReceiver Z) (b : Block) : Content → Prop
  | .raw start stop _ => rx.containingBlock start stop = some b
  | _ => True

/-- Exchanges in which every step meets the conditions, with everything requested so far. -/
inductive Served (hash : Hash16) (fileSize : Nat) : List (Reply Z) → Exchange Z → Prop where
  | start {rs : List (Reply Z)}
      (hok : Requestable (⟨hash, fileSize, [], [], [], []⟩ : BlockReceiver Z) rs)
      {s : Session Z} (h : Session.start Z hash fileSize (rs.map Reply.block) = some s) :
      Served hash fileSize rs ⟨s, rs.map Reply.job⟩
  | send {rs : List (Reply Z)} {x : Exchange Z} (h : Served hash fileSize rs x) {b : Block}
      {part : Part} {parts : List Part} {queue : List (Block × List Part)}
      (hqueue : x.queue = (b, part :: parts) :: queue) {opcode : UInt8} {payload : Bytes}
      (hcontent : content hash opcode payload = part.content)
      (howned : Owned x.session.rx b part.content) {s : Session Z}
      (hstep : x.session.step (.packet opcode payload) = some s) :
      Served hash fileSize rs ⟨s, afterSend b parts queue⟩
  | request {rs : List (Reply Z)} {x : Exchange Z} (h : Served hash fileSize rs x)
      (more : List (Reply Z)) (hok : Requestable x.session.rx more) {s : Session Z}
      (hstep : x.session.step (.addBlocks (more.map Reply.block)) = some s) :
      Served hash fileSize (rs ++ more) ⟨s, x.queue ++ more.map Reply.job⟩
  | take {rs : List (Reply Z)} {x : Exchange Z} (h : Served hash fileSize rs x) {s : Session Z}
      (hstep : x.session.step .takeCompleted = some s) : Served hash fileSize rs ⟨s, x.queue⟩

/-- The writes lay the data down from `pos`, each where the one before it ends. -/
def Lays (pos : Nat) : List BlockWrite → Bytes → Prop
  | [], data => data = []
  | w :: ws, data => w.offset = pos ∧ w.data ≠ [] ∧
      ∃ rest, data = w.data ++ rest ∧ Lays (pos + w.data.length) ws rest

/-! ## Blocks still to be served -/

theorem bytesOf_rawParts (pos : Nat) (pieces : List Bytes) :
    bytesOf (rawParts pos pieces) = pieces.flatten := by
  induction pieces generalizing pos with
  | nil => rfl
  | cons piece pieces ih =>
    show piece ++ bytesOf (rawParts (pos + piece.length) pieces) = _
    rw [ih, List.flatten_cons]

theorem follows_length {st : Z.State} {room : Nat} {frags outs : List Bytes}
    (h : Z.Follows st room frags outs) : frags.length = outs.length := by
  induction frags generalizing st room outs with
  | nil =>
    cases outs with
    | nil => rfl
    | cons => exact h.elim
  | cons frag frags ih =>
    cases outs with
    | nil => exact h.elim
    | cons out outs =>
      rw [List.length_cons, List.length_cons, ih (Inflater.follows_cons.mp h).2.2.2.2]

theorem bytesOf_packedParts {start : Nat} {frags outs : List Bytes}
    (h : frags.length = outs.length) : bytesOf (packedParts start frags outs) = outs.flatten := by
  have hmap : bytesOf (packedParts start frags outs) =
      ((frags.zip outs).map Prod.snd).flatten := by
    rw [bytesOf, packedParts, List.flatMap_map, List.flatten_eq_flatMap, List.flatMap_map]
    rfl
  rw [hmap, List.map_snd_zip h.symm.le]

/-- What is left of a block's answer, and the entry it will be decompressed into. -/
inductive Pending (rx : BlockReceiver Z) (b : Block) : List Part → Prop where
  | raw (pos : Nat) (pieces : List Bytes) (hne : ∀ p ∈ pieces, p ≠ []) (hle : b.1 ≤ pos)
      (hpos : pos + pieces.flatten.length = b.2) : Pending rx b (rawParts pos pieces)
  | packed (frags outs : List Bytes) (hne : ∀ f ∈ frags, f ≠ []) (pb : PackedBlock Z)
      (hentry : rx.packedEntry b.1 (b.2 - b.1) = some pb) (htotal : pb.total = b.2 - b.1)
      (hwritten : pb.out.length = pb.written)
      (hroom : pb.written + outs.flatten.length = pb.total)
      (hfollows : Z.Follows pb.decomp (pb.total - pb.out.length) frags outs) :
      Pending rx b (packedParts b.1 frags outs)

/-- The receiver waits for the rest of a block. -/
structure Awaits (rx : BlockReceiver Z) (b : Block) (parts : List Part) : Prop where
  inFile : InFile rx.fileSize b
  first : rx.blockAt b.1 = some b
  left : get rx.left b.1 = some (bytesOf parts).length
  more : 0 < (bytesOf parts).length
  noTail : NoTail parts
  pending : Pending rx b parts

/-- The receiver waits for the blocks in the queue, each with a start of its own, and for
    nothing else. -/
structure Serves (rx : BlockReceiver Z) (queue : List (Block × List Part)) : Prop where
  awaits : ∀ q ∈ queue, Awaits rx q.1 q.2
  starts : (queue.map fun q => q.1.1).Nodup
  keys : ∀ k n, get rx.left k = some n → k ∈ queue.map fun q => q.1.1
  streams : ∀ k pb, get rx.packed k = some pb → k ∈ queue.map fun q => q.1.1

theorem packedEntry_congr {rx rx' : BlockReceiver Z} {start : Nat}
    (h : get rx'.packed start = get rx.packed start) (total : Nat) :
    rx'.packedEntry start total = rx.packedEntry start total := by
  unfold packedEntry
  rw [h]

theorem Pending.congr {rx rx' : BlockReceiver Z} {b : Block} {parts : List Part}
    (h : Pending rx b parts) (hpacked : get rx'.packed b.1 = get rx.packed b.1) :
    Pending rx' b parts := by
  cases h with
  | raw pos pieces hne hle hpos => exact .raw pos pieces hne hle hpos
  | packed frags outs hne pb hentry htotal hwritten hroom hfollows =>
    exact .packed frags outs hne pb ((packedEntry_congr hpacked _).trans hentry) htotal hwritten
      hroom hfollows

/-- A block whose counter and stream are untouched is awaited as before. -/
theorem Awaits.congr {rx rx' : BlockReceiver Z} {b : Block} {parts : List Part}
    (h : Awaits rx b parts) (hsize : rx'.fileSize = rx.fileSize)
    (hfirst : rx'.blockAt b.1 = rx.blockAt b.1) (hleft : get rx'.left b.1 = get rx.left b.1)
    (hpacked : get rx'.packed b.1 = get rx.packed b.1) : Awaits rx' b parts :=
  ⟨hsize ▸ h.inFile, hfirst.trans h.first, hleft.trans h.left, h.more, h.noTail,
    h.pending.congr hpacked⟩

theorem bytesOf_cons (part : Part) (parts : List Part) :
    bytesOf (part :: parts) = part.bytes ++ bytesOf parts := List.flatMap_cons ..

theorem NoTail.tail {part : Part} {parts : List Part} (h : NoTail (part :: parts)) :
    NoTail parts := by
  intro p hp
  refine h p ?_
  cases parts with
  | nil => cases hp
  | cons q parts => rwa [List.getLast?_cons_cons]

theorem NoTail.positive {parts : List Part} (h : NoTail parts) (hne : parts ≠ []) :
    0 < (bytesOf parts).length := by
  induction parts with
  | nil => exact absurd rfl hne
  | cons part parts ih =>
    rw [bytesOf_cons, List.length_append]
    by_cases hnil : parts = []
    · have hp := h part (by rw [hnil]; rfl)
      exact Nat.add_pos_left (List.length_pos_iff.mpr hp) _
    · exact Nat.add_pos_right _ (ih h.tail hnil)

/-- Crediting the bytes just handed over to the block in front. -/
theorem Serves.credit {rx rx₁ : BlockReceiver Z} {b : Block} {part : Part} {parts : List Part}
    {queue : List (Block × List Part)} (h : Serves rx ((b, part :: parts) :: queue))
    (hblocks : rx₁.blocks = rx.blocks) (hsize : rx₁.fileSize = rx.fileSize)
    (hleft : rx₁.left = rx.left)
    (hpacked : ∀ k, k ≠ b.1 → get rx₁.packed k = get rx.packed k)
    (hcompleted : rx₁.completed = rx.completed)
    (hpending : parts ≠ [] → Pending rx₁ b parts) :
    Serves (rx₁.credit b.1 part.bytes.length) (afterSend b parts queue) ∧
      (rx₁.credit b.1 part.bytes.length).completed =
        rx.completed ++ if parts = [] then [b] else [] := by
  have hfront := h.awaits _ (List.mem_cons_self ..)
  have hrest : ∀ q ∈ queue, Awaits rx q.1 q.2 := fun q hq =>
    h.awaits q (List.mem_cons_of_mem _ hq)
  have hstarts := h.starts
  rw [List.map_cons, List.nodup_cons] at hstarts
  have hlen : (bytesOf (part :: parts)).length =
      part.bytes.length + (bytesOf parts).length := by rw [bytesOf_cons, List.length_append]
  have hrem : get rx₁.left b.1 = some (part.bytes.length + (bytesOf parts).length) := by
    rw [hleft, ← hlen]
    exact hfront.left
  have hsub : part.bytes.length + (bytesOf parts).length - part.bytes.length =
      (bytesOf parts).length := Nat.add_sub_cancel_left ..
  have hzero : (bytesOf parts).length = 0 ↔ parts = [] := by
    constructor
    · intro hz
      by_contra hne
      exact absurd (hfront.noTail.tail.positive hne) (by omega)
    · rintro rfl
      rfl
  have hother : ∀ q ∈ queue, q.1.1 ≠ b.1 := fun q hq heq =>
    hstarts.1 (heq ▸ List.mem_map_of_mem (f := fun q : Block × List Part => q.1.1) hq)
  have hkept : ∀ q ∈ queue, Awaits (rx₁.credit b.1 part.bytes.length) q.1 q.2 := by
    intro q hq
    have hne := hother q hq
    refine (hrest q hq).congr ?_ ?_ ?_ ?_
    · rw [fileSize_credit, hsize]
    · exact (blockAt_congr (blocks_credit _ _ _) _).trans (blockAt_congr hblocks _)
    · rw [left_credit hrem, if_neg hne, hleft]
    · rw [packed_credit hrem, if_neg (fun hk => hne hk.1), hpacked _ hne]
  refine ⟨?_, ?_⟩
  · unfold afterSend
    split_ifs with hnil
    · have hz := hzero.mpr hnil
      refine ⟨hkept, hstarts.2, fun k n hk => ?_, fun k pb hk => ?_⟩
      · rw [left_credit hrem] at hk
        split_ifs at hk with hkb hpos
        · omega
        · rw [hleft] at hk
          exact (List.mem_cons.mp (h.keys k n hk)).resolve_left hkb
      · rw [packed_credit hrem] at hk
        split_ifs at hk with hkb
        have hne : k ≠ b.1 := fun heq => hkb ⟨heq, by omega⟩
        rw [hpacked _ hne] at hk
        exact (List.mem_cons.mp (h.streams k pb hk)).resolve_left hne
    · have hpos : (bytesOf parts).length ≠ 0 := fun hz => hnil (hzero.mp hz)
      refine ⟨fun q hq => ?_, h.starts, fun k n hk => ?_, fun k pb hk => ?_⟩
      · rcases List.mem_cons.mp hq with rfl | hq
        · refine ⟨?_, ?_, ?_, Nat.pos_of_ne_zero hpos, hfront.noTail.tail, ?_⟩
          · rw [fileSize_credit, hsize]
            exact hfront.inFile
          · exact (blockAt_congr (blocks_credit _ _ _) _).trans
              ((blockAt_congr hblocks _).trans hfront.first)
          · rw [left_credit hrem, if_pos rfl, hsub, if_neg hpos]
          · refine (hpending hnil).congr ?_
            rw [packed_credit hrem, hsub, if_neg fun hk => hpos hk.2]
        · exact hkept q hq
      · rw [left_credit hrem] at hk
        by_cases hkb : k = b.1
        · rw [hkb]
          exact List.mem_cons_self ..
        · rw [if_neg hkb, hleft] at hk
          exact h.keys k n hk
      · by_cases hkb : k = b.1
        · rw [hkb]
          exact List.mem_cons_self ..
        · rw [packed_credit hrem, if_neg (fun hk' => hkb hk'.1), hpacked _ hkb] at hk
          exact h.streams k pb hk
  · rw [completed_credit hrem, hcompleted, hsub]
    congr 1
    by_cases hnil : parts = []
    · rw [if_pos (hzero.mpr hnil), if_pos hnil, blockAt_congr hblocks, hfront.first]
      rfl
    · rw [if_neg (fun hz => hnil (hzero.mp hz)), if_neg hnil]

/-- The write a packet of an answer leads to, `left` bytes before the end of its block. -/
def writeOf (b : Block) (parts : List Part) (part : Part) : List BlockWrite :=
  if part.bytes = [] then [] else [⟨b.2 - (bytesOf parts).length, part.bytes⟩]

/-- What an honest packet does: it is accepted, its bytes are handed over, and the receiver
    waits for the rest. -/
structure Takes (rx : BlockReceiver Z) (b : Block) (part : Part) (parts : List Part)
    (queue : List (Block × List Part)) (rx' : BlockReceiver Z) : Prop where
  accepted : rx.place part.content = some (.ok (writeOf b (part :: parts) part), rx')
  serves : Serves rx' (afterSend b parts queue)
  completed : rx'.completed = rx.completed ++ if parts = [] then [b] else []

theorem Serves.send_raw {rx : BlockReceiver Z} {b : Block} {pos : Nat} {piece : Bytes}
    {pieces : List Bytes} {queue : List (Block × List Part)}
    (h : Serves rx ((b, rawParts pos (piece :: pieces)) :: queue))
    (hne : ∀ p ∈ piece :: pieces, p ≠ []) (hle : b.1 ≤ pos)
    (hpos : pos + (piece :: pieces).flatten.length = b.2)
    (howned : rx.containingBlock pos (pos + piece.length) = some b) :
    ∃ rx', Takes rx b ⟨.raw pos (pos + piece.length) piece, piece⟩
      (rawParts (pos + piece.length) pieces) queue rx' := by
  have hfront := h.awaits _ (List.mem_cons_self ..)
  obtain ⟨hpiece, hpieces⟩ := List.forall_mem_cons.mp hne
  have hlen : 0 < piece.length := List.length_pos_iff.mpr hpiece
  rw [List.flatten_cons, List.length_append] at hpos
  have heof : pos + piece.length ≤ rx.fileSize := by
    have hinside : b.2 ≤ rx.fileSize := hfront.inFile.inside
    omega
  have hoffset : writeOf b (rawParts pos (piece :: pieces))
      ⟨.raw pos (pos + piece.length) piece, piece⟩ = [⟨pos, piece⟩] := by
    rw [writeOf, if_neg hpiece, bytesOf_rawParts, List.flatten_cons, List.length_append]
    have : b.2 - (piece.length + pieces.flatten.length) = pos := by omega
    rw [this]
  obtain ⟨hserves, hcompleted⟩ := @Serves.credit _ _ _ _
    ⟨.raw pos (pos + piece.length) piece, piece⟩ (rawParts (pos + piece.length) pieces) _ h
    rfl rfl rfl (fun _ _ => rfl) rfl
    fun _ => .raw (pos + piece.length) pieces hpieces (by omega) (by omega)
  refine ⟨rx.credit b.1 piece.length, ?_, hserves, hcompleted⟩
  show rx.place (.raw pos (pos + piece.length) piece) =
    some (.ok (writeOf b (rawParts pos (piece :: pieces)) _), _)
  rw [hoffset, place, placeRaw, if_neg (by omega), howned]

theorem Serves.send_packed {rx : BlockReceiver Z} {b : Block} {frag out : Bytes}
    {frags outs : List Bytes} {queue : List (Block × List Part)}
    (h : Serves rx ((b, packedParts b.1 (frag :: frags) (out :: outs)) :: queue))
    (hne : ∀ f ∈ frag :: frags, f ≠ []) {pb : PackedBlock Z}
    (hentry : rx.packedEntry b.1 (b.2 - b.1) = some pb) (htotal : pb.total = b.2 - b.1)
    (hwritten : pb.out.length = pb.written)
    (hroom : pb.written + (out :: outs).flatten.length = pb.total)
    (hfollows : Z.Follows pb.decomp (pb.total - pb.out.length) (frag :: frags) (out :: outs)) :
    ∃ rx', Takes rx b ⟨.packed b.1 frag, out⟩ (packedParts b.1 frags outs) queue rx' := by
  have hfront := h.awaits _ (List.mem_cons_self ..)
  have hfirst : rx.blockAt b.1 = some b := hfront.first
  have hin := hfront.inFile
  obtain ⟨hfrag, hfrags⟩ := List.forall_mem_cons.mp hne
  obtain ⟨hconsumed, hout, hok, hend, hnext⟩ : (inflate pb frag).consumed = frag.length ∧
      (inflate pb frag).output = out ∧ (inflate pb frag).status ≠ .error ∧
      ((inflate pb frag).status = .streamEnd → frags = []) ∧
      Z.Follows (inflate pb frag).state (pb.total - pb.out.length - out.length) frags outs :=
    Inflater.follows_cons.mp hfollows
  rw [List.flatten_cons, List.length_append] at hroom
  have hlengths := follows_length hnext
  have hgrown : (grown pb frag).out.length = pb.out.length + out.length := by
    show (pb.out ++ (inflate pb frag).output).length = _
    rw [List.length_append, hout]
  -- the guards of `accept_packed` pass
  have hplace : rx.place (.packed b.1 frag) = some (rx.inflateInto b.1 pb frag) := by
    rw [place, placePacked, if_neg hfrag, hfirst]
    show (if b.2 < b.1 then none else (rx.packedEntry b.1 (b.2 - b.1)).map _) = _
    rw [if_neg (Nat.not_lt.mpr hin.nonempty.le), hentry]
    rfl
  have hended : ¬ ((inflate pb frag).status = .streamEnd ∧
      pb.written + (inflate pb frag).output.length ≠ pb.total) := by
    rintro ⟨hs, hneq⟩
    have hnil : outs = [] := List.length_eq_zero_iff.mp (by rw [← hlengths, hend hs]; rfl)
    rw [hnil, List.flatten_nil, List.length_nil] at hroom
    rw [hout] at hneq
    omega
  have hinto : rx.inflateInto b.1 pb frag =
      if out.length = 0 then (.ok [], rx.store b.1 (grown pb frag))
      else (.ok [⟨b.1 + pb.written, out⟩],
        (rx.store b.1 (advanced pb frag)).credit b.1 out.length) := by
    rw [inflateInto, if_neg hok, if_neg (fun hc => absurd hconsumed hc.2.ne), if_neg hended,
      hout]
  have hparts : bytesOf (packedParts b.1 frags outs) = outs.flatten := bytesOf_packedParts hlengths
  have hleft : (bytesOf (packedParts b.1 (frag :: frags) (out :: outs))).length =
      out.length + outs.flatten.length := by
    rw [bytesOf_packedParts (by rw [List.length_cons, List.length_cons, hlengths]),
      List.flatten_cons, List.length_append]
  have hstored : ∀ (pb' : PackedBlock Z) (k : Nat), k ≠ b.1 →
      get (rx.store b.1 pb').packed k = get rx.packed k := fun pb' k hk => by
    rw [packed_store, if_neg hk]
  have hentry' : ∀ pb' : PackedBlock Z,
      (rx.store b.1 pb').packedEntry b.1 (b.2 - b.1) = some pb' := by
    intro pb'
    unfold packedEntry
    rw [packed_store, if_pos rfl]
  have hfollows' : Z.Follows (grown pb frag).decomp
      ((grown pb frag).total - (grown pb frag).out.length) frags outs := by
    have hspace : (grown pb frag).total - (grown pb frag).out.length =
        pb.total - pb.out.length - out.length := by
      rw [hgrown]
      show pb.total - _ = _
      omega
    rw [hspace]
    exact hnext
  by_cases hzero : out = []
  · -- nothing came out, so by `NoTail` the block has more to come
    have hmore : packedParts b.1 frags outs ≠ [] := by
      intro hnil
      have htail := hfront.noTail ⟨.packed b.1 frag, out⟩ (by
        show _ ∈ (⟨.packed b.1 frag, out⟩ :: packedParts b.1 frags outs).getLast?
        rw [hnil]
        rfl)
      exact htail hzero
    subst hzero
    refine ⟨rx.store b.1 (grown pb frag), ?_, ?_, ?_⟩
    · rw [hplace, hinto, if_pos List.length_nil, writeOf, if_pos rfl]
    · unfold afterSend
      rw [if_neg hmore]
      refine ⟨fun q hq => ?_, h.starts, h.keys, fun k pb' hk => ?_⟩
      · rcases List.mem_cons.mp hq with rfl | hq
        · refine ⟨hin, hfirst, ?_, ?_, hfront.noTail.tail, ?_⟩
          · rw [hparts]
            have hl := hfront.left
            rw [hleft, List.length_nil, Nat.zero_add] at hl
            exact hl
          · rw [hparts]
            have hm := hfront.more
            rw [hleft, List.length_nil, Nat.zero_add] at hm
            exact hm
          · exact .packed frags outs hfrags (grown pb frag) (hentry' _) htotal
              (by rw [hgrown]; exact hwritten)
              (by rw [List.length_nil, Nat.zero_add] at hroom; exact hroom) hfollows'
        · have hstarts := h.starts
          rw [List.map_cons, List.nodup_cons] at hstarts
          have hne' : q.1.1 ≠ b.1 := fun heq => hstarts.1 (heq ▸
            List.mem_map_of_mem (f := fun q : Block × List Part => q.1.1) hq)
          exact (h.awaits q (List.mem_cons_of_mem _ hq)).congr rfl rfl rfl (hstored _ _ hne')
      · by_cases hkb : k = b.1
        · rw [hkb]
          exact List.mem_cons_self ..
        · rw [hstored _ _ hkb] at hk
          exact h.streams k pb' hk
    · rw [if_neg hmore, List.append_nil]
      rfl
  · have hpos : out.length ≠ 0 := fun hl => hzero (List.length_eq_zero_iff.mp hl)
    obtain ⟨hserves, hcompleted⟩ := @Serves.credit _ _ (rx.store b.1 (advanced pb frag)) _
      ⟨.packed b.1 frag, out⟩ _ _ h rfl rfl rfl (hstored _) rfl fun _ =>
        .packed frags outs hfrags (advanced pb frag) (hentry' _) htotal
          (by
            show (grown pb frag).out.length = pb.written + (inflate pb frag).output.length
            rw [hgrown, hwritten, hout])
          (by
            show pb.written + (inflate pb frag).output.length + _ = pb.total
            rw [hout]
            omega)
          hfollows'
    refine ⟨_, ?_, hserves, hcompleted⟩
    have hoffset : b.2 - (out.length + outs.flatten.length) = b.1 + pb.written := by
      have hlt : b.1 < b.2 := hin.nonempty
      omega
    rw [hplace, hinto, if_neg hpos, writeOf, if_neg hzero]
    show _ = some ((Except.ok
      [⟨b.2 - (bytesOf (packedParts b.1 (frag :: frags) (out :: outs))).length, out⟩] : Outcome), _)
    rw [hleft, hoffset]

/-- Every honest packet is accepted. -/
theorem Serves.send {rx : BlockReceiver Z} {b : Block} {part : Part} {parts : List Part}
    {queue : List (Block × List Part)} (h : Serves rx ((b, part :: parts) :: queue))
    (howned : Owned rx b part.content) : ∃ rx', Takes rx b part parts queue rx' := by
  have hpending : Pending rx b (part :: parts) := (h.awaits _ (List.mem_cons_self ..)).pending
  generalize hall : part :: parts = all at h hpending
  cases hpending with
  | raw pos pieces hne hle hpos =>
    cases pieces with
    | nil => cases hall
    | cons piece pieces =>
      cases hall
      exact h.send_raw hne hle hpos howned
  | packed frags outs hne pb hentry htotal hwritten hroom hfollows =>
    match frags, outs, hfollows with
    | [], [], _ => cases hall
    | frag :: frags, out :: outs, hfollows =>
      cases hall
      exact h.send_packed hne hentry htotal hwritten hroom hfollows

/-! ## Requests -/

theorem Honest.bytes {start : Nat} {data : Bytes} {parts : List Part}
    (h : Honest Z start data parts) : bytesOf parts = data := by
  cases h with
  | raw pieces hne hflat => rw [bytesOf_rawParts, hflat]
  | packed stream hdecodes frags outs hne hflat houts hfollows =>
    rw [bytesOf_packedParts (follows_length hfollows), houts]

/-- A block just requested, with no inflate state of its own yet. -/
theorem Honest.pending {rx : BlockReceiver Z} {b : Block} {data : Bytes} {parts : List Part}
    (h : Honest Z b.1 data parts) (hlen : data.length = b.2 - b.1)
    (hin : InFile rx.fileSize b) (hnew : get rx.packed b.1 = none) : Pending rx b parts := by
  have hlt := hin.nonempty
  cases h with
  | raw pieces hne hflat => exact .raw b.1 pieces hne le_rfl (by rw [hflat, hlen]; omega)
  | packed stream hdecodes frags outs hne hflat houts hfollows =>
    refine .packed frags outs hne ⟨Z.new, [], 0, b.2 - b.1⟩ ?_ rfl rfl ?_ ?_
    · unfold packedEntry
      rw [hnew]
      exact if_pos hin.fits
    · rw [houts, hlen]
      exact Nat.zero_add _
    · rw [hlen] at hfollows
      exact hfollows

theorem Serves.request {rx : BlockReceiver Z} {queue : List (Block × List Part)}
    (h : Serves rx queue) {rs : List (Reply Z)} (hok : Requestable rx rs) :
    Serves (rx.addBlocks (rs.map Reply.block)) (queue ++ rs.map Reply.job) := by
  obtain ⟨-, hsize, hpacked, -⟩ := addBlocks_static rx (rs.map Reply.block)
  have hstarts : ((rs.map Reply.block).map Prod.fst).Nodup := by
    rw [List.map_map]
    exact hok.starts
  have hlefts := @get_left_addBlocks _ rx (rs.map Reply.block)
    (by
      intro b hb
      obtain ⟨r, hr, rfl⟩ := List.mem_map.mp hb
      exact (hok.inFile r hr).nonempty) hstarts
    (by
      intro b hb
      obtain ⟨r, hr, rfl⟩ := List.mem_map.mp hb
      exact hok.closed r hr)
  have hmem : ∀ {k : Nat}, k ∈ (rs.map Reply.block).map Prod.fst → ∃ r ∈ rs, r.block.1 = k := by
    intro k hk
    obtain ⟨b, hb, rfl⟩ := List.mem_map.mp hk
    obtain ⟨r, hr, rfl⟩ := List.mem_map.mp hb
    exact ⟨r, hr, rfl⟩
  -- a block in the queue is open, so no request repeats its start
  have hapart : ∀ q ∈ queue, ∀ r ∈ rs, q.1.1 ≠ r.block.1 := by
    intro q hq r hr heq
    have hopen := (h.awaits q hq).left
    rw [heq, hok.closed r hr] at hopen
    cases hopen
  refine ⟨fun q hq => ?_, ?_, fun k n hk => ?_, fun k pb hk => ?_⟩
  · rcases List.mem_append.mp hq with hq | hq
    · have hold := h.awaits q hq
      refine hold.congr hsize ?_ ?_ ?_
      · rw [blockAt_addBlocks hold.first, hold.first]
      · refine (hlefts q.1.1).2 fun hk => ?_
        obtain ⟨r, hr, heq⟩ := hmem hk
        exact hapart q hq r hr heq.symm
      · rw [hpacked]
    · obtain ⟨r, hr, rfl⟩ := List.mem_map.mp hq
      have hin : InFile (rx.addBlocks (rs.map Reply.block)).fileSize r.block := by
        rw [hsize]
        exact hok.inFile r hr
      have hlt := hin.nonempty
      have hlen : (bytesOf r.parts).length = r.block.2 - r.block.1 := by
        rw [r.honest.bytes, r.len]
      refine ⟨hin, hok.first r hr, ?_, ?_, hok.noTail r hr, ?_⟩
      · show get _ r.block.1 = some (bytesOf r.parts).length
        rw [hlen]
        exact (hlefts r.block.1).1 r.block (List.mem_map_of_mem hr) rfl
      · show 0 < (bytesOf r.parts).length
        omega
      · refine r.honest.pending r.len hin ?_
        rw [hpacked]
        by_contra hsome
        obtain ⟨pb, hpb⟩ := Option.ne_none_iff_exists'.mp hsome
        obtain ⟨q, hq, heq⟩ := List.mem_map.mp (h.streams _ _ hpb)
        exact hapart q hq r hr heq
  · rw [List.map_append, List.nodup_append]
    refine ⟨h.starts, ?_, fun k hk k' hk' heq => ?_⟩
    · rw [List.map_map]
      exact hok.starts
    · obtain ⟨q, hq, rfl⟩ := List.mem_map.mp hk
      obtain ⟨q', hq', rfl⟩ := List.mem_map.mp hk'
      obtain ⟨r, hr, rfl⟩ := List.mem_map.mp hq'
      exact hapart q hq r hr heq
  · rw [List.map_append, List.mem_append]
    by_cases hnew : k ∈ (rs.map Reply.block).map Prod.fst
    · obtain ⟨r, hr, rfl⟩ := hmem hnew
      exact .inr (List.mem_map.mpr ⟨r.job, List.mem_map_of_mem hr, rfl⟩)
    · rw [(hlefts k).2 hnew] at hk
      exact .inl (h.keys k n hk)
  · rw [hpacked] at hk
    rw [List.map_append, List.mem_append]
    exact .inl (h.streams k pb hk)

/-! ## The whole exchange -/

theorem Lays.append {pos : Nat} {ws : List BlockWrite} {data : Bytes} (h : Lays pos ws data)
    {w : BlockWrite} (hoffset : w.offset = pos + data.length) (hne : w.data ≠ []) :
    Lays pos (ws ++ [w]) (data ++ w.data) := by
  induction ws generalizing pos data with
  | nil =>
    cases h
    exact ⟨hoffset, hne, [], by simp, rfl⟩
  | cons v ws ih =>
    obtain ⟨hv, hvne, rest, rfl, hrest⟩ := h
    refine ⟨hv, hvne, rest ++ w.data, List.append_assoc .., ih hrest ?_⟩
    rw [hoffset, List.length_append]
    omega

/-- The answer in progress: `laid` has been written, `parts` is still to come. -/
inductive Current : List (Reply Z) → List BlockWrite → List (Block × List Part) → Prop where
  | idle : Current [] [] []
  | busy (r : Reply Z) (tail : List (Reply Z)) (laid : List BlockWrite) (parts : List Part)
      (d : Bytes) (hdata : r.data = d ++ bytesOf parts) (hlays : Lays r.block.1 laid d) :
      Current (r :: tail) laid ((r.block, parts) :: tail.map Reply.job)

theorem current_new (pending : List (Reply Z)) : Current pending [] (pending.map Reply.job) := by
  cases pending with
  | nil => exact .idle
  | cons r tail => exact .busy r tail [] r.parts [] r.honest.bytes.symm rfl

theorem Current.append {pending : List (Reply Z)} {laid : List BlockWrite}
    {queue : List (Block × List Part)} (h : Current pending laid queue) (more : List (Reply Z)) :
    Current (pending ++ more) laid (queue ++ more.map Reply.job) := by
  cases h with
  | idle => exact current_new more
  | busy r tail laid parts d hdata hd =>
    rw [List.cons_append, List.cons_append, ← List.map_append]
    exact .busy r (tail ++ more) laid parts d hdata hd

/-- Where an exchange stands: the blocks answered in full, in order, with the writes that lay
    down their bytes, then the one in progress. -/
structure Progress (hash : Hash16) (fileSize : Nat) (rs : List (Reply Z)) (x : Exchange Z) :
    Prop where
  hash : x.session.rx.hash = hash
  fileSize : x.session.rx.fileSize = fileSize
  serves : Serves x.session.rx x.queue
  split : ∃ done pending laid wss, rs = done ++ pending ∧ Current pending laid x.queue ∧
    x.session.writes = wss.flatten ++ laid ∧
    List.Forall₂ (fun (r : Reply Z) ws => Lays r.block.1 ws r.data) done wss ∧
    x.session.reported ++ x.session.rx.completed = done.map Reply.block

theorem Progress.start {hash : Hash16} {fileSize : Nat} {rs : List (Reply Z)}
    (hok : Requestable (⟨hash, fileSize, [], [], [], []⟩ : BlockReceiver Z) rs) {s : Session Z}
    (h : Session.start Z hash fileSize (rs.map Reply.block) = some s) :
    Progress hash fileSize rs ⟨s, rs.map Reply.job⟩ := by
  obtain ⟨hh, hs, -, -, hc, hlog, hr, -⟩ := start_eq h
  have hempty : Serves (⟨hash, fileSize, [], [], [], []⟩ : BlockReceiver Z) [] := by
    refine ⟨fun q hq => absurd hq List.not_mem_nil, List.nodup_nil, fun k n hk => ?_,
      fun k pb hk => ?_⟩
    · cases hk
    · cases hk
  rw [Session.start, new_eq_addBlocks
    (fun b hb => by
      obtain ⟨r, hr, rfl⟩ := List.mem_map.mp hb
      exact (hok.inFile r hr).nonempty)
    (by rw [List.map_map]; exact hok.starts)] at h
  cases h
  refine ⟨hh, hs, hempty.request hok, [], rs, [], [], rfl, current_new rs, ?_, .nil, ?_⟩
  · rw [Session.writes, hlog]
    rfl
  · rw [hr, hc]
    rfl

theorem Progress.send {hash : Hash16} {fileSize : Nat} {rs : List (Reply Z)} {x : Exchange Z}
    (h : Progress hash fileSize rs x) {b : Block} {part : Part} {parts : List Part}
    {queue : List (Block × List Part)} (hqueue : x.queue = (b, part :: parts) :: queue)
    {opcode : UInt8} {payload : Bytes} (hcontent : content hash opcode payload = part.content)
    (howned : Owned x.session.rx b part.content) {s : Session Z}
    (hstep : x.session.step (.packet opcode payload) = some s) :
    Progress hash fileSize rs ⟨s, afterSend b parts queue⟩ := by
  have hserves := h.serves
  rw [hqueue] at hserves
  obtain ⟨rx', htakes⟩ := hserves.send howned
  have hacc : x.session.rx.accept opcode payload =
      some (.ok (writeOf b (part :: parts) part), rx') := by
    rw [accept_eq, h.hash, hcontent]
    exact htakes.accepted
  have hs : s = { x.session with
      rx := rx'
      log := x.session.log ++ (Session.handed (.ok (writeOf b (part :: parts) part))).map
        fun w => (content x.session.rx.hash opcode payload, w) } := by
    rw [Session.step, hacc] at hstep
    exact (Option.some.inj hstep).symm
  have hwrites : s.writes = x.session.writes ++ writeOf b (part :: parts) part := by
    rw [hs]
    exact writes_packet ..
  obtain ⟨-, hh, hf⟩ := effect_static (place_effect htakes.accepted)
  have hrx : s.rx = rx' := by rw [hs]
  have hreported : s.reported = x.session.reported := by rw [hs]
  obtain ⟨done, pending, laid, wss, hrs, hcurrent, hlaid, hlays, hdone⟩ := h.split
  rw [hqueue] at hcurrent
  cases hcurrent with
  | busy r tail laid parts' d hdata hd =>
    have hnext : Lays r.block.1 (laid ++ writeOf r.block (part :: parts) part) (d ++ part.bytes) := by
      unfold writeOf
      split_ifs with hnil
      · rw [hnil, List.append_nil, List.append_nil]
        exact hd
      · refine hd.append ?_ hnil
        have hlen := r.len
        have hlt : r.block.1 < r.block.2 := (hserves.awaits _ (List.mem_cons_self ..)).inFile.nonempty
        rw [hdata, List.length_append] at hlen
        show r.block.2 - (bytesOf (part :: parts)).length = r.block.1 + d.length
        omega
    have hrest : r.data = (d ++ part.bytes) ++ bytesOf parts := by
      rw [hdata, bytesOf_cons, List.append_assoc]
    refine ⟨by rw [hrx, hh, h.hash], by rw [hrx, hf, h.fileSize], by rw [hrx]; exact htakes.serves,
      ?_⟩
    by_cases hnil : parts = []
    · refine ⟨done ++ [r], tail, [], wss ++ [laid ++ writeOf r.block (part :: parts) part], ?_, ?_,
        ?_, ?_, ?_⟩
      · rw [hrs, List.append_assoc]
        rfl
      · unfold afterSend
        rw [if_pos hnil]
        exact current_new tail
      · rw [hwrites, hlaid]
        simp
      · refine List.rel_append hlays (.cons ?_ .nil)
        rw [hrest, hnil]
        show Lays _ _ (d ++ part.bytes ++ [])
        rw [List.append_nil]
        rwa [hnil] at hnext
      · show s.reported ++ s.rx.completed = _
        rw [hrx, hreported, htakes.completed, if_pos hnil, ← List.append_assoc, hdone,
          List.map_append]
        rfl
    · refine ⟨done, r :: tail, laid ++ writeOf r.block (part :: parts) part, wss, hrs, ?_, ?_, hlays,
        ?_⟩
      · unfold afterSend
        rw [if_neg hnil]
        exact .busy r tail _ parts (d ++ part.bytes) hrest hnext
      · rw [hwrites, hlaid, List.append_assoc]
      · show s.reported ++ s.rx.completed = _
        rw [hrx, hreported, htakes.completed, if_neg hnil, List.append_nil, hdone]

theorem Served.progress {hash : Hash16} {fileSize : Nat} {rs : List (Reply Z)} {x : Exchange Z}
    (h : Served hash fileSize rs x) : Progress hash fileSize rs x := by
  induction h with
  | start hok hs => exact .start hok hs
  | send _ hqueue hcontent howned hstep ih => exact ih.send hqueue hcontent howned hstep
  | @request rs x _ more hok s hstep ih =>
    cases hstep
    obtain ⟨hh, hf, -, -⟩ := addBlocks_static x.session.rx (more.map Reply.block)
    refine ⟨hh.trans ih.hash, hf.trans ih.fileSize, ih.serves.request hok, ?_⟩
    obtain ⟨done, pending, laid, wss, hrs, hcurrent, hlaid, hlays, hdone⟩ := ih.split
    refine ⟨done, pending ++ more, laid, wss, by rw [hrs, List.append_assoc], ?_, hlaid, hlays, ?_⟩
    · exact hcurrent.append more
    · show x.session.reported ++ (x.session.rx.addBlocks _).completed = _
      rw [completed_addBlocks, hdone]
  | @take rs x _ s hstep ih =>
    cases hstep
    refine ⟨ih.hash, ih.fileSize, ⟨fun q hq => (ih.serves.awaits q hq).congr rfl rfl rfl rfl,
      ih.serves.starts, ih.serves.keys, ih.serves.streams⟩, ?_⟩
    obtain ⟨done, pending, laid, wss, hrs, hcurrent, hlaid, hlays, hdone⟩ := ih.split
    refine ⟨done, pending, laid, wss, hrs, hcurrent, hlaid, hlays, ?_⟩
    show x.session.reported ++ x.session.rx.completed ++ [] = _
    rw [List.append_nil, hdone]

/-- Every packet of an honest uploader is accepted, and once all are sent the receiver is done,
    every requested block is reported exactly once, in order, and the writes are the blocks'
    bytes one after another. -/
theorem honest_batch_completes {hash : Hash16} {fileSize : Nat} {rs : List (Reply Z)}
    {x : Exchange Z} (h : Served hash fileSize rs x) :
    (∀ b part parts queue opcode payload, x.queue = (b, part :: parts) :: queue →
      content hash opcode payload = part.content → Owned x.session.rx b part.content →
        ∃ ws rx, x.session.rx.accept opcode payload = some (.ok ws, rx)) ∧
    (x.queue = [] → x.session.rx.isDone = true ∧
      x.session.reported ++ x.session.rx.completed = rs.map Reply.block ∧
      ∃ wss, x.session.writes = wss.flatten ∧
        List.Forall₂ (fun (r : Reply Z) ws => Lays r.block.1 ws r.data) rs wss) := by
  have hp := h.progress
  refine ⟨fun b part parts queue opcode payload hqueue hcontent howned => ?_, fun hnil => ?_⟩
  · have hserves := hp.serves
    rw [hqueue] at hserves
    obtain ⟨rx', htakes⟩ := hserves.send howned
    refine ⟨writeOf b (part :: parts) part, rx', ?_⟩
    rw [accept_eq, hp.hash, hcontent]
    exact htakes.accepted
  · obtain ⟨done, pending, laid, wss, hrs, hcurrent, hlaid, hlays, hdone⟩ := hp.split
    have hempty : x.session.rx.left = [] := by
      refine eq_nil_of_get fun k => ?_
      by_contra hsome
      obtain ⟨n, hn⟩ := Option.ne_none_iff_exists'.mp hsome
      have hkey := hp.serves.keys k n hn
      rw [hnil] at hkey
      exact List.not_mem_nil hkey
    rw [hnil] at hcurrent
    cases hcurrent
    rw [List.append_nil] at hrs hlaid
    subst hrs
    exact ⟨by rw [isDone, hempty]; rfl, hdone, wss, hlaid, hlays⟩

/-- Two bytes as one raw piece. -/
def rawReply : Reply storedZlib where
  block := (0, 2)
  data := [8, 9]
  parts := rawParts 0 [[8, 9]]
  len := rfl
  honest := .raw [[8, 9]] (by simp) rfl

/-- A block of two bytes, answered by one raw piece. -/
theorem raw_block_completes :
    ∃ x : Exchange storedZlib, Served (.fill 16 0) 100 [rawReply] x ∧ x.queue = [] ∧
      x.session.rx.isDone = true ∧
      x.session.reported ++ x.session.rx.completed = [(0, 2)] := by
  obtain ⟨s₀, h₀⟩ : ∃ s₀, Session.start storedZlib (.fill 16 0) 100 [(0, 2)] = some s₀ := ⟨_, rfl⟩
  have hin : ∀ b ∈ [((0, 2) : Block)], InFile 100 b := by
    intro b hb
    rw [List.mem_singleton] at hb
    subst hb
    exact ⟨by decide, by decide, by decide⟩
  have hok : Requestable (⟨.fill 16 0, 100, [], [], [], []⟩ : BlockReceiver storedZlib)
      [rawReply] := by
    refine ⟨?_, ?_, List.nodup_singleton _, ?_, ?_⟩ <;> intro r hr <;>
      rw [List.mem_singleton] at hr <;> subst hr
    · exact hin (0, 2) (List.mem_singleton_self _)
    · rfl
    · rfl
    · intro p hp
      cases hp
      exact List.cons_ne_nil _ _
  obtain ⟨s, hs⟩ := (sound_start hin h₀).steps
    (.packet OP_SENDINGPART (rawPayload (.fill 16 0) false 0 2 [8, 9]))
  obtain ⟨-, -, hblocks, -⟩ := start_eq h₀
  have hserved : Served (.fill 16 0) 100 [rawReply] ⟨s, []⟩ :=
    .send (.start hok h₀) rfl (@content_rawPayload (.fill 16 0) false 0 2 [8, 9] (by decide))
      (by
        show s₀.rx.containingBlock 0 2 = some (0, 2)
        unfold containingBlock
        rw [hblocks]
        rfl) hs
  obtain ⟨-, hdone⟩ := honest_batch_completes hserved
  exact ⟨⟨s, []⟩, hserved, rfl, (hdone rfl).1, (hdone rfl).2.1⟩

/-- The stream of two zero bytes, its checksum in a fragment of its own. -/
def trailerReply : Reply storedZlib where
  block := (0, 2)
  data := [0, 0]
  parts := packedParts 0 [twoZeros.take 9, twoZeros.drop 9] [[0, 0], []]
  len := rfl
  honest := .packed twoZeros (StoredZlib.machine.decodes (by decide +kernel)) _ _ (by decide)
    rfl rfl (by
      refine Inflater.follows_cons.mpr ⟨rfl, rfl, ?_, ?_, Inflater.follows_cons.mpr
        ⟨rfl, rfl, ?_, ?_, trivial⟩⟩ <;> decide +kernel)

/-- Two overlapping blocks, answered in raw pieces. -/
def firstReply : Reply storedZlib where
  block := (0, 2)
  data := [1, 2]
  parts := rawParts 0 [[1, 2]]
  len := rfl
  honest := .raw [[1, 2]] (by simp) rfl

def secondReply : Reply storedZlib where
  block := (1, 3)
  data := [2, 3]
  parts := rawParts 1 [[2], [3]]
  len := rfl
  honest := .raw [[2], [3]] (by simp) rfl

/-- A packet with the next part of an answer. -/
def rawEvent (start stop : UInt64) (data : Bytes) : RxEvent :=
  .packet OP_SENDINGPART (rawPayload (.fill 16 0) false start stop data)

def packedEvent (frag : Bytes) : RxEvent :=
  .packet OP_COMPRESSEDPART (packedPayload (.fill 16 0) false 0 13 frag)

/-- Two honest answers the receiver does not complete: it refuses the fragment that carries
    only the checksum, and it credits a piece of the second of two overlapping blocks to the
    first, so the second stays open when everything has been sent. -/
theorem honest_batch_stalls :
    (∃ s₀ s, Session.start storedZlib (.fill 16 0) 100 [trailerReply.block] = some s₀ ∧
      trailerReply.parts.map Part.content =
        [.packed 0 (twoZeros.take 9), .packed 0 (twoZeros.drop 9)] ∧
      s₀.run [packedEvent (twoZeros.take 9)] = some s ∧
      ∃ rx, s.rx.accept OP_COMPRESSEDPART
        (packedPayload (.fill 16 0) false 0 13 (twoZeros.drop 9)) =
          some (.error .decompress, rx)) ∧
    (∃ s₀ s, Session.start storedZlib (.fill 16 0) 100
        [firstReply.block, secondReply.block] = some s₀ ∧
      (firstReply.parts ++ secondReply.parts).map Part.content =
        [.raw 0 2 [1, 2], .raw 1 2 [2], .raw 2 3 [3]] ∧
      s₀.run [rawEvent 0 2 [1, 2], rawEvent 1 2 [2], rawEvent 2 3 [3]] = some s ∧
      s.rx.isDone = false ∧ s.rx.completed = [firstReply.block]) := by
  constructor
  · obtain ⟨s₀, h₀⟩ : ∃ s₀, Session.start storedZlib (.fill 16 0) 100 [trailerReply.block] =
      some s₀ := ⟨_, rfl⟩
    have hrun : ((Session.start storedZlib (.fill 16 0) 100 [trailerReply.block]).bind fun s =>
        s.run [packedEvent (twoZeros.take 9)]).bind (fun s => (s.rx.accept OP_COMPRESSEDPART
          (packedPayload (.fill 16 0) false 0 13 (twoZeros.drop 9))).map fun r =>
            match r.1 with
            | .error e => some e
            | .ok _ => none) = some (some .decompress) := by decide +kernel
    rw [h₀, Option.bind_some] at hrun
    obtain ⟨s, hs, hacc⟩ := Option.bind_eq_some_iff.mp hrun
    obtain ⟨⟨out, rx⟩, hout, heq⟩ := Option.map_eq_some_iff.mp hacc
    refine ⟨s₀, s, h₀, rfl, hs, rx, ?_⟩
    rw [hout]
    cases out with
    | ok ws => cases heq
    | error e => cases heq; rfl
  · obtain ⟨s₀, h₀⟩ : ∃ s₀, Session.start storedZlib (.fill 16 0) 100
      [firstReply.block, secondReply.block] = some s₀ := ⟨_, rfl⟩
    have hrun : ((Session.start storedZlib (.fill 16 0) 100
        [firstReply.block, secondReply.block]).bind fun s =>
          s.run [rawEvent 0 2 [1, 2], rawEvent 1 2 [2], rawEvent 2 3 [3]]).map
            (fun s => (s.rx.isDone, s.rx.completed)) = some (false, [(0, 2)]) := by decide +kernel
    rw [h₀, Option.bind_some] at hrun
    obtain ⟨s, hs, heq⟩ := Option.map_eq_some_iff.mp hrun
    rw [Prod.mk.injEq] at heq
    exact ⟨s₀, s, h₀, rfl, hs, heq.1, heq.2⟩

end PadMule.Engine
