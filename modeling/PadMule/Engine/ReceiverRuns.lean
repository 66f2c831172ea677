import PadMule.Engine.BlockReceiver
import PadMule.Lib.Spans
import PadMule.Lib.StoredZlib

/-
  Runs of one `BlockReceiver`: packets, top-ups and `take_completed` in any order.

  A `Session` is the receiver with everything it has handed out. `Sound` is what any
  sequence of packets preserves, and `receiver_contained` what follows from it. The length
  of what a compressed block produces is bounded only while no compressed packet names a
  block that has closed: `reopened_stream_doubles` is the run where one does.
-/

namespace PadMule.Engine

open PadMule.Proto FileMap Inflate Readers

variable {Z : Inflater}

namespace BlockReceiver

/-! ## What crediting and storing change -/

@[simp] theorem blocks_credit (rx : BlockReceiver Z) (start n : Nat) :
    (rx.credit start n).blocks = rx.blocks := by
  unfold credit
  split
  · rfl
  · split_ifs <;> rfl

@[simp] theorem hash_credit (rx : BlockReceiver Z) (start n : Nat) :
    (rx.credit start n).hash = rx.hash := by
  unfold credit
  split
  · rfl
  · split_ifs <;> rfl

@[simp] theorem fileSize_credit (rx : BlockReceiver Z) (start n : Nat) :
    (rx.credit start n).fileSize = rx.fileSize := by
  unfold credit
  split
  · rfl
  · split_ifs <;> rfl

/-- Crediting a block that is not outstanding does nothing. -/
theorem credit_of_none {rx : BlockReceiver Z} {start : Nat} (h : get rx.left start = none)
    (n : Nat) : rx.credit start n = rx := by
  unfold credit
  rw [h]

theorem left_credit {rx : BlockReceiver Z} {start rem : Nat} (h : get rx.left start = some rem)
    (n k : Nat) : get (rx.credit start n).left k =
      if k = start then (if rem - n = 0 then none else some (rem - n)) else get rx.left k := by
  unfold credit
  rw [h]
  dsimp only
  split_ifs with hz hk hk
  · rw [get_remove, if_pos hk]
  · rw [get_remove, if_neg hk]
  · rw [get_write, if_pos hk]
  · rw [get_write, if_neg hk]

theorem packed_credit {rx : BlockReceiver Z} {start rem : Nat} (h : get rx.left start = some rem)
    (n k : Nat) : get (rx.credit start n).packed k =
      if k = start ∧ rem - n = 0 then none else get rx.packed k := by
  unfold credit
  rw [h]
  dsimp only
  by_cases hz : rem - n = 0
  · rw [if_pos hz, get_remove]
    simp [hz]
  · rw [if_neg hz, if_neg (fun hk => hz hk.2)]

theorem completed_credit {rx : BlockReceiver Z} {start rem : Nat}
    (h : get rx.left start = some rem) (n : Nat) :
    (rx.credit start n).completed =
      rx.completed ++ if rem - n = 0 then (rx.blockAt start).toList else [] := by
  unfold credit
  rw [h]
  dsimp only
  split_ifs
  · rfl
  · exact (List.append_nil _).symm

theorem packed_credit_cases {rx : BlockReceiver Z} {start n k : Nat} {pb : PackedBlock Z}
    (h : get (rx.credit start n).packed k = some pb) : get rx.packed k = some pb := by
  obtain hl | ⟨rem, hl⟩ := Option.eq_none_or_eq_some (get rx.left start)
  · rwa [credit_of_none hl] at h
  · rw [packed_credit hl] at h
    split_ifs at h
    exact h

theorem packed_store (rx : BlockReceiver Z) (start k : Nat) (pb : PackedBlock Z) :
    get (rx.store start pb).packed k = if k = start then some pb else get rx.packed k :=
  get_write ..

/-- A block added keeps every block found before it. -/
theorem blockAt_addBlock {rx : BlockReceiver Z} {start : Nat} {b : Block}
    (h : rx.blockAt start = some b) (c : Block) : (rx.addBlock c).blockAt start = some b := by
  unfold addBlock
  split_ifs
  · exact List.find?_append.trans (by rw [show rx.blocks.find? _ = some b from h]; rfl)
  · exact h

theorem blockAt_mem {rx : BlockReceiver Z} {start : Nat} {b : Block}
    (h : rx.blockAt start = some b) : b ∈ rx.blocks ∧ b.1 = start :=
  ⟨List.mem_of_find?_eq_some h, by simpa using List.find?_some h⟩

theorem containingBlock_mem {rx : BlockReceiver Z} {start stop : Nat} {b : Block}
    (h : rx.containingBlock start stop = some b) :
    b ∈ rx.blocks ∧ b.1 ≤ start ∧ stop ≤ b.2 :=
  ⟨List.mem_of_find?_eq_some h, by simpa using List.find?_some h⟩

end BlockReceiver

open BlockReceiver

/-! ## Sessions -/

/-- The receiver, every write it returned with the packet it came from, and every block it
    reported. -/
structure Session (Z : Inflater) where
  rx : BlockReceiver Z
  log : List (Content × BlockWrite)
  reported : List Block

inductive RxEvent where
  | packet (opcode : UInt8) (payload : Bytes)
  | addBlocks (blocks : List Block)
  | takeCompleted

namespace Session

def start (Z : Inflater) (hash : Hash16) (fileSize : Nat) (blocks : List Block) :
    Option (Session Z) :=
  (BlockReceiver.new Z hash fileSize blocks).map fun rx => ⟨rx, [], []⟩

def writes (s : Session Z) : List BlockWrite := s.log.map Prod.snd

/-- The writes an outcome hands over. -/
def handed : Outcome → List BlockWrite
  | .ok ws => ws
  | .error _ => []

/-- One event; `none` when the receiver panics. The session goes on after a refusal. -/
def step (s : Session Z) : RxEvent → Option (Session Z)
  | .packet opcode payload =>
    (s.rx.accept opcode payload).map fun r =>
      { s with
        rx := r.2
        log := s.log ++ (handed r.1).map fun w => (content s.rx.hash opcode payload, w) }
  | .addBlocks blocks => some { s with rx := s.rx.addBlocks blocks }
  | .takeCompleted =>
    some { s with rx := s.rx.takeCompleted.2, reported := s.reported ++ s.rx.takeCompleted.1 }

def run : Session Z → List RxEvent → Option (Session Z)
  | s, [] => some s
  | s, e :: es => (s.step e).bind fun s' => run s' es

/-- `ok` holds of every event, in the state it arrives in. -/
def Throughout (ok : Session Z → RxEvent → Prop) : Session Z → List RxEvent → Prop
  | _, [] => True
  | s, e :: es => ok s e ∧ ∀ s', s.step e = some s' → Throughout ok s' es

/-- What every step under `ok` preserves holds at the end of every run under `ok`. -/
theorem run_induct {ok : Session Z → RxEvent → Prop} {I : Session Z → Prop}
    (hstep : ∀ s e s', I s → ok s e → s.step e = some s' → I s')
    {s s' : Session Z} {es : List RxEvent} (hs : I s) (hok : Throughout ok s es)
    (hrun : s.run es = some s') : I s' := by
  induction es generalizing s with
  | nil => cases hrun; exact hs
  | cons e es ih =>
    obtain ⟨s₁, h₁, hrest⟩ := Option.bind_eq_some_iff.mp hrun
    exact ih (hstep s e s₁ hs hok.1 h₁) (hok.2 s₁ h₁) hrest

/-- What a packet step did. -/
theorem step_packet {s s' : Session Z} {opcode : UInt8} {payload : Bytes}
    (h : s.step (.packet opcode payload) = some s') :
    ∃ out rx, Effect s.rx (content s.rx.hash opcode payload) out rx ∧
      s' = { s with
        rx := rx
        log := s.log ++ (handed out).map fun w => (content s.rx.hash opcode payload, w) } := by
  obtain ⟨⟨out, rx⟩, hacc, rfl⟩ := Option.map_eq_some_iff.mp h
  rw [accept_eq] at hacc
  exact ⟨out, rx, place_effect hacc, rfl⟩

end Session

/-! ## What every packet preserves -/

/-- Every inflate state belongs to a requested block and has kept within its size. -/
def StreamsOk (rx : BlockReceiver Z) : Prop :=
  ∀ start pb, get rx.packed start = some pb →
    ∃ b, rx.blockAt start = some b ∧ pb.total = b.2 - b.1 ∧ pb.written ≤ pb.out.length ∧
      pb.out.length ≤ pb.total

theorem StreamsOk.feeds {rx : BlockReceiver Z} (h : StreamsOk rx) {start : Nat} {frag : Bytes}
    {b : Block} {pb : PackedBlock Z} (hf : Feeds rx start frag b pb) :
    pb.total = b.2 - b.1 ∧ pb.written ≤ pb.out.length ∧ pb.out.length ≤ pb.total := by
  have hentry := hf.entry
  unfold packedEntry at hentry
  split at hentry
  · rename_i pb' hpb
    cases hentry
    obtain ⟨b', hb', hok⟩ := h _ _ hpb
    rw [hf.blockAt, Option.some.injEq] at hb'
    rwa [← hb'] at hok
  · split_ifs at hentry
    cases hentry
    exact ⟨rfl, Nat.le_refl _, Nat.zero_le _⟩

theorem output_le (pb : PackedBlock Z) (frag : Bytes) :
    (inflate pb frag).output.length ≤ pb.total - pb.out.length := Z.output_le ..

theorem StreamsOk.store {rx : BlockReceiver Z} (h : StreamsOk rx) {start : Nat} {b : Block}
    {pb : PackedBlock Z} (hb : rx.blockAt start = some b)
    (hpb : pb.total = b.2 - b.1 ∧ pb.written ≤ pb.out.length ∧ pb.out.length ≤ pb.total) :
    StreamsOk (rx.store start pb) := by
  intro k pb' hk
  rw [packed_store] at hk
  split_ifs at hk with heq
  · cases hk
    exact ⟨b, heq ▸ hb, hpb⟩
  · exact h k pb' hk

theorem StreamsOk.credit {rx : BlockReceiver Z} (h : StreamsOk rx) (start n : Nat) :
    StreamsOk (rx.credit start n) := by
  intro k pb hk
  obtain ⟨b, hb, hok⟩ := h k pb (packed_credit_cases hk)
  exact ⟨b, by unfold blockAt at hb ⊢; rwa [blocks_credit], hok⟩

theorem StreamsOk.grown {rx : BlockReceiver Z} (h : StreamsOk rx) {start : Nat} {frag : Bytes}
    {b : Block} {pb : PackedBlock Z} (hf : Feeds rx start frag b pb) :
    (grown pb frag).total = b.2 - b.1 ∧ pb.written ≤ (grown pb frag).out.length ∧
      pb.written + (inflate pb frag).output.length ≤ (grown pb frag).out.length ∧
      (grown pb frag).out.length ≤ (grown pb frag).total := by
  obtain ⟨ht, hw, ho⟩ := h.feeds hf
  have hout := output_le pb frag
  have hlen : (BlockReceiver.grown pb frag).out.length =
      pb.out.length + (inflate pb frag).output.length := List.length_append
  refine ⟨ht, by omega, by omega, ?_⟩
  show _ ≤ pb.total
  omega

theorem StreamsOk.store_grown {rx : BlockReceiver Z} (h : StreamsOk rx) {start : Nat}
    {frag : Bytes} {b : Block} {pb : PackedBlock Z} (hf : Feeds rx start frag b pb) :
    StreamsOk (rx.store start (BlockReceiver.grown pb frag)) := by
  obtain ⟨ht, hw, -, ho⟩ := h.grown hf
  exact h.store hf.blockAt ⟨ht, hw, ho⟩

theorem StreamsOk.store_advanced {rx : BlockReceiver Z} (h : StreamsOk rx) {start : Nat}
    {frag : Bytes} {b : Block} {pb : PackedBlock Z} (hf : Feeds rx start frag b pb) :
    StreamsOk (rx.store start (advanced pb frag)) := by
  obtain ⟨ht, -, hw, ho⟩ := h.grown hf
  exact h.store hf.blockAt ⟨ht, hw, ho⟩

theorem StreamsOk.effect {rx rx' : BlockReceiver Z} (h : StreamsOk rx) {c : Content}
    {out : Outcome} (he : Effect rx c out rx') : StreamsOk rx' := by
  cases he with
  | ignored => exact h
  | refused => exact h
  | raw => exact h.credit _ _
  | spoiled hf => exact h.store_grown hf
  | silent hf => exact h.store_grown hf
  | inflated hf => exact (h.store_advanced hf).credit _ _

/-- A packet changes neither the blocks nor what the session is about. -/
theorem effect_static {rx rx' : BlockReceiver Z} {c : Content} {out : Outcome}
    (he : Effect rx c out rx') :
    rx'.blocks = rx.blocks ∧ rx'.hash = rx.hash ∧ rx'.fileSize = rx.fileSize := by
  cases he <;> simp [BlockReceiver.store]

theorem blockAt_congr {rx rx' : BlockReceiver Z} (h : rx'.blocks = rx.blocks) (start : Nat) :
    rx'.blockAt start = rx.blockAt start := by
  unfold blockAt
  rw [h]

/-- A block of the file, small enough for a buffer. -/
structure InFile (fileSize : Nat) (b : Block) : Prop where
  nonempty : b.1 < b.2
  inside : b.2 ≤ fileSize
  fits : b.2 - b.1 ≤ ISIZE_MAX

/-- Every write is non-empty and lies in a requested block; the blocks lie in the file. -/
structure Sound (s : Session Z) : Prop where
  inFile : ∀ b ∈ s.rx.blocks, InFile s.rx.fileSize b
  streams : StreamsOk s.rx
  inside : ∀ w ∈ s.writes, w.data ≠ [] ∧
    ∃ b ∈ s.rx.blocks, b.1 ≤ w.offset ∧ w.offset + w.data.length ≤ b.2

/-- The write of an accepted packet lies in a requested block. -/
theorem StreamsOk.handed_inside {rx rx' : BlockReceiver Z} (h : StreamsOk rx) {c : Content}
    {out : Outcome} (he : Effect rx c out rx') {w : BlockWrite} (hw : w ∈ Session.handed out) :
    w.data ≠ [] ∧ ∃ b ∈ rx.blocks, b.1 ≤ w.offset ∧ w.offset + w.data.length ≤ b.2 := by
  cases he with
  | ignored => cases hw
  | refused => cases hw
  | spoiled => cases hw
  | silent => cases hw
  | @raw start stop data owner hlt heof hlen howner =>
    rw [Session.handed, List.mem_singleton] at hw
    subst hw
    obtain ⟨hmem, hle, hge⟩ := containingBlock_mem howner
    have hnil : data ≠ [] := by
      rintro rfl
      rw [List.length_nil] at hlen
      omega
    refine ⟨hnil, owner, hmem, hle, ?_⟩
    show start + data.length ≤ owner.2
    omega
  | @inflated start frag b pb hf hne =>
    rw [Session.handed, List.mem_singleton] at hw
    subst hw
    obtain ⟨hmem, hstart⟩ := blockAt_mem hf.blockAt
    obtain ⟨ht, -, hw, ho⟩ := h.grown hf
    have hle := hf.le
    have htotal : (BlockReceiver.grown pb frag).total = pb.total := rfl
    refine ⟨hne, b, hmem, ?_, ?_⟩
    · show b.1 ≤ start + pb.written
      omega
    · show start + pb.written + (inflate pb frag).output.length ≤ b.2
      omega

/-- `add_blocks` keeps the file and the hash, and adds only blocks of its argument. -/
theorem addBlocks_static (rx : BlockReceiver Z) (bs : List Block) :
    (rx.addBlocks bs).hash = rx.hash ∧ (rx.addBlocks bs).fileSize = rx.fileSize ∧
      (rx.addBlocks bs).packed = rx.packed ∧
      ∀ b ∈ (rx.addBlocks bs).blocks, b ∈ rx.blocks ∨ b ∈ bs := by
  induction bs generalizing rx with
  | nil => exact ⟨rfl, rfl, rfl, fun b hb => .inl hb⟩
  | cons c bs ih =>
    obtain ⟨hh, hf, hp, hmem⟩ := ih (rx.addBlock c)
    have hadd : (rx.addBlock c).hash = rx.hash ∧ (rx.addBlock c).fileSize = rx.fileSize ∧
        (rx.addBlock c).packed = rx.packed ∧
        ∀ b ∈ (rx.addBlock c).blocks, b ∈ rx.blocks ∨ b = c := by
      unfold addBlock
      split_ifs
      · exact ⟨rfl, rfl, rfl, fun b hb => by simpa using hb⟩
      · exact ⟨rfl, rfl, rfl, fun b hb => .inl hb⟩
    obtain ⟨hh₁, hf₁, hp₁, hmem₁⟩ := hadd
    refine ⟨hh.trans hh₁, hf.trans hf₁, hp.trans hp₁, fun b hb => ?_⟩
    rcases hmem b hb with hb | hb
    · refine (hmem₁ b hb).imp_right fun h => ?_
      rw [h]
      exact List.mem_cons_self ..
    · exact .inr (List.mem_cons_of_mem _ hb)

theorem completed_addBlocks (rx : BlockReceiver Z) (bs : List Block) :
    (rx.addBlocks bs).completed = rx.completed := by
  induction bs generalizing rx with
  | nil => rfl
  | cons c bs ih =>
    refine (ih (rx.addBlock c)).trans ?_
    unfold addBlock
    split_ifs <;> rfl

theorem blockAt_addBlocks {rx : BlockReceiver Z} {start : Nat} {b : Block}
    (h : rx.blockAt start = some b) (bs : List Block) :
    (rx.addBlocks bs).blockAt start = some b := by
  induction bs generalizing rx with
  | nil => exact h
  | cons c bs ih => exact ih (blockAt_addBlock h c)

theorem mem_addBlocks {rx : BlockReceiver Z} {b : Block} (h : b ∈ rx.blocks) (bs : List Block) :
    b ∈ (rx.addBlocks bs).blocks := by
  induction bs generalizing rx with
  | nil => exact h
  | cons c bs ih =>
    refine ih ?_
    unfold addBlock
    split_ifs
    · exact List.mem_append_left _ h
    · exact h

theorem StreamsOk.addBlocks {rx : BlockReceiver Z} (h : StreamsOk rx) (bs : List Block) :
    StreamsOk (rx.addBlocks bs) := by
  intro k pb hk
  rw [(addBlocks_static rx bs).2.2.1] at hk
  obtain ⟨b, hb, hok⟩ := h k pb hk
  exact ⟨b, blockAt_addBlocks hb bs, hok⟩

/-- Blocks with new starts are all added. -/
theorem addBlocks_eq {rx : BlockReceiver Z} {bs : List Block} (hne : ∀ b ∈ bs, b.1 < b.2)
    (hstarts : (bs.map Prod.fst).Nodup) (hnone : ∀ b ∈ bs, get rx.left b.1 = none) :
    rx.addBlocks bs = { rx with
      blocks := rx.blocks ++ bs
      left := bs.foldl (fun left b => write left b.1 (b.2 - b.1)) rx.left } := by
  induction bs generalizing rx with
  | nil =>
    rw [List.append_nil]
    rfl
  | cons c bs ih =>
    obtain ⟨hc, hbs⟩ := List.forall_mem_cons.mp hne
    rw [List.map_cons, List.nodup_cons] at hstarts
    obtain ⟨hn, hrest⟩ := List.forall_mem_cons.mp hnone
    have hadd : rx.addBlock c =
        { rx with blocks := rx.blocks ++ [c], left := write rx.left c.1 (c.2 - c.1) } := by
      rw [BlockReceiver.addBlock, if_pos ⟨hc, hn⟩]
    show (rx.addBlock c).addBlocks bs = _
    rw [hadd, ih hbs hstarts.2]
    · simp
    · intro b hb
      have hstart : b.1 ≠ c.1 := fun heq => hstarts.1 (heq ▸ List.mem_map_of_mem hb)
      show get (write rx.left c.1 (c.2 - c.1)) b.1 = none
      rw [get_write, if_neg hstart]
      exact hrest b hb

/-- The state `new` builds is what adding its blocks to an empty receiver gives. -/
theorem new_eq_addBlocks {hash : Hash16} {fileSize : Nat} {blocks : List Block}
    (hne : ∀ b ∈ blocks, b.1 < b.2) (hstarts : (blocks.map Prod.fst).Nodup) :
    BlockReceiver.new Z hash fileSize blocks =
      some ((⟨hash, fileSize, [], [], [], []⟩ : BlockReceiver Z).addBlocks blocks) := by
  rw [BlockReceiver.new, if_pos fun b hb => (hne b hb).le,
    addBlocks_eq hne hstarts fun _ _ => rfl]
  rfl

/-- The counters after a top-up with new starts. -/
theorem get_left_addBlocks {rx : BlockReceiver Z} {bs : List Block} (hne : ∀ b ∈ bs, b.1 < b.2)
    (hstarts : (bs.map Prod.fst).Nodup) (hnone : ∀ b ∈ bs, get rx.left b.1 = none) (k : Nat) :
    (∀ b ∈ bs, b.1 = k → get (rx.addBlocks bs).left k = some (b.2 - b.1)) ∧
      (k ∉ bs.map Prod.fst → get (rx.addBlocks bs).left k = get rx.left k) := by
  rw [addBlocks_eq hne hstarts hnone]
  clear hnone hne
  generalize rx.left = left
  induction bs generalizing left with
  | nil => exact ⟨fun b hb => absurd hb List.not_mem_nil, fun _ => rfl⟩
  | cons c bs ih =>
    rw [List.map_cons, List.nodup_cons] at hstarts
    obtain ⟨hin, hout⟩ := ih hstarts.2 (write left c.1 (c.2 - c.1))
    refine ⟨fun b hb hk => ?_, fun hk => ?_⟩
    · rcases List.mem_cons.mp hb with rfl | hb
      · subst hk
        refine (hout hstarts.1).trans ?_
        rw [get_write, if_pos rfl]
      · exact hin b hb hk
    · rw [List.map_cons, List.mem_cons, not_or] at hk
      refine (hout hk.2).trans ?_
      rw [get_write, if_neg hk.1]

/-- The blocks a top-up adds lie in the file. -/
def AddsInFile (s : Session Z) : RxEvent → Prop
  | .addBlocks bs => ∀ b ∈ bs, InFile s.rx.fileSize b
  | _ => True

theorem writes_packet (s : Session Z) (c : Content) (out : Outcome) (rx : BlockReceiver Z) :
    Session.writes { s with rx := rx, log := s.log ++ (Session.handed out).map fun w => (c, w) } =
      s.writes ++ Session.handed out := by
  unfold Session.writes
  rw [List.map_append, List.map_map]
  exact congrArg _ (List.map_id _)

theorem Sound.step {s s' : Session Z} {e : RxEvent} (h : Sound s) (hok : AddsInFile s e)
    (hs : s.step e = some s') : Sound s' := by
  cases e with
  | packet opcode payload =>
    obtain ⟨out, rx, heff, rfl⟩ := Session.step_packet hs
    obtain ⟨hblocks, -, hsize⟩ := effect_static heff
    refine ⟨?_, h.streams.effect heff, ?_⟩
    · rw [hblocks, hsize]
      exact h.inFile
    · rw [writes_packet]
      intro w hw
      rw [hblocks]
      rcases List.mem_append.mp hw with hw | hw
      · exact h.inside w hw
      · exact h.streams.handed_inside heff hw
  | addBlocks bs =>
    cases hs
    obtain ⟨-, hsize, -, hmem⟩ := addBlocks_static s.rx bs
    refine ⟨fun b hb => ?_, h.streams.addBlocks bs, fun w hw => ?_⟩
    · rw [hsize]
      exact (hmem b hb).elim (h.inFile b) (hok b)
    · obtain ⟨hne, b, hb, hin⟩ := h.inside w hw
      exact ⟨hne, b, mem_addBlocks hb bs, hin⟩
  | takeCompleted =>
    cases hs
    exact ⟨h.inFile, h.streams, h.inside⟩

theorem start_eq {hash : Hash16} {fileSize : Nat} {blocks : List Block} {s : Session Z}
    (h : Session.start Z hash fileSize blocks = some s) :
    s.rx.hash = hash ∧ s.rx.fileSize = fileSize ∧ s.rx.blocks = blocks ∧ s.rx.packed = [] ∧
      s.rx.completed = [] ∧ s.log = [] ∧ s.reported = [] ∧
      s.rx.left = blocks.foldl (fun left b => write left b.1 (b.2 - b.1)) [] := by
  unfold Session.start BlockReceiver.new at h
  split_ifs at h
  · cases h
    exact ⟨rfl, rfl, rfl, rfl, rfl, rfl, rfl, rfl⟩
  · cases h

theorem sound_start {hash : Hash16} {fileSize : Nat} {blocks : List Block} {s : Session Z}
    (hblocks : ∀ b ∈ blocks, InFile fileSize b)
    (h : Session.start Z hash fileSize blocks = some s) : Sound s := by
  obtain ⟨-, hsize, hb, hp, -, hlog, -, -⟩ := start_eq h
  refine ⟨?_, ?_, ?_⟩
  · rw [hb, hsize]
    exact hblocks
  · intro k pb hk
    rw [hp] at hk
    cases hk
  · intro w hw
    rw [Session.writes, hlog] at hw
    cases hw

/-- No packet makes a sound receiver panic. -/
theorem Sound.accepts {s : Session Z} (h : Sound s) (opcode : UInt8) (payload : Bytes) :
    ∃ out rx, s.rx.accept opcode payload = some (out, rx) := by
  rw [accept_eq]
  cases content s.rx.hash opcode payload with
  | other => exact ⟨_, _, rfl⟩
  | unreadable e => exact ⟨_, _, rfl⟩
  | raw start stop data => exact ⟨_, _, rfl⟩
  | packed start frag =>
    rw [place]
    unfold placePacked
    split_ifs with hnil
    · exact ⟨_, _, rfl⟩
    · cases hb : s.rx.blockAt start with
      | none => exact ⟨_, _, rfl⟩
      | some b =>
        have hin := h.inFile b (blockAt_mem hb).1
        dsimp only
        rw [if_neg (Nat.not_lt.mpr hin.nonempty.le)]
        unfold packedEntry
        cases get s.rx.packed start with
        | some pb => exact ⟨_, _, rfl⟩
        | none =>
          dsimp only
          rw [if_pos hin.fits]
          exact ⟨_, _, rfl⟩

theorem Sound.steps {s : Session Z} (h : Sound s) (e : RxEvent) : ∃ s', s.step e = some s' := by
  cases e with
  | packet opcode payload =>
    obtain ⟨out, rx, hacc⟩ := h.accepts opcode payload
    exact ⟨_, by rw [Session.step, hacc]; rfl⟩
  | addBlocks bs => exact ⟨_, rfl⟩
  | takeCompleted => exact ⟨_, rfl⟩

/-- A sound session runs through every sequence of events. -/
theorem Sound.runs {s : Session Z} (h : Sound s) {es : List RxEvent}
    (hok : s.Throughout AddsInFile es) : ∃ s', s.run es = some s' ∧ Sound s' := by
  induction es generalizing s with
  | nil => exact ⟨s, rfl, h⟩
  | cons e es ih =>
    obtain ⟨s₁, h₁⟩ := h.steps e
    obtain ⟨s', hrun, hs'⟩ := ih (h.step hok.1 h₁) (hok.2 s₁ h₁)
    exact ⟨s', by rw [Session.run, h₁]; exact hrun, hs'⟩

/-! ## Progress and the length of a compressed block -/

/-- An accepted data packet writes, or takes at least one byte of a compressed stream. -/
theorem StreamsOk.progress {rx rx' : BlockReceiver Z} (h : StreamsOk rx) {c : Content}
    {ws : List BlockWrite} (he : Effect rx c (.ok ws) rx') (hdata : c ≠ .other) :
    ws ≠ [] ∨ ∃ start frag b pb, c = .packed start frag ∧ Feeds rx start frag b pb ∧
      0 < (inflate pb frag).consumed := by
  cases he with
  | ignored => exact absurd rfl hdata
  | raw => exact .inl (List.cons_ne_nil _ _)
  | inflated => exact .inl (List.cons_ne_nil _ _)
  | @silent start frag b pb hf hok hfull hend hout =>
    refine .inr ⟨start, frag, b, pb, rfl, hf, ?_⟩
    obtain ⟨-, hw, ho⟩ := h.feeds hf
    have hlen : (BlockReceiver.grown pb frag).out.length = pb.out.length := by
      show (pb.out ++ (inflate pb frag).output).length = _
      rw [hout, List.append_nil]
    have hpos : 0 < frag.length := List.length_pos_iff.mpr hf.frag_ne
    -- a full buffer has taken the whole fragment, so the open case is the one with room
    by_cases hroom : pb.out.length = pb.total
    · rw [hfull (hlen.trans hroom)]
      exact hpos
    · cases hs : (inflate pb frag).status with
      | error => exact absurd hs hok
      | streamEnd => exact absurd (hend hs) (by omega)
      | ok =>
        obtain hc | ho' := Z.progress pb.decomp frag (pb.total - pb.out.length) hf.frag_ne
          (by omega) hs
        · exact hc
        · have hzero : (inflate pb frag).output.length = 0 := by rw [hout, List.length_nil]
          exact absurd ho' (by rw [← inflate, hzero]; exact Nat.lt_irrefl 0)

/-- Does a packet feed the compressed block at `start`? -/
def feedsAt (start : Nat) : Content → Bool
  | .packed k _ => k == start
  | _ => false

/-- Bytes produced so far by the compressed packets naming `start`. -/
def Session.streamed (s : Session Z) (start : Nat) : Nat :=
  ((s.log.filter fun p => feedsAt start p.1).map fun p => p.2.data.length).sum

/-- Every compressed packet names a block that is still outstanding, and a top-up asks for
    blocks with new starts. -/
def StreamsOutstanding (s : Session Z) : RxEvent → Prop
  | .packet opcode payload =>
    ∀ start frag, content s.rx.hash opcode payload = .packed start frag →
      (get s.rx.left start).isSome
  | .addBlocks bs => ∀ b ∈ bs, s.rx.blockAt b.1 = none
  | .takeCompleted => True

/-- How far each stream has got, by the state of its block. -/
structure Metered (s : Session Z) : Prop where
  streams : StreamsOk s.rx
  running : ∀ start pb, get s.rx.packed start = some pb → s.streamed start ≤ pb.written
  waiting : ∀ start, get s.rx.packed start = none → (get s.rx.left start).isSome →
    s.streamed start = 0
  bounded : ∀ start b, s.rx.blockAt start = some b → s.streamed start ≤ b.2 - b.1
  unknown : ∀ start, s.rx.blockAt start = none → s.streamed start = 0

theorem streamed_append (s : Session Z) (c : Content) (out : Outcome) (rx : BlockReceiver Z)
    (start : Nat) :
    Session.streamed
        { s with rx := rx, log := s.log ++ (Session.handed out).map fun w => (c, w) } start =
      s.streamed start +
        if feedsAt start c then ((Session.handed out).map fun w => w.data.length).sum else 0 := by
  unfold Session.streamed
  rw [List.filter_append, List.map_append, List.sum_append]
  congr 1
  by_cases h : feedsAt start c = true
  · rw [if_pos h, List.filter_eq_self.mpr, List.map_map]
    · rfl
    · intro p hp
      obtain ⟨w, -, rfl⟩ := List.mem_map.mp hp
      exact h
  · rw [if_neg h, List.filter_eq_nil_iff.mpr]
    · rfl
    · intro p hp
      obtain ⟨w, -, rfl⟩ := List.mem_map.mp hp
      exact h

/-- An outstanding block's entry is as far as its stream. -/
theorem Metered.feeds {s : Session Z} (h : Metered s) {start : Nat} {frag : Bytes} {b : Block}
    {pb : PackedBlock Z} (hf : Feeds s.rx start frag b pb) (hleft : (get s.rx.left start).isSome) :
    s.streamed start ≤ pb.written := by
  have hentry := hf.entry
  unfold packedEntry at hentry
  split at hentry
  · rename_i pb' hpb
    cases hentry
    exact h.running _ _ hpb
  · rename_i hnone
    rw [h.waiting start hnone hleft]
    exact Nat.zero_le _

theorem left_credit_isSome {rx : BlockReceiver Z} {start n k : Nat}
    (h : (get (rx.credit start n).left k).isSome) : (get rx.left k).isSome := by
  obtain hl | ⟨rem, hl⟩ := Option.eq_none_or_eq_some (get rx.left start)
  · rwa [credit_of_none hl] at h
  · rw [left_credit hl] at h
    by_cases hk : k = start
    · rw [hk, hl]
      rfl
    · rwa [if_neg hk] at h

/-- A stream whose state is gone belongs to a block that is closed. -/
theorem packed_credit_none {rx : BlockReceiver Z} {start n k : Nat}
    (h : get (rx.credit start n).packed k = none)
    (hleft : (get (rx.credit start n).left k).isSome) : get rx.packed k = none := by
  obtain hl | ⟨rem, hl⟩ := Option.eq_none_or_eq_some (get rx.left start)
  · rwa [credit_of_none hl] at h
  · rw [packed_credit hl] at h
    split_ifs at h with hk
    · rw [left_credit hl, if_pos hk.1, if_pos hk.2] at hleft
      cases hleft
    · exact h

theorem streamed_of_silent (s : Session Z) {c : Content} {out : Outcome} (rx : BlockReceiver Z)
    (start : Nat) (h : Session.handed out = [] ∨ feedsAt start c = false) :
    Session.streamed
        { s with rx := rx, log := s.log ++ (Session.handed out).map fun w => (c, w) } start =
      s.streamed start := by
  rw [streamed_append]
  obtain h | h := h <;> simp [h]

theorem Metered.credit {s : Session Z} (h : Metered s) {c : Content} {out : Outcome}
    (start n : Nat) (hquiet : ∀ k, feedsAt k c = false) :
    Metered { s with
      rx := s.rx.credit start n
      log := s.log ++ (Session.handed out).map fun w => (c, w) } := by
  have hsame := fun k => @streamed_of_silent _ s c out (s.rx.credit start n) k (.inr (hquiet k))
  refine ⟨h.streams.credit start n, fun k pb hk => ?_, fun k hk hl => ?_, fun k b hb => ?_,
    fun k hb => ?_⟩ <;> rw [hsame]
  · exact h.running k pb (packed_credit_cases hk)
  · exact h.waiting k (packed_credit_none hk hl) (left_credit_isSome hl)
  · rw [blockAt_congr (blocks_credit _ _ _)] at hb
    exact h.bounded k b hb
  · rw [blockAt_congr (blocks_credit _ _ _)] at hb
    exact h.unknown k hb

/-- A call of the decompressor that hands nothing over. -/
theorem Metered.stored {s : Session Z} (h : Metered s) {c : Content} {out : Outcome}
    (hquiet : Session.handed out = []) {start : Nat} {frag : Bytes} {b : Block}
    {pb : PackedBlock Z} (hf : Feeds s.rx start frag b pb) (hleft : (get s.rx.left start).isSome) :
    Metered { s with
      rx := s.rx.store start (grown pb frag)
      log := s.log ++ (Session.handed out).map fun w => (c, w) } := by
  have hsame := fun k => streamed_of_silent s (c := c) (s.rx.store start (grown pb frag)) k
    (.inl hquiet)
  refine ⟨h.streams.store_grown hf, fun k pb' hk => ?_, fun k hk hl => ?_,
    fun k b' hb => ?_, fun k hb => ?_⟩ <;> rw [hsame]
  · rw [packed_store] at hk
    split_ifs at hk with heq
    · cases hk
      have hwritten : s.streamed start ≤ pb.written := h.feeds hf hleft
      rwa [heq]
    · exact h.running k pb' hk
  · rw [packed_store] at hk
    split_ifs at hk
    exact h.waiting k hk hl
  · exact h.bounded k b' hb
  · exact h.unknown k hb

theorem Metered.inflated {s : Session Z} (h : Metered s) {start : Nat} {frag : Bytes} {b : Block}
    {pb : PackedBlock Z} (hf : Feeds s.rx start frag b pb) (hleft : (get s.rx.left start).isSome) :
    Metered { s with
      rx := (s.rx.store start (advanced pb frag)).credit start (inflate pb frag).output.length
      log := s.log ++ (Session.handed (.ok [⟨start + pb.written, (inflate pb frag).output⟩])).map
        fun w => (.packed start frag, w) } := by
  obtain ⟨ht, -, hw, ho⟩ := h.streams.grown hf
  have hcount := h.feeds hf hleft
  have htotal : (BlockReceiver.grown pb frag).total = pb.total := rfl
  have hgrows : ∀ k, Session.streamed { s with
      rx := (s.rx.store start (advanced pb frag)).credit start (inflate pb frag).output.length
      log := s.log ++ (Session.handed (.ok [⟨start + pb.written, (inflate pb frag).output⟩])).map
        fun w => (.packed start frag, w) } k =
      s.streamed k + if k = start then (inflate pb frag).output.length else 0 := by
    intro k
    rw [streamed_append]
    by_cases hk : k = start
    · simp [feedsAt, hk, Session.handed]
    · simp [feedsAt, hk, Ne.symm hk]
  refine ⟨(h.streams.store_advanced hf).credit _ _, fun k pb' hk => ?_, fun k hk hl => ?_,
    fun k b' hb => ?_, fun k hb => ?_⟩ <;> rw [hgrows]
  · have hk' := packed_credit_cases hk
    rw [packed_store] at hk'
    split_ifs at hk' with heq
    · cases hk'
      rw [if_pos heq, heq]
      exact Nat.add_le_add_right hcount _
    · rw [if_neg heq]
      exact h.running k pb' hk'
  · have hk' := packed_credit_none hk hl
    rw [packed_store] at hk'
    split_ifs at hk' with heq
    rw [if_neg heq]
    have hl' : (get (s.rx.store start (advanced pb frag)).left k).isSome := left_credit_isSome hl
    exact h.waiting k hk' hl'
  · rw [blockAt_congr (blocks_credit _ _ _)] at hb
    by_cases heq : k = start
    · have hbb : some b' = some b := hb.symm.trans (heq ▸ hf.blockAt)
      cases hbb
      rw [if_pos heq, heq]
      omega
    · rw [if_neg heq]
      exact h.bounded k b' hb
  · rw [blockAt_congr (blocks_credit _ _ _)] at hb
    have hne : k ≠ start := by
      rintro rfl
      exact absurd (hb.symm.trans hf.blockAt) (by simp)
    rw [if_neg hne]
    exact h.unknown k hb

theorem Metered.packet {s : Session Z} (h : Metered s) {c : Content} {out : Outcome}
    {rx : BlockReceiver Z} (he : Effect s.rx c out rx)
    (hok : ∀ start frag, c = .packed start frag → (get s.rx.left start).isSome) :
    Metered { s with rx := rx, log := s.log ++ (Session.handed out).map fun w => (c, w) } := by
  cases he with
  | ignored => simpa [Session.handed] using h
  | refused => simpa [Session.handed] using h
  | raw => exact h.credit _ _ fun _ => rfl
  | spoiled hf => exact h.stored rfl hf (hok _ _ rfl)
  | silent hf => exact h.stored rfl hf (hok _ _ rfl)
  | inflated hf => exact h.inflated hf (hok _ _ rfl)

/-- A start no block had before a top-up and one has after it is outstanding with its count
    untouched; every other start is as it was. -/
theorem left_addBlocks {rx : BlockReceiver Z} (bs : List Block) {k : Nat}
    (h : ∀ b ∈ bs, rx.blockAt b.1 = none) (hk : rx.blockAt k ≠ none) :
    get (rx.addBlocks bs).left k = get rx.left k := by
  have hne : ∀ b ∈ bs, k ≠ b.1 := fun b hb heq => hk (heq ▸ h b hb)
  clear h hk
  induction bs generalizing rx with
  | nil => rfl
  | cons c bs ih =>
    obtain ⟨hc, hbs⟩ := List.forall_mem_cons.mp hne
    refine (ih hbs).trans ?_
    unfold addBlock
    split_ifs
    · exact (get_write ..).trans (if_neg hc)
    · rfl

theorem Metered.addBlocks {s : Session Z} (h : Metered s) {bs : List Block}
    (hbs : ∀ b ∈ bs, s.rx.blockAt b.1 = none) :
    Metered { s with rx := s.rx.addBlocks bs } := by
  have hpacked := (addBlocks_static s.rx bs).2.2.1
  refine ⟨h.streams.addBlocks bs, fun k pb hk => ?_, fun k hk hl => ?_, fun k b hb => ?_,
    fun k hb => ?_⟩
  · rw [hpacked] at hk
    exact h.running k pb hk
  · rw [hpacked] at hk
    by_cases hnew : s.rx.blockAt k = none
    · exact h.unknown k hnew
    · rw [left_addBlocks bs hbs hnew] at hl
      exact h.waiting k hk hl
  · obtain hnew | ⟨b', hb'⟩ := Option.eq_none_or_eq_some (s.rx.blockAt k)
    · exact (h.unknown k hnew).le.trans (Nat.zero_le _)
    · have hbb := hb.symm.trans (blockAt_addBlocks hb' bs)
      cases hbb
      exact h.bounded k b hb'
  · obtain hnew | ⟨b', hb'⟩ := Option.eq_none_or_eq_some (s.rx.blockAt k)
    · exact h.unknown k hnew
    · exact absurd (hb.symm.trans (blockAt_addBlocks hb' bs)) (by simp)

theorem Metered.step {s s' : Session Z} {e : RxEvent} (h : Metered s) (hok : StreamsOutstanding s e)
    (hs : s.step e = some s') : Metered s' := by
  cases e with
  | packet opcode payload =>
    obtain ⟨out, rx, heff, rfl⟩ := Session.step_packet hs
    exact h.packet heff hok
  | addBlocks bs =>
    cases hs
    exact h.addBlocks hok
  | takeCompleted =>
    cases hs
    exact ⟨h.streams, h.running, h.waiting, h.bounded, h.unknown⟩

theorem metered_start {hash : Hash16} {fileSize : Nat} {blocks : List Block} {s : Session Z}
    (h : Session.start Z hash fileSize blocks = some s) : Metered s := by
  obtain ⟨-, -, -, hp, -, hlog, -, -⟩ := start_eq h
  have hzero : ∀ k, s.streamed k = 0 := by
    intro k
    rw [Session.streamed, hlog]
    rfl
  refine ⟨?_, ?_, fun k _ _ => hzero k, fun k b _ => (hzero k).le.trans (Nat.zero_le _),
    fun k _ => hzero k⟩
  all_goals
    intro k pb hk
    rw [hp] at hk
    cases hk

/-- No run panics; every write is non-empty, in a requested block and in the file; another
    file's packets write nothing; an accepted data packet writes or consumes. And while no
    compressed packet names a closed block, a compressed block stays within its size. -/
theorem receiver_contained {hash : Hash16} {fileSize : Nat} {blocks : List Block}
    {s₀ : Session Z} (hblocks : ∀ b ∈ blocks, InFile fileSize b)
    (h₀ : Session.start Z hash fileSize blocks = some s₀) {events : List RxEvent}
    (hadds : s₀.Throughout AddsInFile events) :
    ∃ s, s₀.run events = some s ∧
      (∀ opcode payload, ∃ out rx, s.rx.accept opcode payload = some (out, rx)) ∧
      (∀ w ∈ s.writes, w.data ≠ [] ∧ w.offset + w.data.length ≤ fileSize ∧
        ∃ b ∈ s.rx.blocks, b.1 ≤ w.offset ∧ w.offset + w.data.length ≤ b.2) ∧
      (∀ opcode payload other rest, readHash16 payload = .ok (other, rest) → other ≠ hash →
        ∀ ws rx, s.rx.accept opcode payload = some (.ok ws, rx) → ws = []) ∧
      (∀ opcode payload ws rx, s.rx.accept opcode payload = some (.ok ws, rx) →
        content hash opcode payload ≠ .other →
          ws ≠ [] ∨ ∃ start frag b pb, content hash opcode payload = .packed start frag ∧
            Feeds s.rx start frag b pb ∧ 0 < (inflate pb frag).consumed) ∧
      (s₀.Throughout StreamsOutstanding events →
        ∀ start b, s.rx.blockAt start = some b → s.streamed start ≤ b.2 - b.1) := by
  obtain ⟨s, hrun, hs⟩ := (sound_start hblocks h₀).runs hadds
  have hstatic : s.rx.hash = hash ∧ s.rx.fileSize = fileSize := by
    refine Session.run_induct (I := fun s => s.rx.hash = hash ∧ s.rx.fileSize = fileSize) ?_
      ⟨(start_eq h₀).1, (start_eq h₀).2.1⟩ hadds hrun
    · intro s e s' hI _ hstep
      cases e with
      | packet opcode payload =>
        obtain ⟨out, rx, heff, rfl⟩ := Session.step_packet hstep
        obtain ⟨-, hh, hf⟩ := effect_static heff
        exact ⟨hh.trans hI.1, hf.trans hI.2⟩
      | addBlocks bs =>
        cases hstep
        obtain ⟨hh, hf, -⟩ := addBlocks_static s.rx bs
        exact ⟨hh.trans hI.1, hf.trans hI.2⟩
      | takeCompleted =>
        cases hstep
        exact hI
  refine ⟨s, hrun, hs.accepts, fun w hw => ?_, ?_, ?_, fun hout start b hb => ?_⟩
  · obtain ⟨hne, b, hb, hle, hge⟩ := hs.inside w hw
    have hin := (hs.inFile b hb).inside
    rw [hstatic.2] at hin
    exact ⟨hne, hge.trans hin, b, hb, hle, hge⟩
  · intro opcode payload other rest hread hne ws rx hacc
    rw [accept_eq, hstatic.1] at hacc
    obtain hc | hc := content_of_other_hash hread hne opcode
    · rw [hc] at hacc
      cases hacc
    · rw [hc] at hacc
      cases hacc
      rfl
  · intro opcode payload ws rx hacc hdata
    rw [accept_eq, hstatic.1] at hacc
    exact hs.streams.progress (place_effect hacc) hdata
  · have hmetered := Session.run_induct (fun s e s' h hok hstep => Metered.step h hok hstep)
      (metered_start h₀) hout hrun
    exact hmetered.bounded start b hb

/-- Two zero bytes as one stored zlib stream. -/
def twoZeros : Bytes := [0x78, 0x01, 0x01, 0x02, 0x00, 0xFD, 0xFF, 0x00, 0x00, 0x00, 0x02, 0x00, 0x01]

/-- The whole stream in one OP_COMPRESSEDPART for the block at 0. -/
def twoZerosPacket : RxEvent :=
  .packet OP_COMPRESSEDPART (packedPayload (.fill 16 0) false 0 13 twoZeros)

/-- One compressed block of two bytes, received once. -/
theorem two_zeros_contained :
    ∃ s₀ s, Session.start storedZlib (.fill 16 0) 100 [(0, 2)] = some s₀ ∧
      s₀.run [twoZerosPacket] = some s ∧
      ∀ start b, s.rx.blockAt start = some b → s.streamed start ≤ b.2 - b.1 := by
  have hblocks : ∀ b ∈ [((0, 2) : Block)], InFile 100 b := by
    intro b hb
    rw [List.mem_singleton] at hb
    subst hb
    exact ⟨by decide, by decide, by decide⟩
  obtain ⟨s₀, h₀⟩ : ∃ s₀, Session.start storedZlib (.fill 16 0) 100 [(0, 2)] = some s₀ := ⟨_, rfl⟩
  obtain ⟨s, hrun, -, -, -, -, hbound⟩ := receiver_contained hblocks h₀
    (show s₀.Throughout AddsInFile [twoZerosPacket] from ⟨trivial, fun _ _ => trivial⟩)
  refine ⟨s₀, s, h₀, hrun, hbound ⟨?_, fun _ _ => trivial⟩⟩
  intro start frag hc
  obtain ⟨hh, -, -, -, -, -, -, hl⟩ := start_eq h₀
  have hread := @content_packedPayload (.fill 16 0) false 0 13 twoZeros (by decide)
  rw [hh] at hc
  have hpacked := hread.symm.trans hc
  cases hpacked
  rw [hl]
  rfl

/-- The same stream once more: the block is closed, a new inflate state starts, and the block
    of two bytes has produced four. -/
theorem reopened_stream_doubles :
    ∃ s₀ s, Session.start storedZlib (.fill 16 0) 100 [(0, 2)] = some s₀ ∧
      s₀.run [twoZerosPacket, twoZerosPacket] = some s ∧
      s.rx.blockAt 0 = some (0, 2) ∧ s.streamed 0 = 4 := by
  obtain ⟨s₀, h₀⟩ : ∃ s₀, Session.start storedZlib (.fill 16 0) 100 [(0, 2)] = some s₀ := ⟨_, rfl⟩
  have hrun : ((Session.start storedZlib (.fill 16 0) 100 [(0, 2)]).bind fun s =>
      s.run [twoZerosPacket, twoZerosPacket]).map (fun s => (s.rx.blockAt 0, s.streamed 0)) =
        some (some (0, 2), 4) := by decide +kernel
  rw [h₀] at hrun
  obtain ⟨s, hs, heq⟩ := Option.map_eq_some_iff.mp hrun
  rw [Prod.mk.injEq] at heq
  exact ⟨s₀, s, h₀, hs, heq⟩

end PadMule.Engine
