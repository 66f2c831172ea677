import PadMule.Engine.ReceiverRuns

/-
  `BlockReceiver`: is every requested byte accepted at most once?

  Not in general: a raw piece sent twice is written twice and credited twice, so a block
  closes with bytes that never came (`repeated_piece_closes_block`). Where every packet
  brings bytes that are still missing, the counter of a block is the number of its bytes
  not yet written (`Tracked`), and everything else follows from that.
-/

namespace PadMule.Engine

open PadMule.Proto FileMap Inflate Readers Spans BlockReceiver

variable {Z : Inflater}

/-! ## Counting what is still missing -/

/-- The range of a write. -/
def BlockWrite.span (w : BlockWrite) : Span Nat := ⟨w.offset, w.offset + w.data.length⟩

/-- Offsets some write has emitted. -/
def emitted (ws : List BlockWrite) : Set Nat := cover (ws.map BlockWrite.span)

theorem mem_emitted {ws : List BlockWrite} {x : Nat} :
    x ∈ emitted ws ↔ ∃ w ∈ ws, w.offset ≤ x ∧ x < w.offset + w.data.length := by
  simp [emitted, mem_cover, BlockWrite.span]

instance (ws : List BlockWrite) : DecidablePred (· ∈ emitted ws) :=
  inferInstanceAs (DecidablePred (· ∈ cover (ws.map BlockWrite.span)))

theorem emitted_append (ws : List BlockWrite) (w : BlockWrite) :
    emitted (ws ++ [w]) = emitted ws ∪ Set.Ico w.offset (w.offset + w.data.length) := by
  simp [emitted, BlockWrite.span]

/-- Offsets of a block nobody has emitted yet. -/
def missingOf (ws : List BlockWrite) (b : Block) : Finset Nat :=
  (Finset.Ico b.1 b.2).filter fun x => x ∉ emitted ws

theorem mem_missingOf {ws : List BlockWrite} {b : Block} {x : Nat} :
    x ∈ missingOf ws b ↔ (b.1 ≤ x ∧ x < b.2) ∧ x ∉ emitted ws := by
  simp [missingOf]

/-- A write of missing bytes of the block takes exactly its length off the count. -/
theorem card_missingOf_append {ws : List BlockWrite} {b : Block} {w : BlockWrite}
    (hin : b.1 ≤ w.offset ∧ w.offset + w.data.length ≤ b.2)
    (hfresh : ∀ x, w.offset ≤ x → x < w.offset + w.data.length → x ∉ emitted ws) :
    (missingOf (ws ++ [w]) b).card + w.data.length = (missingOf ws b).card := by
  have hsplit : missingOf ws b = missingOf (ws ++ [w]) b ∪
      Finset.Ico w.offset (w.offset + w.data.length) := by
    ext x
    rw [Finset.mem_union, mem_missingOf, mem_missingOf, emitted_append, Set.mem_union,
      Set.mem_Ico, Finset.mem_Ico]
    constructor
    · rintro ⟨hb, hx⟩
      by_cases hw : w.offset ≤ x ∧ x < w.offset + w.data.length
      · exact .inr hw
      · exact .inl ⟨hb, not_or.mpr ⟨hx, hw⟩⟩
    · rintro (⟨hb, hx⟩ | ⟨hle, hlt⟩)
      · exact ⟨hb, fun h => hx (.inl h)⟩
      · exact ⟨⟨by omega, by omega⟩, hfresh x hle hlt⟩
  have hdisj : Disjoint (missingOf (ws ++ [w]) b)
      (Finset.Ico w.offset (w.offset + w.data.length)) := by
    rw [Finset.disjoint_left]
    intro x hx hw
    rw [mem_missingOf, emitted_append] at hx
    exact hx.2 (.inr (Finset.mem_Ico.mp hw))
  rw [hsplit, Finset.card_union_of_disjoint hdisj, Nat.card_Ico]
  omega

/-- A write outside the block leaves its missing bytes alone. -/
theorem missingOf_append_apart {ws : List BlockWrite} {b : Block} {w : BlockWrite}
    (h : ∀ x, w.offset ≤ x → x < w.offset + w.data.length → ¬ (b.1 ≤ x ∧ x < b.2)) :
    missingOf (ws ++ [w]) b = missingOf ws b := by
  ext x
  rw [mem_missingOf, mem_missingOf, emitted_append, Set.mem_union, Set.mem_Ico]
  constructor
  · rintro ⟨hb, hx⟩
    exact ⟨hb, fun he => hx (.inl he)⟩
  · rintro ⟨hb, hx⟩
    exact ⟨hb, fun he => he.elim hx fun hw => h x hw.1 hw.2 hb⟩

/-! ## Blocks, writes and counters -/

/-- Two requested blocks share no byte. -/
def Separate (a b : Block) : Prop := a.2 ≤ b.1 ∨ b.2 ≤ a.1

/-- No offset lies in two of the writes. -/
def Once (ws : List BlockWrite) : Prop := Apart (ws.map BlockWrite.span)

/-- Every byte of the block has been emitted. -/
def Covered (ws : List BlockWrite) (b : Block) : Prop := ∀ x, b.1 ≤ x → x < b.2 → x ∈ emitted ws

theorem covered_of_missing {ws : List BlockWrite} {b : Block} (h : (missingOf ws b).card = 0) :
    Covered ws b := by
  intro x hle hlt
  by_contra hx
  have hmem : x ∈ missingOf ws b := mem_missingOf.mpr ⟨⟨hle, hlt⟩, hx⟩
  rw [Finset.card_eq_zero.mp h] at hmem
  exact Finset.notMem_empty x hmem

/-- The counter of every block is the number of its bytes nobody has emitted. -/
structure Tracked (s : Session Z) : Prop where
  nonempty : ∀ b ∈ s.rx.blocks, b.1 < b.2
  apart : s.rx.blocks.Pairwise Separate
  streams : StreamsOk s.rx
  once : Once s.writes
  inside : ∀ w ∈ s.writes, w.data ≠ [] ∧
    ∃ b ∈ s.rx.blocks, b.1 ≤ w.offset ∧ w.offset + w.data.length ≤ b.2
  keys : ∀ k n, get s.rx.left k = some n → 0 < n ∧ ∃ b ∈ s.rx.blocks, b.1 = k
  count : ∀ b ∈ s.rx.blocks, (missingOf s.writes b).card = (get s.rx.left b.1).getD 0
  closed : ∀ b ∈ s.rx.completed ++ s.reported, b ∈ s.rx.blocks ∧ get s.rx.left b.1 = none

instance : Std.Symm Separate := ⟨fun _ _ h => h.symm⟩

/-- Blocks that are apart and meet in a byte are one block. -/
theorem Tracked.eq_of_meet {s : Session Z} (h : Tracked s) {a b : Block} (ha : a ∈ s.rx.blocks)
    (hb : b ∈ s.rx.blocks) {x : Nat} (hxa : a.1 ≤ x ∧ x < a.2) (hxb : b.1 ≤ x ∧ x < b.2) :
    a = b := by
  by_contra hne
  have hsep := h.apart.forall ha hb hne
  unfold Separate at hsep
  omega

theorem Tracked.eq_of_start {s : Session Z} (h : Tracked s) {a b : Block} (ha : a ∈ s.rx.blocks)
    (hb : b ∈ s.rx.blocks) (hstart : a.1 = b.1) : a = b :=
  h.eq_of_meet ha hb ⟨Nat.le_refl _, h.nonempty a ha⟩ ⟨hstart.symm.le, hstart ▸ h.nonempty b hb⟩

theorem once_append {ws : List BlockWrite} {w : BlockWrite} (h : Once ws)
    (hfresh : ∀ x, w.offset ≤ x → x < w.offset + w.data.length → x ∉ emitted ws) :
    Once (ws ++ [w]) := by
  unfold Once Apart at h ⊢
  rw [List.map_append, List.pairwise_append]
  refine ⟨h, List.pairwise_singleton _ _, fun v hv t ht => ?_⟩
  rw [List.map_singleton, List.mem_singleton] at ht
  subst ht
  obtain ⟨u, hu, rfl⟩ := List.mem_map.mp hv
  refine Set.disjoint_left.mpr fun x hxv hxw => ?_
  exact hfresh x hxw.1 hxw.2 (mem_emitted.mpr ⟨u, hu, hxv⟩)

/-- One write of missing bytes, credited to its block. -/
theorem Tracked.emits {s : Session Z} (h : Tracked s) {rx : BlockReceiver Z}
    (hstreams : StreamsOk rx) (hblocks : rx.blocks = s.rx.blocks) (hleft : rx.left = s.rx.left)
    (hcompleted : rx.completed = s.rx.completed) {b : Block}
    (hb : b ∈ s.rx.blocks) {w : BlockWrite}
    (hin : b.1 ≤ w.offset ∧ w.offset + w.data.length ≤ b.2) (hne : w.data ≠ [])
    (hfresh : ∀ x, w.offset ≤ x → x < w.offset + w.data.length → x ∉ emitted s.writes)
    (c : Content) :
    Tracked { s with
      rx := rx.credit b.1 w.data.length
      log := s.log ++ (Session.handed (.ok [w])).map fun w => (c, w) } := by
  have hlen : 0 < w.data.length := List.length_pos_iff.mpr hne
  have hcard := card_missingOf_append hin hfresh
  have hcount := h.count b hb
  -- bytes of the block are missing, so it is still outstanding
  obtain ⟨rem, hrem⟩ : ∃ rem, get s.rx.left b.1 = some rem := by
    obtain hnone | hsome := Option.eq_none_or_eq_some (get s.rx.left b.1)
    · rw [hnone, Option.getD_none] at hcount
      omega
    · exact hsome
  rw [hrem, Option.getD_some] at hcount
  have hrem' : get rx.left b.1 = some rem := by rw [hleft, hrem]
  have hother : ∀ a ∈ s.rx.blocks, a ≠ b → a.1 ≠ b.1 := fun a ha hab heq =>
    hab (h.eq_of_start ha hb heq)
  have hwrites := writes_packet s c (.ok [w]) (rx.credit b.1 w.data.length)
  have hleft' : ∀ k, get (rx.credit b.1 w.data.length).left k =
      if k = b.1 then (if rem - w.data.length = 0 then none else some (rem - w.data.length))
      else get s.rx.left k := by
    intro k
    rw [left_credit hrem', hleft]
  refine ⟨?_, ?_, hstreams.credit _ _, ?_, ?_, ?_, ?_, ?_⟩
  · rw [blocks_credit, hblocks]
    exact h.nonempty
  · rw [blocks_credit, hblocks]
    exact h.apart
  · rw [hwrites]
    exact once_append h.once hfresh
  · rw [hwrites, blocks_credit, hblocks]
    intro v hv
    rcases List.mem_append.mp hv with hv | hv
    · exact h.inside v hv
    · rw [Session.handed, List.mem_singleton] at hv
      rw [hv]
      exact ⟨hne, b, hb, hin⟩
  · rw [blocks_credit, hblocks]
    intro k n hk
    rw [hleft'] at hk
    split_ifs at hk with hkb hz
    · cases hk
      exact ⟨Nat.pos_of_ne_zero hz, b, hb, hkb.symm⟩
    · exact h.keys k n hk
  · rw [blocks_credit, hblocks, hwrites]
    intro a ha
    show (missingOf (s.writes ++ [w]) a).card = _
    rw [hleft']
    by_cases hab : a = b
    · subst hab
      rw [if_pos rfl]
      split_ifs with hz
      · rw [Option.getD_none]
        omega
      · rw [Option.getD_some]
        omega
    · rw [if_neg (hother a ha hab), missingOf_append_apart, h.count a ha]
      intro x hle hlt hxa
      exact hab (h.eq_of_meet ha hb hxa ⟨by omega, by omega⟩)
  · rw [completed_credit hrem', blocks_credit, hblocks, hcompleted]
    intro a ha
    rw [hleft']
    rw [List.append_assoc, List.mem_append, List.mem_append] at ha
    have hold : a ∈ s.rx.completed ++ s.reported → a ∈ s.rx.blocks ∧
        (if a.1 = b.1 then (if rem - w.data.length = 0 then none else some (rem - w.data.length))
          else get s.rx.left a.1) = none := by
      intro hmem
      obtain ⟨hmem, hnone⟩ := h.closed a hmem
      have hstart : a.1 ≠ b.1 := by
        intro heq
        rw [heq, hrem] at hnone
        cases hnone
      exact ⟨hmem, by rw [if_neg hstart]; exact hnone⟩
    rcases ha with ha | ha | ha
    · exact hold (List.mem_append_left _ ha)
    · split_ifs at ha with hz
      · rw [blockAt_congr hblocks, Option.mem_toList] at ha
        obtain ⟨hmem, hstart⟩ := blockAt_mem ha
        exact ⟨hmem, by rw [if_pos hstart, if_pos hz]⟩
      · cases ha
    · exact hold (List.mem_append_right _ ha)

/-! ## Packets that bring missing bytes -/

/-- How far the stream of the block at `start` has been written. -/
def streamPos (rx : BlockReceiver Z) (start : Nat) : Nat :=
  (get rx.packed start).elim 0 PackedBlock.written

/-- A raw packet brings only bytes not emitted yet; nothing of the block a compressed packet
    names has been emitted from its stream's position on. -/
def Brings (s : Session Z) : Content → Prop
  | .raw start stop _ => ∀ x, start ≤ x → x < stop → x ∉ emitted s.writes
  | .packed start _ => ∀ b, s.rx.blockAt start = some b →
      ∀ x, b.1 + streamPos s.rx start ≤ x → x < b.2 → x ∉ emitted s.writes
  | _ => True

def Fresh (s : Session Z) : RxEvent → Prop
  | .packet opcode payload => Brings s (content s.rx.hash opcode payload)
  | _ => True

/-- A top-up asks for non-empty blocks that share no byte with each other or with any block
    requested before. -/
def AddsApart (s : Session Z) : RxEvent → Prop
  | .addBlocks bs => (∀ b ∈ bs, b.1 < b.2) ∧ (s.rx.blocks ++ bs).Pairwise Separate
  | _ => True

theorem feeds_written {rx : BlockReceiver Z} {start : Nat} {frag : Bytes} {b : Block}
    {pb : PackedBlock Z} (hf : Feeds rx start frag b pb) : pb.written = streamPos rx start := by
  have hentry := hf.entry
  unfold packedEntry at hentry
  unfold streamPos
  split at hentry
  · rename_i pb' hpb
    cases hentry
    rw [hpb]
    rfl
  · rename_i hnone
    split_ifs at hentry
    cases hentry
    rw [hnone]
    rfl

/-- A packet that hands nothing over changes no counter. -/
theorem Tracked.quiet {s : Session Z} (h : Tracked s) {rx : BlockReceiver Z}
    (hstreams : StreamsOk rx) (hblocks : rx.blocks = s.rx.blocks) (hleft : rx.left = s.rx.left)
    (hcompleted : rx.completed = s.rx.completed) {out : Outcome}
    (hout : Session.handed out = []) (c : Content) :
    Tracked { s with rx := rx, log := s.log ++ (Session.handed out).map fun w => (c, w) } := by
  have hwrites := writes_packet s c out rx
  rw [hout, List.append_nil] at hwrites
  refine ⟨?_, ?_, hstreams, ?_, ?_, ?_, ?_, ?_⟩
  · rw [hblocks]; exact h.nonempty
  · rw [hblocks]; exact h.apart
  · rw [hout, hwrites]; exact h.once
  · rw [hout, hwrites, hblocks]; exact h.inside
  · rw [hleft, hblocks]; exact h.keys
  · rw [hout, hwrites, hblocks, hleft]; exact h.count
  · rw [hcompleted, hblocks, hleft]; exact h.closed

theorem Tracked.packet {s s' : Session Z} (h : Tracked s) {opcode : UInt8} {payload : Bytes}
    (hfresh : Fresh s (.packet opcode payload)) (hs : s.step (.packet opcode payload) = some s') :
    Tracked s' := by
  obtain ⟨out, rx, heff, rfl⟩ := Session.step_packet hs
  have hbrings : Brings s (content s.rx.hash opcode payload) := hfresh
  obtain ⟨c, hc⟩ : ∃ c, content s.rx.hash opcode payload = c := ⟨_, rfl⟩
  rw [hc] at heff hbrings ⊢
  cases heff with
  | ignored => exact h.quiet h.streams rfl rfl rfl rfl _
  | refused => exact h.quiet h.streams rfl rfl rfl rfl _
  | spoiled hf => exact h.quiet (h.streams.store_grown hf) rfl rfl rfl rfl _
  | silent hf => exact h.quiet (h.streams.store_grown hf) rfl rfl rfl rfl _
  | @raw start stop data owner hlt heof hlen howner =>
    obtain ⟨hmem, hle, hge⟩ := containingBlock_mem howner
    have hne : data ≠ [] := by
      rintro rfl
      rw [List.length_nil] at hlen
      omega
    refine h.emits h.streams rfl rfl rfl hmem (w := ⟨start, data⟩) ⟨hle, ?_⟩ hne ?_ _
    · show start + data.length ≤ owner.2
      omega
    · intro x hx hx'
      refine hbrings x hx ?_
      have : x < start + data.length := hx'
      omega
  | @inflated start frag b pb hf hne =>
    obtain ⟨hmem, hstart⟩ := blockAt_mem hf.blockAt
    obtain ⟨ht, -, hw, ho⟩ := h.streams.grown hf
    have hstored : StreamsOk (s.rx.store start (advanced pb frag)) := h.streams.store_advanced hf
    have htotal : (BlockReceiver.grown pb frag).total = pb.total := rfl
    have hlt := h.nonempty b hmem
    have hpos := feeds_written hf
    subst hstart
    refine h.emits (w := ⟨b.1 + pb.written, (inflate pb frag).output⟩) hstored
      rfl rfl rfl hmem ⟨Nat.le_add_right _ _, ?_⟩ hne ?_ _
    · show b.1 + pb.written + (inflate pb frag).output.length ≤ b.2
      omega
    · intro x hx hx'
      have hx₁ : b.1 + pb.written ≤ x := hx
      have hx₂ : x < b.1 + pb.written + (inflate pb frag).output.length := hx'
      exact hbrings b hf.blockAt x (by omega) (by omega)

/-! ## Top-ups and the start -/

theorem Tracked.addBlock {s : Session Z} (h : Tracked s) {c : Block} (hc : c.1 < c.2)
    (hapart : ∀ b ∈ s.rx.blocks, Separate b c) :
    Tracked { s with rx := s.rx.addBlock c } ∧
      (s.rx.addBlock c).blocks = s.rx.blocks ++ [c] := by
  have hstart : ∀ b ∈ s.rx.blocks, b.1 ≠ c.1 := by
    intro b hb heq
    have hlt := h.nonempty b hb
    have hsep := hapart b hb
    unfold Separate at hsep
    omega
  have hnone : get s.rx.left c.1 = none := by
    by_contra hsome
    obtain ⟨n, hn⟩ := Option.ne_none_iff_exists'.mp hsome
    obtain ⟨-, b, hb, heq⟩ := h.keys _ _ hn
    exact hstart b hb heq
  have hadd : s.rx.addBlock c =
      { s.rx with blocks := s.rx.blocks ++ [c], left := write s.rx.left c.1 (c.2 - c.1) } := by
    rw [BlockReceiver.addBlock, if_pos ⟨hc, hnone⟩]
  have hstreams : StreamsOk (s.rx.addBlock c) := h.streams.addBlocks [c]
  rw [hadd] at hstreams ⊢
  refine ⟨⟨?_, ?_, hstreams, h.once, ?_, ?_, ?_, ?_⟩, rfl⟩
  · intro b hb
    rcases List.mem_append.mp hb with hb | hb
    · exact h.nonempty b hb
    · rw [List.mem_singleton.mp hb]
      exact hc
  · rw [List.pairwise_append]
    refine ⟨h.apart, List.pairwise_singleton _ _, fun a ha b hb => ?_⟩
    rw [List.mem_singleton.mp hb]
    exact hapart a ha
  · intro w hw
    obtain ⟨hne, b, hb, hin⟩ := h.inside w hw
    exact ⟨hne, b, List.mem_append_left _ hb, hin⟩
  · intro k n hk
    rw [get_write] at hk
    split_ifs at hk with heq
    · cases hk
      exact ⟨by omega, c, List.mem_append_right _ (List.mem_singleton_self c), heq.symm⟩
    · obtain ⟨hpos, b, hb, hbk⟩ := h.keys k n hk
      exact ⟨hpos, b, List.mem_append_left _ hb, hbk⟩
  · intro b hb
    show (missingOf s.writes b).card = _
    rw [get_write]
    rcases List.mem_append.mp hb with hb | hb
    · rw [if_neg (hstart b hb)]
      exact h.count b hb
    · rw [List.mem_singleton.mp hb, if_pos rfl, Option.getD_some]
      have hall : missingOf s.writes c = Finset.Ico c.1 c.2 := by
        refine Finset.filter_true_of_mem fun x hx hmem => ?_
        obtain ⟨w, hw, hxw⟩ := mem_emitted.mp hmem
        obtain ⟨-, b', hb', hin⟩ := h.inside w hw
        have hsep := hapart b' hb'
        rw [Finset.mem_Ico] at hx
        unfold Separate at hsep
        omega
      rw [hall, Nat.card_Ico]
  · intro b hb
    obtain ⟨hmem, hl⟩ := h.closed b hb
    refine ⟨List.mem_append_left _ hmem, ?_⟩
    rw [get_write, if_neg (hstart b hmem)]
    exact hl

theorem Tracked.addBlocks {s : Session Z} (h : Tracked s) {bs : List Block}
    (hbs : ∀ b ∈ bs, b.1 < b.2) (hapart : (s.rx.blocks ++ bs).Pairwise Separate) :
    Tracked { s with rx := s.rx.addBlocks bs } ∧
      (s.rx.addBlocks bs).blocks = s.rx.blocks ++ bs := by
  induction bs generalizing s with
  | nil => exact ⟨h, (List.append_nil _).symm⟩
  | cons c bs ih =>
    obtain ⟨hc, htail⟩ := List.forall_mem_cons.mp hbs
    have hfirst : ∀ b ∈ s.rx.blocks, Separate b c := fun b hb =>
      (List.pairwise_append.mp hapart).2.2 b hb c (List.mem_cons_self ..)
    obtain ⟨hadd, hblocks⟩ := h.addBlock hc hfirst
    have hrest : ((s.rx.addBlock c).blocks ++ bs).Pairwise Separate := by
      rw [hblocks, List.append_assoc]
      exact hapart
    obtain ⟨hall, hblocks'⟩ := ih hadd htail hrest
    refine ⟨hall, hblocks'.trans ?_⟩
    show (s.rx.addBlock c).blocks ++ bs = _
    rw [hblocks, List.append_assoc]
    rfl

theorem tracked_start {hash : Hash16} {fileSize : Nat} {blocks : List Block} {s : Session Z}
    (hne : ∀ b ∈ blocks, b.1 < b.2) (hapart : blocks.Pairwise Separate)
    (h : Session.start Z hash fileSize blocks = some s) : Tracked s := by
  have hstarts : (blocks.map Prod.fst).Nodup := by
    refine List.pairwise_map.mpr (hapart.imp_of_mem fun {a b} ha hb hsep heq => ?_)
    have hlt := hne a ha
    have hlt' := hne b hb
    unfold Separate at hsep
    omega
  rw [Session.start, new_eq_addBlocks hne hstarts] at h
  cases h
  have hempty : Tracked (⟨⟨hash, fileSize, [], [], [], []⟩, [], []⟩ : Session Z) := by
    refine ⟨?_, List.Pairwise.nil, ?_, List.Pairwise.nil, ?_, ?_, ?_, ?_⟩
    · intro b hb
      cases hb
    · intro k pb hk
      cases hk
    · intro w hw
      cases hw
    · intro k n hk
      cases hk
    · intro b hb
      cases hb
    · intro b hb
      cases hb
  exact (hempty.addBlocks hne hapart).1

theorem Tracked.step {s s' : Session Z} {e : RxEvent} (h : Tracked s)
    (hok : AddsApart s e ∧ Fresh s e) (hs : s.step e = some s') : Tracked s' := by
  cases e with
  | packet opcode payload => exact h.packet hok.2 hs
  | addBlocks bs =>
    cases hs
    exact (h.addBlocks hok.1.1 hok.1.2).1
  | takeCompleted =>
    cases hs
    refine ⟨h.nonempty, h.apart, h.streams, h.once, h.inside, h.keys, h.count, fun b hb => ?_⟩
    refine h.closed b ?_
    have hb' : b ∈ [] ++ (s.reported ++ s.rx.completed) := hb
    rw [List.nil_append, List.mem_append] at hb'
    exact List.mem_append.mpr hb'.symm

theorem throughout_and {ok ok' : Session Z → RxEvent → Prop} {s : Session Z} {es : List RxEvent}
    (h : s.Throughout ok es) (h' : s.Throughout ok' es) :
    s.Throughout (fun s e => ok s e ∧ ok' s e) es := by
  induction es generalizing s with
  | nil => trivial
  | cons e es ih => exact ⟨⟨h.1, h'.1⟩, fun s' hs' => ih (h.2 s' hs') (h'.2 s' hs')⟩

/-- While every packet brings missing bytes, no offset is emitted twice, no more is emitted
    than was requested, and a block is reported, or the receiver done, only when every byte
    has been emitted. -/
theorem accepted_at_most_once {hash : Hash16} {fileSize : Nat} {blocks : List Block}
    {s₀ s : Session Z} {events : List RxEvent} (hne : ∀ b ∈ blocks, b.1 < b.2)
    (hapart : blocks.Pairwise Separate)
    (h₀ : Session.start Z hash fileSize blocks = some s₀)
    (hadds : s₀.Throughout AddsApart events) (hfresh : s₀.Throughout Fresh events)
    (hrun : s₀.run events = some s) :
    (s.writes.Pairwise fun v w => Disjoint (Set.Ico v.offset (v.offset + v.data.length))
      (Set.Ico w.offset (w.offset + w.data.length))) ∧
    (s.writes.map fun w => w.data.length).sum ≤ (s.rx.blocks.map fun b => b.2 - b.1).sum ∧
    (∀ b ∈ s.rx.completed ++ s.reported, Covered s.writes b) ∧
    (s.rx.isDone = true → ∀ b ∈ s.rx.blocks, Covered s.writes b) := by
  have h : Tracked s := Session.run_induct (fun _ _ _ h hok hs => h.step hok hs)
    (tracked_start hne hapart h₀) (throughout_and hadds hfresh) hrun
  have honce : (s.writes.map BlockWrite.span).Pairwise fun v w =>
      Disjoint (Set.Ico v.start v.stop) (Set.Ico w.start w.stop) := h.once
  refine ⟨(List.pairwise_map (f := BlockWrite.span)).mp honce, ?_, fun b hb => ?_, fun hdone b hb => ?_⟩
  · have hle := total_le_of_cover (m := s.rx.blocks.map fun b => ⟨b.1, b.2⟩) h.once
      (fun x hx => by
        obtain ⟨w, hw, hxw⟩ := mem_emitted.mp hx
        obtain ⟨-, b, hb, hin⟩ := h.inside w hw
        exact ⟨⟨b.1, b.2⟩, List.mem_map_of_mem hb, by show b.1 ≤ x; omega,
          by show x < b.2; omega⟩)
    simp only [total, List.map_map] at hle
    have hspan : (fun s : Span Nat => s.stop - s.start) ∘ BlockWrite.span =
        fun w => w.data.length := by
      funext w
      exact Nat.add_sub_cancel_left ..
    rwa [hspan] at hle
  · obtain ⟨hmem, hl⟩ := h.closed b hb
    refine covered_of_missing ?_
    rw [h.count b hmem, hl]
    rfl
  · refine covered_of_missing ?_
    have hnil : s.rx.left = [] := List.isEmpty_iff.mp hdone
    rw [h.count b hb, hnil]
    rfl

/-- A block in two raw pieces. -/
def pieceAt (start stop : UInt64) (data : Bytes) : RxEvent :=
  .packet OP_SENDINGPART (rawPayload (.fill 16 0) false start stop data)

theorem two_pieces_once :
    ∃ s₀ s, Session.start storedZlib (.fill 16 0) 100 [(0, 2)] = some s₀ ∧
      s₀.run [pieceAt 1 2 [9], pieceAt 0 1 [8], .takeCompleted] = some s ∧
      s.reported = [(0, 2)] ∧ Covered s.writes (0, 2) := by
  obtain ⟨s₀, h₀⟩ : ∃ s₀, Session.start storedZlib (.fill 16 0) 100 [(0, 2)] = some s₀ := ⟨_, rfl⟩
  have hfirst : ((Session.start storedZlib (.fill 16 0) 100 [(0, 2)]).bind fun s =>
      s.step (pieceAt 1 2 [9])).map (fun s => (s.rx.hash, s.writes)) =
        some (.fill 16 0, [⟨1, [9]⟩]) := by decide +kernel
  have hall : ((Session.start storedZlib (.fill 16 0) 100 [(0, 2)]).bind fun s =>
      s.run [pieceAt 1 2 [9], pieceAt 0 1 [8], .takeCompleted]).map Session.reported =
        some [(0, 2)] := by decide +kernel
  rw [h₀, Option.bind_some] at hfirst hall
  obtain ⟨s, hrun, hreported⟩ := Option.map_eq_some_iff.mp hall
  have hfresh : s₀.Throughout Fresh [pieceAt 1 2 [9], pieceAt 0 1 [8], .takeCompleted] := by
    refine ⟨?_, fun s₁ h₁ => ⟨?_, fun _ _ => ⟨trivial, fun _ _ => trivial⟩⟩⟩
    · obtain ⟨hh, -, -, -, -, hlog, -, -⟩ := start_eq h₀
      show Brings s₀ (content s₀.rx.hash (rawOpcode false) _)
      rw [hh, @content_rawPayload (.fill 16 0) false 1 2 [9] (by decide)]
      intro x _ _
      simp [emitted, Session.writes, hlog]
    · obtain ⟨s₁', hs₁, heq⟩ := Option.map_eq_some_iff.mp hfirst
      rw [h₁] at hs₁
      cases hs₁
      rw [Prod.mk.injEq] at heq
      show Brings s₁ (content s₁.rx.hash (rawOpcode false) _)
      rw [heq.1, @content_rawPayload (.fill 16 0) false 0 1 [8] (by decide)]
      intro x _ hx
      have hlt : x < 1 := hx
      rw [heq.2, mem_emitted]
      simp
      omega
  have hadds : s₀.Throughout AddsApart [pieceAt 1 2 [9], pieceAt 0 1 [8], .takeCompleted] :=
    ⟨trivial, fun _ _ => ⟨trivial, fun _ _ => ⟨trivial, fun _ _ => trivial⟩⟩⟩
  obtain ⟨-, -, hdone, -⟩ := accepted_at_most_once (by simp) (List.pairwise_singleton _ _) h₀
    hadds hfresh hrun
  exact ⟨s₀, s, h₀, hrun, hreported, hdone (0, 2) (by rw [hreported]; simp)⟩

/-- The first piece of a block twice: one offset in two writes, and the block is reported and
    the receiver done although its second byte never came. -/
theorem repeated_piece_closes_block :
    ∃ s₀ s, Session.start storedZlib (.fill 16 0) 100 [(0, 2)] = some s₀ ∧
      s₀.run [pieceAt 0 1 [8], pieceAt 0 1 [8], .takeCompleted] = some s ∧
      s.writes = [⟨0, [8]⟩, ⟨0, [8]⟩] ∧ s.reported = [(0, 2)] ∧ s.rx.isDone = true ∧
      1 ∉ emitted s.writes := by
  obtain ⟨s₀, h₀⟩ : ∃ s₀, Session.start storedZlib (.fill 16 0) 100 [(0, 2)] = some s₀ := ⟨_, rfl⟩
  have hrun : ((Session.start storedZlib (.fill 16 0) 100 [(0, 2)]).bind fun s =>
      s.run [pieceAt 0 1 [8], pieceAt 0 1 [8], .takeCompleted]).map
        (fun s => (s.writes, s.reported, s.rx.isDone)) =
          some ([⟨0, [8]⟩, ⟨0, [8]⟩], [(0, 2)], true) := by decide +kernel
  rw [h₀] at hrun
  obtain ⟨s, hs, heq⟩ := Option.map_eq_some_iff.mp hrun
  simp only [Prod.mk.injEq] at heq
  obtain ⟨hw, hr, hd⟩ := heq
  refine ⟨s₀, s, h₀, hs, hw, hr, hd, ?_⟩
  rw [hw]
  decide

end PadMule.Engine
