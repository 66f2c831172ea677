import PadMule.Engine.ServeLog

/-
  `mule-engine/src/share.rs`: what one packet does to a serve connection.

  `Serving.Ok` ties a session to its log: between two awaits the permit is held exactly when the
  log says "granted", and the ranges remembered are the last ones of the slot session. `Since` is
  what a handler has added to a connection. A handler goes on (`Going`) or returns (`Gone`), and
  keeps both either way; `leads_onPacket` is this for every packet.
-/

namespace PadMule.Engine

open PadMule.Proto

/-- A block is what its file holds in the range it names. -/
structure Carries (disk : Disk) (library : List SharedFile) (f : SharedFile) (hash : Hash16)
    (start stop : UInt64) (data : Bytes) : Prop where
  shared : f ∈ library
  names : hash = f.hash
  nonempty : start < stop
  inside : stop ≤ f.size
  window : stop.toNat - start.toNat ≤ 3 * EMBLOCKSIZE
  bytes : ∃ content, disk f.path = some content ∧ content.length = f.size.toNat ∧
    data = (content.drop start.toNat).take (stop.toNat - start.toNat)

/-- The phases in which permit and log agree. -/
def ServePhase.Steady : ServePhase → Prop
  | .ready | .wanting | .queueing | .waiting _ | .deciding => True
  | _ => False

/-- The phases without a permit: on the way to one, and at the end. -/
def ServePhase.Asking : ServePhase → Prop
  | .wanting | .queueing | .waiting _ => True
  | _ => False

def ServePhase.Bare (phase : ServePhase) : Prop := phase.Asking ∨ phase = .over

/-- The phases of a slot that is up. -/
def ServePhase.Ending (phase : ServePhase) : Prop := phase = .deciding ∨ phase = .revoking

variable {κ : Type} {disk : Disk}

/-! ## What holds between two awaits -/

structure Serving.Ok (disk : Disk) (s : Serving κ) : Prop where
  log : ServeLog.Ok s.args s.log
  file : ∀ f, s.file = some f → f ∈ s.args.library ∧ f.onDisk disk = true
  gated : s.permit = true → s.args.gated = true
  bare : s.phase.Bare → s.permit = false
  asking : s.phase.Asking → s.args.gated = true
  ending : s.phase.Ending → s.permit = true
  slot : s.phase.Steady → s.args.gated = true → ServeLog.granted s.log = s.permit
  recent : s.phase.Steady → s.recentlySent = (ServeLog.slotRanges s.log).rtake DEDUP_DEPTH
  held : s.phase ≠ .over → s.args.gated = true → ServeLog.granted s.log = true → s.permit = true
  revoked : s.phase = .revoking →
    ServeLog.granted s.log = false ∧ ServeLog.slotRanges s.log = []

theorem Serving.ok_opened (args : ServeArgs) (sec : Option (ServeSec κ)) (writes reads : Nat) :
    (opened args sec writes reads).Ok disk where
  log := ServeLog.ok_nil args
  file _ hf := by cases hf
  gated h := by cases h
  bare _ := rfl
  asking h := h.elim
  ending h := by rcases h with h | h <;> cases h
  slot _ _ := rfl
  recent _ := rfl
  held _ _ h := by cases h
  revoked h := by cases h

namespace Serving.Ok

variable {s : Serving κ}

theorem quit (h : s.Ok disk) (hlive : s.phase ≠ .over) : s.quit.Ok disk where
  log := h.log
  file := h.file
  gated := h.gated
  bare hbare := hbare.elim False.elim (by rintro ⟨⟩)
  asking hasking := hasking.elim
  ending hending := by rcases hending with hend | hend <;> cases hend
  slot hsteady := hsteady.elim
  recent hsteady := hsteady.elim
  held _ := h.held hlive
  revoked hrev := by cases hrev

/-- More of a log that says the same about slots. -/
theorem withLog (h : s.Ok disk) {log : List ServeEffect} (writes : Nat)
    (hlog : ServeLog.Ok s.args log) (hgranted : ServeLog.granted log = ServeLog.granted s.log)
    (hslot : ServeLog.slotRanges log = ServeLog.slotRanges s.log) :
    Ok disk { s with writes := writes, log := log } where
  log := hlog
  file := h.file
  gated := h.gated
  bare := h.bare
  asking := h.asking
  ending := h.ending
  slot hsteady hgated := hgranted.trans (h.slot hsteady hgated)
  recent hsteady := (h.recent hsteady).trans (by rw [← hslot])
  held hlive hgated hg := h.held hlive hgated (hgranted ▸ hg)
  revoked hrev := by
    obtain ⟨hg, hr⟩ := h.revoked hrev
    exact ⟨hgranted.trans hg, hslot.trans hr⟩

/-- From one phase in which permit and log agree to another. -/
theorem turn (h : s.Ok disk) (hsteady : s.phase.Steady) {phase : ServePhase}
    (hsteady' : phase.Steady) (hbare : phase.Asking → s.permit = false ∧ s.args.gated = true)
    (hending : phase = .deciding → s.permit = true) : Ok disk { s with phase := phase } where
  log := h.log
  file := h.file
  gated := h.gated
  bare hb := by
    rcases hb with hasking | hover
    · exact (hbare hasking).1
    · rw [show phase = .over from hover] at hsteady'
      exact hsteady'.elim
  asking hasking := (hbare hasking).2
  ending hend := by
    rcases hend with hend | hend
    · exact hending hend
    · rw [show phase = .revoking from hend] at hsteady'
      exact hsteady'.elim
  slot _ := h.slot hsteady
  recent _ := h.recent hsteady
  held _ hgated hg := (h.slot hsteady hgated).symm.trans hg
  revoked hrev := by
    rw [show phase = .revoking from hrev] at hsteady'
    exact hsteady'.elim

end Serving.Ok

/-! ## What a handler adds -/

/-- The blocks among `new` are what the latched file holds, and sent under a permit. -/
def BlocksOf (disk : Disk) (s : Serving κ) (new : List ServeEffect) : Prop :=
  ∀ hash start stop data, .sent (.sendingPart hash start stop data) ∈ new →
    (s.args.gated = true → s.permit = true) ∧
      ∃ f, s.file = some f ∧ Carries disk s.args.library f hash start stop data

structure Since (disk : Disk) (s₀ s : Serving κ) : Prop where
  args : s.args = s₀.args
  permit : s.permit = s₀.permit
  new : ∃ new, s.log = s₀.log ++ new ∧ BlocksOf disk s₀ new

theorem Since.refl (s : Serving κ) : Since disk s s :=
  ⟨rfl, rfl, [], (List.append_nil _).symm, fun _ _ _ _ h => absurd h List.not_mem_nil⟩

/-- Entries that are no blocks. -/
theorem Since.concat {s₀ s s' : Serving κ} (h : Since disk s₀ s) {e : ServeEffect}
    (hargs : s'.args = s.args) (hpermit : s'.permit = s.permit) (hlog : s'.log = s.log ++ [e])
    (hrange : e.range = none) : Since disk s₀ s' := by
  obtain ⟨new, hnew, hparts⟩ := h.new
  refine ⟨hargs.trans h.args, hpermit.trans h.permit, new ++ [e], ?_, ?_⟩
  · rw [hlog, hnew, List.append_assoc]
  · intro hash start stop data hmem
    rcases List.mem_append.mp hmem with hmem | hmem
    · exact hparts hash start stop data hmem
    · rw [← List.mem_singleton.mp hmem] at hrange
      cases hrange

theorem Since.same {s₀ s s' : Serving κ} (h : Since disk s₀ s) (hargs : s'.args = s.args)
    (hpermit : s'.permit = s.permit) (hlog : s'.log = s.log) : Since disk s₀ s' :=
  ⟨hargs.trans h.args, hpermit.trans h.permit, hlog ▸ h.new⟩

/-- `p` where a handler goes on, `q` where it returns. -/
def Leads {σ : Type} (p q : σ → Prop) : Except σ σ → Prop
  | .ok s => p s
  | .error s => q s

theorem Leads.bind {σ : Type} {p p' q : σ → Prop} {m : Except σ σ} {f : σ → Except σ σ}
    (hm : Leads p q m) (hf : ∀ s, p s → Leads p' q (f s)) : Leads p' q (m >>= f) := by
  cases m with
  | ok s => exact hf s hm
  | error s => exact hm

theorem Leads.imp {σ : Type} {p p' q q' : σ → Prop} {m : Except σ σ} (hm : Leads p q m)
    (hp : ∀ s, p s → p' s) (hq : ∀ s, q s → q' s) : Leads p' q' m := by
  cases m with
  | ok s => exact hp s hm
  | error s => exact hq s hm

theorem Leads.ite {σ : Type} {p q : σ → Prop} {c : Prop} [Decidable c] {m m' : Except σ σ}
    (hthen : Leads p q m) (helse : Leads p q m') : Leads p q (if c then m else m') := by
  split_ifs
  · exact hthen
  · exact helse

theorem Leads.foldlM {σ β : Type} {p q : σ → Prop} {f : σ → β → Except σ σ} {bs : List β}
    (hf : ∀ b ∈ bs, ∀ s, p s → Leads p q (f s b)) {s : σ} (hs : p s) :
    Leads p q (bs.foldlM f s) := by
  induction bs generalizing s with
  | nil => exact hs
  | cons b bs ih =>
    obtain ⟨hb, hrest⟩ := List.forall_mem_cons.mp hf
    exact (hb s hs).bind fun _ ht => ih hrest ht

structure Going (disk : Disk) (s₀ s : Serving κ) : Prop where
  ok : s.Ok disk
  ready : s.phase = .ready
  since : Since disk s₀ s

structure Gone (disk : Disk) (s₀ s : Serving κ) : Prop where
  ok : s.Ok disk
  since : Since disk s₀ s

section Handlers

variable {s₀ s : Serving κ}

theorem ServeReply.Quiet.range {r : ServeReply} (h : r.Quiet) : (ServeEffect.sent r).range = none := by
  cases r <;> first | rfl | exact h.elim

theorem ServeReply.Quiet.ne {r : ServeReply} (h : r.Quiet) :
    ServeEffect.sent r ≠ .sent .acceptUpload ∧ ServeEffect.sent r ≠ .sent .outOfPartReqs := by
  constructor <;>
  · rintro ⟨⟩
    exact h

theorem Going.leave (h : Going disk s₀ s) : Leads (Going disk s₀) (Gone disk s₀) s.leave :=
  ⟨h.ok.quit (by rw [h.ready]; exact ServePhase.noConfusion), h.since.same rfl rfl rfl⟩

/-- An entry that is not about slots, blocks or credit. -/
theorem Going.concat (h : Going disk s₀ s) {e : ServeEffect} (writes : Nat)
    (hrange : e.range = none) (hcredit : ∀ userhash n now, e ≠ .uploaded userhash n now)
    (haccept : e ≠ .sent .acceptUpload) (hout : e ≠ .sent .outOfPartReqs) :
    Going disk s₀ { s with writes := writes, log := s.log ++ [e] } where
  ok := by
    refine h.ok.withLog writes (h.ok.log.concat hrange hcredit) ?_ ?_
    · rw [ServeLog.granted_concat, if_neg haccept, if_neg hout]
    · rw [ServeLog.slotRanges_concat, if_neg hout, hrange]
      exact List.append_nil _
  ready := h.ready
  since := h.since.concat rfl rfl rfl hrange

theorem Going.send (h : Going disk s₀ s) {r : ServeReply} (hr : r.Quiet) :
    Leads (Going disk s₀) (Gone disk s₀) (s.send r) := by
  unfold Serving.send
  split_ifs
  · exact h.leave
  · exact h.concat _ hr.range (fun _ _ _ => ServeEffect.noConfusion) hr.ne.1 hr.ne.2

/-- What a lookup finds is shared, and on disk. -/
theorem of_lookupShared {library : List SharedFile} {payload : Bytes} {f : SharedFile}
    (h : lookupShared disk library payload = some f) : f ∈ library ∧ f.onDisk disk = true := by
  obtain ⟨hfind, hdisk⟩ := Option.filter_eq_some_iff.mp h
  obtain ⟨hash, -, hlib⟩ := Option.bind_eq_some_iff.mp hfind
  exact ⟨List.mem_of_find?_eq_some hlib, hdisk⟩

theorem Going.latch (h : Going disk s₀ s) {f : SharedFile}
    (hf : f ∈ s₀.args.library ∧ f.onDisk disk = true) : Going disk s₀ (s.latch f) where
  ok := by
    refine { h.ok with file := fun f' hf' => ?_ }
    cases hf'
    exact ⟨by rw [Serving.latch, h.since.args]; exact hf.1, hf.2⟩
  ready := h.ready
  since := h.since.same rfl rfl rfl

theorem Going.sendAll (h : Going disk s₀ s) {replies : List ServeReply} (hr : ∀ r ∈ replies, r.Quiet) :
    Leads (Going disk s₀) (Gone disk s₀) (s.sendAll replies) := by
  exact Leads.foldlM (fun r hmem t ht => ht.send (hr r hmem)) h

/-! ### Metadata -/

theorem Going.onBrowse (h : Going disk s₀ s) (pkt : Packet) :
    Leads (Going disk s₀) (Gone disk s₀) (s.onBrowse disk pkt) := by
  unfold Serving.onBrowse
  split_ifs <;> exact h.send trivial

theorem Going.refuseFile (h : Going disk s₀ s) (payload : Bytes) :
    Leads (Going disk s₀) (Gone disk s₀) (s.refuseFile payload) := by
  unfold Serving.refuseFile
  split
  · exact h.send trivial
  · exact h

/-- A reply about a file that was found, and the latch. -/
theorem Going.sendLatch (h : Going disk s₀ s) {r : ServeReply} (hr : r.Quiet) {payload : Bytes}
    {f : SharedFile} (hf : lookupShared disk s.args.library payload = some f) :
    Leads (Going disk s₀) (Gone disk s₀) (s.send r >>= fun s => pure (s.latch f)) := by
  rw [h.since.args] at hf
  exact (h.send hr).bind fun t ht => ht.latch (of_lookupShared hf)

theorem Going.onRequestFilename (h : Going disk s₀ s) (payload : Bytes) :
    Leads (Going disk s₀) (Gone disk s₀) (s.onRequestFilename disk payload) := by
  unfold Serving.onRequestFilename
  split
  · exact h
  · rename_i f hf
    rw [h.since.args] at hf
    refine (h.send (r := .reqFilenameAnswer f.hash f.name) trivial).bind fun t ht => ?_
    dsimp only
    split_ifs
    · refine (ht.send (r := .fileDesc f.rating f.comment) trivial).bind fun u hu => ?_
      exact hu.latch (of_lookupShared hf)
    · exact ht.latch (of_lookupShared hf)

theorem Going.onSetReqFileId (h : Going disk s₀ s) (payload : Bytes) :
    Leads (Going disk s₀) (Gone disk s₀) (s.onSetReqFileId disk payload) := by
  unfold Serving.onSetReqFileId
  split
  · rename_i f hf
    exact h.sendLatch (r := .fileStatusComplete f.hash) trivial hf
  · exact h.refuseFile payload

theorem Going.onMultipacket (h : Going disk s₀ s) (pkt : Packet) :
    Leads (Going disk s₀) (Gone disk s₀) (s.onMultipacket disk pkt) := by
  unfold Serving.onMultipacket
  split
  · rename_i f hf
    exact h.sendLatch (r := .multipacketAnswer f.hash f.name _) trivial hf
  · exact h.refuseFile pkt.payload

theorem Going.onRequestSources (h : Going disk s₀ s) (env : Surroundings) (pkt : Packet) :
    Leads (Going disk s₀) (Gone disk s₀) (s.onRequestSources env pkt) := by
  unfold Serving.onRequestSources
  split
  · split_ifs
    · exact h.send trivial
    · exact h
  · exact h

theorem Going.onHashsetRequest (h : Going disk s₀ s) :
    Leads (Going disk s₀) (Gone disk s₀) s.onHashsetRequest := by
  unfold Serving.onHashsetRequest
  split
  · exact h.send trivial
  · exact h

theorem Going.onAichFileHashReq (h : Going disk s₀ s) (payload : Bytes) :
    Leads (Going disk s₀) (Gone disk s₀) (s.onAichFileHashReq disk payload) := by
  unfold Serving.onAichFileHashReq
  split
  · split_ifs
    · exact h.send trivial
    · exact h
  · exact h

theorem Going.onAichRequest (h : Going disk s₀ s) (env : Surroundings) (payload : Bytes) :
    Leads (Going disk s₀) (Gone disk s₀) (s.onAichRequest disk env payload) := by
  unfold Serving.onAichRequest
  split
  · exact h.leave
  · split <;> exact h.send trivial

theorem Going.onSecIdent (h : Going disk s₀ s) (R : Rsa κ) (pkt : Packet) :
    Leads (Going disk s₀) (Gone disk s₀) (s.onSecIdent R pkt) := by
  unfold Serving.onSecIdent
  split
  · exact h
  · rename_i sec hsec
    have hset : Going disk s₀ { s with sec := some (sec.drive R pkt.opcode pkt.payload).2.2 } :=
      ⟨{ h.ok with }, h.ready, h.since.same rfl rfl rfl⟩
    refine (hset.sendAll fun r hr => ?_).bind fun t ht => ?_
    · obtain ⟨reply, -, rfl⟩ := List.mem_map.mp hr
      trivial
    · split
      · exact ht.concat _ rfl (fun _ _ _ => ServeEffect.noConfusion) ServeEffect.noConfusion
          ServeEffect.noConfusion
      · exact ht

/-! ### Slots and blocks -/

theorem length_of_readRange {path : String} {start stop : UInt64} {data : Bytes}
    (h : readRange disk path start stop = some data) :
    data.length = stop.toNat - start.toNat ∧ ∃ content, disk path = some content ∧
      data = (content.drop start.toNat).take (stop.toNat - start.toNat) := by
  obtain ⟨content, hcontent, hread⟩ := Option.bind_eq_some_iff.mp h
  dsimp only at hread
  split_ifs at hread with hlen
  cases hread
  exact ⟨hlen, content, hcontent, rfl⟩

/-- A block of a shared file, read off the disk. -/
theorem carries_of_readRange {library : List SharedFile} {f : SharedFile} {start stop : UInt64}
    {data : Bytes} (hlib : f ∈ library) (hdisk : f.onDisk disk = true)
    (hwants : Serving.wantsBlock f start stop) (hne : start < stop)
    (hread : readRange disk f.path start stop = some data) :
    Carries disk library f f.hash start stop data where
  shared := hlib
  names := rfl
  nonempty := hne
  inside := hwants.2.1
  window := hwants.2.2
  bytes := by
    obtain ⟨-, content, hcontent, hdata⟩ := length_of_readRange hread
    rw [SharedFile.onDisk, hcontent, Option.any_some] at hdisk
    exact ⟨content, hcontent, of_decide_eq_true hdisk, hdata⟩

/-- A block and the credit booked for it. -/
def blockEffects (args : ServeArgs) (hash : Hash16) (start stop : UInt64) (data : Bytes)
    (now : UInt32) : List ServeEffect :=
  .sent (.sendingPart hash start stop data) ::
    (args.credit.map fun userhash => .uploaded userhash (.ofNat data.length) now).toList

section Block

variable {args : ServeArgs} {hash : Hash16} {start stop : UInt64} {data : Bytes} {now : UInt32}

theorem append_blockEffects (log : List ServeEffect) :
    log ++ blockEffects args hash start stop data now =
      log ++ [.sent (.sendingPart hash start stop data)] ++
        (args.credit.map fun userhash => .uploaded userhash (.ofNat data.length) now).toList := by
  rw [blockEffects, List.append_assoc]
  rfl

theorem slots_of_block (log : List ServeEffect) :
    ServeLog.granted (log ++ blockEffects args hash start stop data now) = ServeLog.granted log ∧
      ServeLog.slotRanges (log ++ blockEffects args hash start stop data now) =
        ServeLog.slotRanges log ++ [(hash, start, stop)] := by
  rw [append_blockEffects]
  cases args.credit with
  | none => simp [ServeLog.granted_concat, ServeLog.slotRanges_concat, ServeEffect.range]
  | some peer =>
    rw [Option.map_some, Option.toList_some, ServeLog.granted_concat, ServeLog.granted_concat,
      ServeLog.slotRanges_concat, ServeLog.slotRanges_concat]
    simp [ServeEffect.range]

theorem mem_blockEffects {hash' : Hash16} {start' stop' : UInt64} {data' : Bytes}
    (h : .sent (.sendingPart hash' start' stop' data') ∈
      blockEffects args hash start stop data now) :
    hash' = hash ∧ start' = start ∧ stop' = stop ∧ data' = data := by
  rcases List.mem_cons.mp h with h | h
  · cases h
    exact ⟨rfl, rfl, rfl, rfl⟩
  · obtain ⟨peer, -, hpeer⟩ := Option.map_eq_some_iff.mp (Option.mem_toList.mp h)
    cases hpeer

/-- Where both go into the log. -/
theorem ServeLog.Ok.block {log : List ServeEffect} (h : ServeLog.Ok args log)
    (hgranted : args.gated = true → ServeLog.granted log = true)
    (hnew : (hash, start, stop) ∉ (ServeLog.slotRanges log).rtake DEDUP_DEPTH)
    (hlen : data.length < 2 ^ 64) :
    ServeLog.Ok args (log ++ blockEffects args hash start stop data now) := by
  have hplaced : args.gated = true →
      ServeLog.Placed (log ++ [.sent (.sendingPart hash start stop data)]) := fun hgated =>
    (h.placed hgated).concat fun _ => hgranted hgated
  have hfresh : ServeLog.Fresh (log ++ [.sent (.sendingPart hash start stop data)]) :=
    h.fresh.concat fun x hx => by
      cases hx
      exact hnew
  have hpeer : ∀ userhash n t, .uploaded userhash n t ∈
      log ++ [.sent (.sendingPart hash start stop data)] → args.credit = some userhash := by
    intro userhash n t hmem
    rcases List.mem_append.mp hmem with hmem | hmem
    · exact h.peer userhash n t hmem
    · cases List.mem_singleton.mp hmem
  have hsize : (UInt64.ofNat data.length).toNat = data.length := UInt64.toNat_ofNat_of_lt' hlen
  have hbalanced := h.balanced
  rw [append_blockEffects]
  cases hcredit : args.credit with
  | none =>
    rw [hcredit] at hbalanced
    rw [Option.map_none, Option.toList_none, List.append_nil]
    refine ⟨hplaced, hfresh, ?_, hpeer⟩
    rw [ServeLog.credited_concat, hbalanced, hcredit]
    rfl
  | some peer =>
    rw [hcredit] at hbalanced
    rw [Option.map_some, Option.toList_some]
    refine ⟨fun hgated => (hplaced hgated).concat fun hne => absurd rfl hne,
      hfresh.concat (fun x hx => by cases hx), ?_, fun userhash n t hmem => ?_⟩
    · rw [ServeLog.credited_concat, ServeLog.credited_concat, ServeLog.dataBytes_concat,
        ServeLog.dataBytes_concat, hbalanced, hcredit]
      simp [ServeEffect.credited, ServeEffect.dataBytes, hsize]
    · rcases List.mem_append.mp hmem with hmem | hmem
      · exact hpeer userhash n t hmem
      · cases List.mem_singleton.mp hmem
        exact hcredit

end Block

theorem Serving.bookUpload_eq (s : Serving κ) (n : Nat) (now : UInt32) :
    s.bookUpload n now = { s with
      slotBytes := s.slotBytes + n
      log := s.log ++
        (s.args.credit.map fun userhash => .uploaded userhash (.ofNat n) now).toList } := by
  unfold Serving.bookUpload
  cases hcredit : s.args.credit <;> simp [hcredit, Serving.note]

/-- The session after a block went out. -/
theorem Going.blockSent (h : Going disk s₀ s) {f : SharedFile} (hfile : s.file = some f)
    (hfile₀ : s₀.file = some f) (hpermit : s₀.args.gated = true → s₀.permit = true) (now : UInt32)
    {start stop : UInt64} {data : Bytes} (hne : start < stop)
    (hwants : Serving.wantsBlock f start stop)
    (hnew : (f.hash, start, stop) ∉ s.recentlySent)
    (hread : readRange disk f.path start stop = some data) (reads writes slotBytes : Nat) :
    Going disk s₀ { s with
      reads := reads
      writes := writes
      slotBytes := slotBytes
      recentlySent := Recent.push DEDUP_DEPTH s.recentlySent (f.hash, start, stop)
      log := s.log ++ blockEffects s.args f.hash start stop data now } := by
  have hsteady : s.phase.Steady := by
    rw [h.ready]
    trivial
  obtain ⟨hlib, hdisk⟩ := h.ok.file f hfile
  obtain ⟨hlen, -⟩ := length_of_readRange hread
  have hgranted : s.args.gated = true → ServeLog.granted s.log = true := by
    intro hgated
    rw [h.ok.slot hsteady hgated, h.since.permit]
    exact hpermit (h.since.args ▸ hgated)
  obtain ⟨hgrant, hranges⟩ : ServeLog.granted (s.log ++ blockEffects s.args f.hash start stop data
      now) = _ ∧ _ := slots_of_block s.log
  have hrecent := h.ok.recent hsteady
  refine ⟨?_, h.ready, h.since.args, h.since.permit, ?_⟩
  · refine { h.ok with
      log := h.ok.log.block hgranted (hrecent ▸ hnew) ?_
      slot := fun _ hgated => hgrant.trans (h.ok.slot hsteady hgated)
      recent := fun _ => ?_
      held := fun hlive hgated hg => h.ok.held hlive hgated (hgrant ▸ hg)
      revoked := fun hrev => ?_ }
    · rw [hlen]
      exact (Nat.sub_le _ _).trans_lt stop.toNat_lt
    · show Recent.push DEDUP_DEPTH s.recentlySent _ = _
      rw [hranges, hrecent]
      exact Recent.push_rtake (by decide)
    · rw [h.ready] at hrev
      cases hrev
  · obtain ⟨new, hlog, hparts⟩ := h.since.new
    refine ⟨new ++ blockEffects s.args f.hash start stop data now, ?_, ?_⟩
    · show s.log ++ _ = _
      rw [hlog, List.append_assoc]
    · intro hash' start' stop' data' hmem
      rcases List.mem_append.mp hmem with hmem | hmem
      · exact hparts hash' start' stop' data' hmem
      · obtain ⟨rfl, rfl, rfl, rfl⟩ := mem_blockEffects hmem
        refine ⟨hpermit, f, hfile₀, ?_⟩
        exact carries_of_readRange (h.since.args ▸ hlib) hdisk hwants hne hread

/-- One block of a request, to a peer that holds the permit it needs. -/
theorem Going.serveBlock (h : Going disk s₀ s) {f : SharedFile} (hfile : s.file = some f)
    (hfile₀ : s₀.file = some f) (hpermit : s₀.args.gated = true → s₀.permit = true) (now : UInt32)
    {block : UInt64 × UInt64} (hne : block.1 < block.2) :
    Leads (fun t => Going disk s₀ t ∧ t.file = some f) (Gone disk s₀)
      (s.serveBlock disk now f block) := by
  unfold Serving.serveBlock
  split_ifs with hserve
  · obtain ⟨hwants, hnew⟩ := hserve
    unfold Serving.sendBlock
    split
    · exact h.leave
    · rename_i data hread
      split_ifs
      · exact h.leave
      · unfold Serving.send
        dsimp only
        by_cases hwrites : s.writes = 0
        · rw [if_pos hwrites]
          exact ⟨{ h.ok.quit (by rw [h.ready]; exact ServePhase.noConfusion) with
            recent := fun hsteady => hsteady.elim }, h.since.same rfl rfl rfl⟩
        · have hsent := h.blockSent hfile hfile₀ hpermit now hne hwants hnew hread (s.reads - 1)
            (s.writes - 1) (s.slotBytes + data.length)
          rw [append_blockEffects] at hsent
          rw [if_neg hwrites]
          refine ⟨?_, ?_⟩ <;> rw [Serving.bookUpload_eq]
          · exact hsent
          · exact hfile
  · exact ⟨h, hfile⟩

theorem lt_of_parseRequestParts {payload : Bytes} {i64 : Bool} {hash : Hash16}
    {blocks : List (UInt64 × UInt64)} (h : parseRequestParts payload i64 = .ok (hash, blocks)) :
    ∀ b ∈ blocks, b.1 < b.2 := by
  obtain ⟨rest, hread⟩ := parse_ok h
  obtain ⟨hash', t₁, -, h₁⟩ := Readers.ok_bind hread
  obtain ⟨starts, t₂, -, h₂⟩ := Readers.ok_bind h₁
  obtain ⟨ends, t₃, -, h₃⟩ := Readers.ok_bind h₂
  cases h₃
  exact fun b hb => of_decide_eq_true (List.mem_filter.mp hb).2

theorem Going.gone (h : Going disk s₀ s) : Gone disk s₀ s := ⟨h.ok, h.since⟩

theorem Going.turn (h : Going disk s₀ s) {phase : ServePhase} (hsteady : phase.Steady)
    (hbare : phase.Asking → s.permit = false ∧ s.args.gated = true)
    (hending : phase = .deciding → s.permit = true) : Gone disk s₀ { s with phase := phase } :=
  ⟨h.ok.turn (by rw [h.ready]; trivial) hsteady hbare hending, h.since.same rfl rfl rfl⟩

theorem Going.onStartUploadReq (h : Going disk s₀ s) :
    Leads (Gone disk s₀) (Gone disk s₀) s.onStartUploadReq := by
  unfold Serving.onStartUploadReq
  split_ifs with hfile hgrant
  · exact h.gone
  · unfold Serving.send
    split_ifs
    · exact h.leave
    · have hpermit : s.args.gated = true → s.permit = true := fun hgated =>
        hgrant.resolve_right (by simp [hgated])
      have hready : s.phase.Steady := by
        rw [h.ready]
        trivial
      exact ⟨{ h.ok with
        log := h.ok.log.concat rfl fun _ _ _ => ServeEffect.noConfusion
        slot := fun _ hgated => (ServeLog.granted_accept s.log).trans (hpermit hgated).symm
        recent := fun _ => (h.ok.recent hready).trans
          (congrArg (·.rtake DEDUP_DEPTH) (ServeLog.slotRanges_accept s.log).symm)
        held := fun _ hgated _ => hpermit hgated
        revoked := fun hrev => by
          rw [h.ready] at hrev
          cases hrev }, h.since.concat rfl rfl rfl rfl⟩
  · simp only [not_or, Bool.not_eq_true, Bool.not_eq_false] at hgrant
    exact h.turn trivial (fun _ => hgrant) ServePhase.noConfusion

theorem onRequestParts_leads (h : s.Ok disk) (hready : s.phase = .ready) (env : Surroundings)
    (pkt : Packet) : Leads (Gone disk s) (Gone disk s) (s.onRequestParts disk env pkt) := by
  have hstart : Going disk s s := ⟨h, hready, .refl s⟩
  unfold Serving.onRequestParts
  split
  · exact hstart.gone
  · rename_i f hfile
    split_ifs with hbare
    · exact hstart.gone
    · have hpermit : s.args.gated = true → s.permit = true := fun hgated => by
        simpa [hgated] using hbare
      split
      · exact hstart.leave
      · rename_i hash blocks hparse
        have hserved : Leads (fun t => Going disk s t ∧ t.file = some f) (Gone disk s)
            (blocks.foldlM (Serving.serveBlock disk env.now f) s) := by
          refine Leads.foldlM (fun block hmem t ht => ?_) ⟨hstart, hfile⟩
          exact ht.1.serveBlock ht.2 hfile hpermit env.now
            (lt_of_parseRequestParts hparse block hmem)
        refine hserved.bind fun t ht => ?_
        split_ifs with hkick
        · exact ht.1.turn trivial False.elim fun _ => hkick.2.1
        · exact ht.1.gone

theorem Leads.gone {m : Serve κ (Serving κ)} (h : Leads (Going disk s₀) (Gone disk s₀) m) :
    Leads (Gone disk s₀) (Gone disk s₀) m :=
  h.imp (fun _ => Going.gone) fun _ => id

/-- One packet, whatever it is. -/
theorem leads_dispatch (R : Rsa κ) (h : s.Ok disk) (hready : s.phase = .ready)
    (env : Surroundings) (pkt : Packet) :
    Leads (Gone disk s) (Gone disk s) (s.dispatch R disk env pkt) := by
  have hstart : Going disk s s := ⟨h, hready, .refl s⟩
  unfold Serving.dispatch
  refine .ite (hstart.onBrowse pkt).gone ?_
  refine .ite (hstart.onRequestFilename pkt.payload).gone ?_
  refine .ite (hstart.onSetReqFileId pkt.payload).gone ?_
  refine .ite (hstart.onMultipacket pkt).gone ?_
  refine .ite (hstart.onRequestSources env pkt).gone ?_
  refine .ite hstart.onHashsetRequest.gone ?_
  refine .ite (hstart.onAichFileHashReq pkt.payload).gone ?_
  refine .ite (hstart.onAichRequest env pkt.payload).gone ?_
  refine .ite hstart.onStartUploadReq ?_
  refine .ite (onRequestParts_leads h hready env pkt) ?_
  exact .ite (hstart.onSecIdent R pkt).gone hstart.gone

theorem leads_onPacket (R : Rsa κ) (h : s.Ok disk) (hready : s.phase = .ready)
    (env : Surroundings) (pkt : Packet) :
    Leads (Gone disk s) (Gone disk s) (s.onPacket R disk env pkt) := by
  -- scoring a request touches nothing but the counter
  have hscored : ∀ requests, Going disk s { s with requests := requests } := fun requests =>
    ⟨{ h with }, hready, (Since.refl s).same rfl rfl rfl⟩
  have hadmit : Leads (fun t => ∃ requests, t = { s with requests := requests }) (Gone disk s)
      (s.admitPacket env pkt) := by
    unfold Serving.admitPacket
    split_ifs
    · dsimp only
      split_ifs
      · exact ⟨_, rfl⟩
      · exact (hscored _).leave
    · exact ⟨s.requests, rfl⟩
  refine hadmit.bind fun t ht => ?_
  obtain ⟨requests, rfl⟩ := ht
  exact (leads_dispatch R (hscored requests).ok hready env pkt).imp
    (fun u hu => ⟨hu.ok, ⟨hu.since.args, hu.since.permit, hu.since.new⟩⟩)
    fun u hu => ⟨hu.ok, ⟨hu.since.args, hu.since.permit, hu.since.new⟩⟩

end Handlers

end PadMule.Engine
