import PadMule.Engine.ReceiverOnce
import PadMule.Engine.Reservations
import PadMule.Lib.Lanes

/-
  `copy_file_prefix`: bytes outside the gap list are "completed contiguous data the block
  writer never rewrites".

  No code enforces it: `commit` writes what the receiver accepted without a look at the gap
  list, and the receiver accepts bytes it has accepted before (`present_byte_rewritten`).
  What would be enough is a check where a packet comes in: the bytes it brings are still
  missing, and no write in flight covers them (`Careful`). Then every write in flight keeps
  to its own lane of missing bytes (`Guarded`), and present bytes stay as they are.
-/

namespace PadMule.Engine

open Spans Files PadMule.Proto BlockReceiver Lanes Inflate

variable {Z : Inflater}

/-! ## Writes in flight -/

/-- The bytes a commit may still write. -/
def Commit.reach (c : Commit) : Set Nat :=
  match c.state with
  | .waiting | .writing _ => Set.Ico c.start (c.start + c.data.length)
  | _ => ∅

theorem Commit.reach_subset (c : Commit) : c.reach ⊆ Set.Ico c.start (c.start + c.data.length) := by
  unfold Commit.reach
  split
  · exact subset_rfl
  · exact subset_rfl
  · exact Set.empty_subset _

/-- The bytes a session may still write for the packet it is committing. -/
def SessionPhase.reach : SessionPhase Z → Set Nat
  | .committing _ _ writes _ => emitted writes
  | _ => ∅

/-- Whoever writes to the data file. -/
inductive Writer where
  | session (i : Nat)
  | straggler (k : Nat)
deriving DecidableEq

namespace Swarm

def lane (w : Swarm Z) : Writer → Set Nat
  | .session i => (w.sessions[i]?).elim ∅ fun s => s.phase.reach
  | .straggler k => (w.dl.commits[k]?).elim ∅ Commit.reach

theorem lane_session {w : Swarm Z} {i : Nat} {s : PeerSession Z} (hi : w.sessions[i]? = some s) :
    w.lane (.session i) = s.phase.reach := by
  rw [lane, hi]
  rfl

theorem lane_straggler {w : Swarm Z} {k : Nat} {c : Commit} (hk : w.dl.commits[k]? = some c) :
    w.lane (.straggler k) = c.reach := by
  rw [lane, hk]
  rfl

end Swarm

/-- What a packet may write: its range, or its block from where its stream has got to. -/
def brought (rx : BlockReceiver Z) : Content → Set Nat
  | .raw start stop _ => Set.Ico start stop
  | .packed start _ => {x | ∃ b, rx.blockAt start = some b ∧ b.1 + streamPos rx start ≤ x ∧ x < b.2}
  | _ => ∅

/-- A packet brings bytes that are missing and that no write in flight covers; verification
    closes no byte that a write in flight covers. -/
def Swarm.Careful (w : Swarm Z) : Swarm.Label → Prop
  | .move (.receive i opcode payload) =>
    ∀ s rx noMoreBlocks, w.sessions[i]? = some s → s.phase = .fetching rx noMoreBlocks →
      ∀ x ∈ brought rx (content rx.hash opcode payload),
        x ∈ cover w.pf.gaps ∧ ∀ v, x ∉ w.lane v
  | .move _ => True
  | .verify dl => ∀ v, w.lane v ⊆ cover dl.store.pf.gaps

/-! ## One write per packet -/

/-- The inflate states are in order; a packet has at most one write, and it is the one whose
    writer is detached. -/
def SessionPhase.Sound : SessionPhase Z → Prop
  | .fetching rx _ | .toppingUp rx _ => StreamsOk rx
  | .committing rx _ writes commit =>
    StreamsOk rx ∧ writes.length ≤ 1 ∧ (∀ b ∈ writes, b.data ≠ []) ∧
      ∀ c, commit = some c → writes = [⟨c.start, c.data⟩]
  | _ => True

theorem length_handed {rx rx' : BlockReceiver Z} {c : Content} {out : Outcome}
    (he : Effect rx c out rx') : (Session.handed out).length ≤ 1 := by
  cases he <;> simp [Session.handed]

/-- What a packet writes it brought. -/
theorem emitted_subset_brought {rx rx' : BlockReceiver Z} (h : StreamsOk rx) {c : Content}
    {out : Outcome} (he : Effect rx c out rx') : emitted (Session.handed out) ⊆ brought rx c := by
  intro x hx
  obtain ⟨w, hw, hle, hlt⟩ := mem_emitted.mp hx
  cases he with
  | ignored => cases hw
  | refused => cases hw
  | spoiled => cases hw
  | silent => cases hw
  | @raw start stop data owner hin heof hlen howner =>
    rw [Session.handed, List.mem_singleton] at hw
    subst hw
    have hlt : x < start + data.length := hlt
    exact ⟨hle, by omega⟩
  | @inflated start frag b pb hf hne =>
    rw [Session.handed, List.mem_singleton] at hw
    subst hw
    obtain ⟨-, -, hout, htotal⟩ := h.grown hf
    obtain ⟨ht, -, -⟩ := h.feeds hf
    have hpos := feeds_written hf
    have hstart := (blockAt_mem hf.blockAt).2
    have hgrown : (BlockReceiver.grown pb frag).total = pb.total := rfl
    have hfits := hf.le
    have hle : start + pb.written ≤ x := hle
    have hlt : x < start + pb.written + (inflate pb frag).output.length := hlt
    exact ⟨b, hf.blockAt, by omega, by omega⟩

theorem streamsOk_new {hash : Hash16} {fileSize : Nat} {blocks : List Block}
    {rx : BlockReceiver Z} (h : BlockReceiver.new Z hash fileSize blocks = some rx) :
    StreamsOk rx := by
  unfold BlockReceiver.new at h
  split_ifs at h
  cases h
  intro k pb hk
  cases hk

/-! ## A blocking write keeps to its lane -/

/-- A blocking write moves on without touching the file, or more of its bytes land. -/
theorem advance_cases {d d' : Download} {busy : Bool} {c c' : Commit} {m : WriteMove}
    (h : d.advance busy c m = some (d', c')) :
    (d'.file = d.file ∧ c'.reach ⊆ c.reach) ∨
      ∃ done n, c.state = .writing done ∧ done + n ≤ c.data.length ∧
        d'.file = writeAllAt d.file (c.start + done) ((c.data.drop done).take n) ∧
        c' = { c with state := .writing (done + n) } := by
  cases m with
  | refuse =>
    simp only [Download.advance] at h
    split_ifs at h
    cases h
    exact .inl ⟨rfl, Set.empty_subset _⟩
  | lock =>
    simp only [Download.advance] at h
    split_ifs at h with hready
    cases h
    refine .inl ⟨rfl, ?_⟩
    simp only [Commit.reach, hready.1]
    exact subset_rfl
  | land n =>
    simp only [Download.advance] at h
    split at h
    · rename_i done hstate
      split_ifs at h with hin
      cases h
      exact .inr ⟨done, n, hstate, hin, rfl, rfl⟩
    · cases h
  | sync =>
    simp only [Download.advance] at h
    split_ifs at h
    cases h
    exact .inl ⟨rfl, Set.empty_subset _⟩
  | fail =>
    simp only [Download.advance] at h
    split at h
    · cases h
      exact .inl ⟨rfl, Set.empty_subset _⟩
    · cases h

theorem advance_reach {d d' : Download} {busy : Bool} {c c' : Commit} {m : WriteMove}
    (h : d.advance busy c m = some (d', c')) : c'.reach ⊆ c.reach := by
  rcases advance_cases h with ⟨-, hle⟩ | ⟨done, n, hstate, -, -, rfl⟩
  · exact hle
  · simp only [Commit.reach, hstate]
    exact subset_rfl

/-- A byte out of its reach stays as it is. -/
theorem advance_keeps {d d' : Download} {busy : Bool} {c c' : Commit} {m : WriteMove}
    (h : d.advance busy c m = some (d', c')) {x : Nat} (hx : x ∉ c.reach) {b : UInt8}
    (hb : d.file[x]? = some b) : d'.file[x]? = some b := by
  rcases advance_cases h with ⟨hfile, -⟩ | ⟨done, n, hstate, hin, hfile, -⟩
  · rw [hfile]
    exact hb
  · simp only [Commit.reach, hstate, Set.mem_Ico, not_and, not_lt] at hx
    have hlen : ((c.data.drop done).take n).length ≤ c.data.length - done := by
      rw [List.length_take, List.length_drop]
      exact Nat.min_le_right _ _
    have hlt : x < d.file.length := (List.getElem?_eq_some_iff.mp hb).1
    rw [hfile, getElem?_writeAllAt]
    split_ifs with hbefore hinside
    · exact hb
    · have := hx (by omega)
      omega
    · exact hb

/-! ## Every write in flight has its own missing bytes -/

structure Swarm.Guarded (w : Swarm Z) : Prop where
  gapsOk : w.pf.Ok
  sound : ∀ s ∈ w.sessions, s.phase.Sound
  stragglers : ∀ c ∈ w.dl.commits, c.data ≠ []
  lanes : KeptApart (cover w.pf.gaps) w.lane

namespace Swarm

theorem guarded_opened {store : PartStore} (hopen : Opened store) (file : Bytes) :
    Guarded (opened Z store file) where
  gapsOk := hopen.gapsOk.pf
  sound _ hs := absurd hs List.not_mem_nil
  stragglers _ hc := absurd hc List.not_mem_nil
  lanes := keptApart_empty fun v => by cases v <;> rfl

/-- Only session `i` is another one, and the lanes of all others stay as they are. -/
theorem lane_set {w u : Swarm Z} {i : Nat} {s s' : PeerSession Z} (hi : w.sessions[i]? = some s)
    (hsessions : u.sessions = w.sessions.set i s') (hcommits : u.dl.commits = w.dl.commits) :
    u.lane (.session i) = s'.phase.reach ∧ ∀ v, v ≠ .session i → u.lane v = w.lane v := by
  obtain ⟨hlt, -⟩ := List.getElem?_eq_some_iff.mp hi
  refine ⟨?_, fun v hv => ?_⟩
  · rw [lane, hsessions, List.getElem?_set_self hlt]
    rfl
  · cases v with
    | session j =>
      rw [lane, hsessions, List.getElem?_set_ne fun heq => hv (congrArg _ heq.symm)]
      rfl
    | straggler k =>
      rw [lane, hcommits]
      rfl

theorem sound_set {w : Swarm Z} (h : Guarded w) {i : Nat} {s' : PeerSession Z}
    (hs' : s'.phase.Sound) : ∀ s ∈ w.sessions.set i s', s.phase.Sound := by
  intro s hs
  rcases List.mem_or_eq_of_mem_set hs with hs | rfl
  · exact h.sound s hs
  · exact hs'

/-- Session `i` goes on with no byte it did not have before. -/
theorem Guarded.goesOn {w w' : Swarm Z} (h : Guarded w) {i : Nat} {s s' : PeerSession Z}
    (hi : w.sessions[i]? = some s) (hsessions : w'.sessions = w.sessions.set i s')
    (hcommits : w'.dl.commits = w.dl.commits) (hpf : w'.pf = w.pf) (hsound : s'.phase.Sound)
    (hreach : s'.phase.reach ⊆ s.phase.reach) : Guarded w' := by
  obtain ⟨hself, hother⟩ := lane_set hi hsessions hcommits
  have hle : ∀ v, w'.lane v ⊆ w.lane v := by
    intro v
    by_cases hv : v = .session i
    · subst hv
      rw [hself, lane_session hi]
      exact hreach
    · rw [hother v hv]
  refine ⟨hpf ▸ h.gapsOk, ?_, hcommits ▸ h.stragglers, ?_⟩
  · rw [hsessions]
    exact sound_set h hsound
  · rw [hpf]
    exact h.lanes.shrink hle fun v => (hle v).trans (h.lanes.inside v)

theorem Guarded.at {w : Swarm Z} (h : Guarded w) {i : Nat} {s : PeerSession Z}
    (hi : w.sessions[i]? = some s) {phase : SessionPhase Z} (hphase : s.phase = phase) :
    phase.Sound :=
  hphase ▸ h.sound s (List.mem_of_getElem? hi)

/-- A packet of missing bytes that no write in flight covers. -/
theorem Guarded.receives {w : Swarm Z} (h : Guarded w) {i : Nat} {s : PeerSession Z}
    {rx rx' : BlockReceiver Z} {noMoreBlocks : Bool} {opcode : UInt8} {payload : Bytes}
    {writes : List BlockWrite} (hi : w.sessions[i]? = some s)
    (hphase : s.phase = .fetching rx noMoreBlocks)
    (haccept : rx.accept opcode payload = some (.ok writes, rx'))
    (hcareful : w.Careful (.move (.receive i opcode payload))) :
    Guarded (w.setSession i { s with phase := .committing rx' noMoreBlocks writes none }) := by
  have hstreams : StreamsOk rx := h.at hi hphase
  rw [accept_eq] at haccept
  have heff := place_effect haccept
  have hbrought : emitted writes ⊆ brought rx (content rx.hash opcode payload) :=
    emitted_subset_brought hstreams heff
  have hfresh := hcareful s rx noMoreBlocks hi hphase
  obtain ⟨hself, hother⟩ := lane_set (u := w.setSession i
    { s with phase := .committing rx' noMoreBlocks writes none }) hi rfl rfl
  refine ⟨h.gapsOk, sound_set h ⟨hstreams.effect heff, length_handed heff, ?_, ?_⟩, h.stragglers, ?_⟩
  · exact fun b hb => (hstreams.handed_inside heff hb).1
  · exact fun c hc => by cases hc
  · refine h.lanes.enter (i := .session i) ?_ ?_ fun v hv => (hother v hv).le
    · rw [hself]
      exact fun x hx => (hfresh x (hbrought hx)).1
    · rw [hself]
      exact fun v _ => Set.disjoint_left.mpr fun x hx => (hfresh x (hbrought hx)).2 v

/-- The writer is done, and `commit` closes the gap. -/
theorem Guarded.closes {w : Swarm Z} (h : Guarded w) {i : Nat} {s : PeerSession Z}
    {rx : BlockReceiver Z} {noMoreBlocks : Bool} {b : BlockWrite} {writes : List BlockWrite}
    {c : Commit} (due : Bool) (hi : w.sessions[i]? = some s)
    (hphase : s.phase = .committing rx noMoreBlocks (b :: writes) (some c)) :
    Guarded { w.setSession i { s with phase := .committing rx noMoreBlocks writes none } with
      dl := (w.dl.setPf (w.pf.fillGap c.start (c.start + c.data.length))).saveMet due } := by
  obtain ⟨hstreams, -, -, hhead⟩ := h.at hi hphase
  obtain ⟨rfl, rfl⟩ := List.cons.inj (hhead c rfl)
  have hreach : w.lane (.session i) = Set.Ico c.start (c.start + c.data.length) := by
    rw [lane_session hi, hphase]
    ext x
    exact mem_emitted.trans (by simp)
  obtain ⟨hself, hother⟩ := lane_set (u :=
    { w.setSession i { s with phase := .committing rx noMoreBlocks [] none } with
      dl := (w.dl.setPf (w.pf.fillGap c.start (c.start + c.data.length))).saveMet due })
    hi rfl (commits_saveMet _ _)
  have hpf : (((w.dl.setPf (w.pf.fillGap c.start (c.start + c.data.length))).saveMet due).store).pf =
      w.pf.fillGap c.start (c.start + c.data.length) := by
    rw [store_saveMet]
    rfl
  refine ⟨?_, ?_, ?_, ?_⟩
  · show PartFile.Ok (Download.saveMet _ _).store.pf
    rw [hpf]
    exact h.gapsOk.fillGap _ _
  · exact sound_set h ⟨hstreams, Nat.zero_le _, fun _ hb => absurd hb List.not_mem_nil,
      fun _ hc => by cases hc⟩
  · show ∀ c' ∈ (Download.saveMet _ _).commits, _
    rw [commits_saveMet]
    exact h.stragglers
  · refine h.lanes.finish (i := .session i) hreach.ge ?_ (fun v hv => (hother v hv).le) ?_
    · rw [hself]
      exact fun x hx => absurd hx (by simp [SessionPhase.reach, mem_emitted])
    · show _ ⊆ cover (Download.saveMet _ _).store.pf.gaps
      rw [hpf, PartFile.cover_fillGap h.gapsOk]

/-- A session ends, and the write it had detached goes on without it. -/
theorem Guarded.leaves {w : Swarm Z} (h : Guarded w) {i : Nat} {s : PeerSession Z}
    (hi : w.sessions[i]? = some s) : Guarded (w.leave i s) := by
  have hself : (w.leave i s).lane (.session i) = ∅ := by
    obtain ⟨hlt, -⟩ := List.getElem?_eq_some_iff.mp hi
    show ((w.sessions.set i _)[i]?).elim ∅ _ = _
    rw [List.getElem?_set_self hlt]
    rfl
  have hsession : ∀ j, j ≠ i → (w.leave i s).lane (.session j) = w.lane (.session j) := by
    intro j hj
    show ((w.sessions.set i _)[j]?).elim ∅ _ = _
    rw [List.getElem?_set_ne hj.symm]
    rfl
  have hsound : ∀ t ∈ (w.leave i s).sessions, t.phase.Sound := sound_set h trivial
  cases hcommit : s.commit? with
  | none =>
    have hcommits : (w.leave i s).dl.commits = w.dl.commits := by
      simp [leave, hcommit]
    have hle : ∀ v, (w.leave i s).lane v ⊆ w.lane v := by
      intro v
      cases v with
      | session j =>
        by_cases hj : j = i
        · rw [hj, hself]
          exact Set.empty_subset _
        · rw [hsession j hj]
      | straggler k => simp [lane, hcommits]
    refine ⟨h.gapsOk, hsound, ?_, h.lanes.shrink hle fun v => (hle v).trans (h.lanes.inside v)⟩
    rw [hcommits]
    exact h.stragglers
  | some c =>
    obtain ⟨rx, noMoreBlocks, writes, hphase⟩ :
        ∃ rx noMoreBlocks writes, s.phase = .committing rx noMoreBlocks writes (some c) := by
      unfold PeerSession.commit? at hcommit
      split at hcommit
      · rename_i rx noMoreBlocks writes c' hphase
        exact ⟨rx, noMoreBlocks, writes, hphase.trans (by rw [hcommit])⟩
      · cases hcommit
    obtain ⟨-, -, hne, hhead⟩ := h.at hi hphase
    have hhead : writes = [⟨c.start, c.data⟩] := hhead c rfl
    have hcommits : (w.leave i s).dl.commits = w.dl.commits ++ [{ c with dropped := true }] := by
      simp [leave, hcommit]
    have hlast : (w.leave i s).lane (.straggler w.dl.commits.length) ⊆ w.lane (.session i) := by
      have hget : (w.leave i s).dl.commits[w.dl.commits.length]? =
          some { c with dropped := true } := by
        rw [hcommits]
        exact List.getElem?_concat_length ..
      rw [lane_straggler hget, lane_session hi, hphase, hhead]
      exact (Commit.reach_subset _).trans fun x hx => mem_emitted.mpr ⟨_, List.mem_singleton_self _, hx⟩
    refine ⟨h.gapsOk, hsound, ?_, ?_⟩
    · rw [hcommits]
      intro d hd
      rcases List.mem_append.mp hd with hd | hd
      · exact h.stragglers d hd
      · rw [List.mem_singleton.mp hd]
        exact hne ⟨c.start, c.data⟩ (by simp [hhead])
    · refine h.lanes.handOver hself hlast fun v hv hk => ?_
      cases v with
      | session j => rw [hsession j fun heq => hv (congrArg _ heq)]
      | straggler k =>
        have hne : k ≠ w.dl.commits.length := fun heq => hk (congrArg _ heq)
        rw [lane, lane, hcommits]
        rcases lt_or_gt_of_ne hne with hlt | hgt
        · rw [List.getElem?_append_left hlt]
        · rw [List.getElem?_eq_none (by simpa using hgt)]
          exact Set.empty_subset _

/-- A write left by an ended session moves on. -/
theorem Guarded.straggles {w : Swarm Z} (h : Guarded w) {k : Nat} {c c' : Commit} {m : WriteMove}
    {dl : Download} (hk : w.dl.commits[k]? = some c)
    (hadvance : w.dl.advance w.writing c m = some (dl, c')) :
    Guarded { w with dl := { dl with commits := dl.commits.set k c' } } := by
  obtain ⟨hstore, hcommits, -, -, hdata⟩ := advance_static hadvance
  have hle : ∀ v, ({ w with dl := { dl with commits := dl.commits.set k c' } } : Swarm Z).lane v ⊆
      w.lane v := by
    intro v
    cases v with
    | session j => exact subset_rfl
    | straggler j =>
      show ((dl.commits.set k c')[j]?).elim (∅ : Set Nat) Commit.reach ⊆ _
      rw [hcommits]
      by_cases hj : k = j
      · obtain ⟨hlt, -⟩ := List.getElem?_eq_some_iff.mp hk
        subst hj
        rw [List.getElem?_set_self hlt, lane_straggler hk]
        exact advance_reach hadvance
      · rw [List.getElem?_set_ne hj]
        rfl
  have hpf : dl.store.pf = w.pf := by
    rw [hstore]
    rfl
  refine ⟨?_, h.sound, ?_, ?_⟩
  · show dl.store.pf.Ok
    rw [hpf]
    exact h.gapsOk
  · intro d hd
    have hd : d ∈ dl.commits.set k c' := hd
    rw [hcommits] at hd
    rcases List.mem_or_eq_of_mem_set hd with hd | rfl
    · exact h.stragglers d hd
    · rw [hdata]
      exact h.stragglers c (List.mem_of_getElem? hk)
  · show KeptApart (cover dl.store.pf.gaps) _
    rw [hpf]
    exact h.lanes.shrink hle fun v => (hle v).trans (h.lanes.inside v)

theorem Guarded.connects {w : Swarm Z} (h : Guarded w) (status : FileStatus) :
    Guarded (w.connect status) := by
  have hle : ∀ v, (w.connect status).lane v ⊆ w.lane v := by
    intro v
    cases v with
    | session j =>
      show ((w.sessions ++ [⟨status, [], .outside⟩])[j]?).elim (∅ : Set Nat) (fun s => s.phase.reach) ⊆
        (w.sessions[j]?).elim ∅ fun s => s.phase.reach
      rcases lt_or_ge j w.sessions.length with hlt | hge
      · rw [List.getElem?_append_left hlt]
      · rw [List.getElem?_append_right hge]
        cases j - w.sessions.length <;> exact Set.empty_subset _
    | straggler k => exact subset_rfl
  refine ⟨h.gapsOk, fun s hs => ?_, h.stragglers,
    h.lanes.shrink hle fun v => (hle v).trans (h.lanes.inside v)⟩
  rcases List.mem_append.mp hs with hs | hs
  · exact h.sound s hs
  · rw [List.mem_singleton.mp hs]
    trivial

section

variable {md4 : Bytes → Hash16} {sha1 : Bytes → Hash20} {verified : LeafSpan → Prop}

theorem guarded_step {w w' : Swarm Z} {l : Label} (h : Guarded w)
    (hs : Step md4 sha1 verified w l w') (hcareful : w.Careful l) : Guarded w' := by
  have hok : w'.pf.Ok := (Swarm.sameFile h.gapsOk hs).ok
  cases hs with
  | @verify dl hstep hcommits hfile =>
    have hlanes : ({ w with dl } : Swarm Z).lane = w.lane := by
      funext v
      cases v with
      | session j => rfl
      | straggler k =>
        show (dl.commits[k]?).elim ∅ _ = _
        rw [hcommits]
        rfl
    refine ⟨hok, h.sound, ?_, ?_⟩
    · show ∀ c ∈ dl.commits, _
      rw [hcommits]
      exact h.stragglers
    · rw [hlanes]
      exact h.lanes.shrink (fun v => subset_rfl) hcareful
  | move m hm =>
    cases move_cases hm with
    | connect status hfree => exact h.connects status
    | ask flags hi hphase hfree hnew =>
      exact h.goesOn hi rfl rfl rfl (streamsOk_new hnew) (Set.empty_subset _)
    | receive hi hphase haccept => exact h.receives hi hphase haccept hcareful
    | batchDone hi hphase hdone => exact h.goesOn hi rfl rfl rfl trivial (Set.empty_subset _)
    | revoked hi hphase => exact h.goesOn hi rfl rfl rfl trivial (Set.empty_subset _)
    | skip hi hphase hempty =>
      -- a packet's write is never empty
      exact absurd hempty ((h.at hi hphase).2.2.1 _ (List.mem_cons_self ..))
    | @detach i s rx noMoreBlocks b writes hi hphase hfree =>
      obtain ⟨hstreams, hone, hne, -⟩ := h.at hi hphase
      have hnil : writes = [] := List.length_eq_zero_iff.mp (by simpa using hone)
      refine h.goesOn hi rfl rfl rfl ⟨hstreams, hone, hne, fun c hc => ?_⟩ ?_
      · cases hc
        rw [hnil]
      · rw [hphase]
        exact subset_rfl
    | @write i s rx noMoreBlocks writes c c' m dl hi hphase hadvance =>
      obtain ⟨hstore, hcommits, -, hstart, hdata⟩ := advance_static hadvance
      obtain ⟨hstreams, hone, hne, hhead⟩ := h.at hi hphase
      refine h.goesOn hi rfl hcommits (congrArg PartStore.pf hstore)
        ⟨hstreams, hone, hne, fun d hd => ?_⟩ ?_
      · cases hd
        rw [hstart, hdata]
        exact hhead c rfl
      · rw [hphase]
        exact subset_rfl
    | close due hi hphase hsynced hfree => exact h.closes due hi hphase
    | unsettled hi hphase hdone =>
      exact h.goesOn hi rfl rfl rfl (h.at hi hphase).1 (Set.empty_subset _)
    | @settle i s rx noMoreBlocks phase hi hphase hnext =>
      have hstreams : StreamsOk rx := (h.at hi hphase).1
      rcases hnext with rfl | rfl
      · exact h.goesOn hi rfl rfl rfl hstreams (Set.empty_subset _)
      · exact h.goesOn hi rfl rfl rfl hstreams (Set.empty_subset _)
    | drained flags hi hphase hfree =>
      have hstreams := h.at hi hphase
      exact h.goesOn hi rfl rfl rfl hstreams (Set.empty_subset _)
    | topUp flags hi hphase hfree =>
      have hstreams := h.at hi hphase
      exact h.goesOn hi rfl rfl rfl (StreamsOk.addBlocks hstreams _) (Set.empty_subset _)
    | leave hi hlive => exact h.leaves hi
    | straggle hk hadvance => exact h.straggles hk hadvance
    | setHashset hashes hfree =>
      exact ⟨hok, h.sound, h.stragglers, h.lanes⟩

/-- A step leaves the data file alone, or a write moves on in its own lane. -/
theorem Guarded.file_cases {w w' : Swarm Z} {l : Label} (h : Guarded w)
    (hs : Step md4 sha1 verified w l w') :
    w'.dl.file = w.dl.file ∨ ∃ v c c' m dl, w.dl.advance w.writing c m = some (dl, c') ∧
      c.reach ⊆ w.lane v ∧ c.data ≠ [] ∧ w'.dl.file = dl.file := by
  cases hs with
  | verify hstep hcommits hfile => exact .inl hfile
  | move m hm =>
    cases move_cases hm with
    | connect status hfree => exact .inl rfl
    | ask flags hi hphase hfree hnew => exact .inl rfl
    | receive hi hphase haccept => exact .inl rfl
    | batchDone hi hphase hdone => exact .inl rfl
    | revoked hi hphase => exact .inl rfl
    | skip hi hphase hempty => exact .inl rfl
    | detach hi hphase hfree => exact .inl rfl
    | @write i s rx noMoreBlocks writes c c' m dl hi hphase hadvance =>
      obtain ⟨-, -, hne, hhead⟩ := h.at hi hphase
      have hhead : writes = [⟨c.start, c.data⟩] := hhead c rfl
      refine .inr ⟨.session i, c, c', m, dl, hadvance, ?_, hne ⟨c.start, c.data⟩ (by simp [hhead]), rfl⟩
      rw [lane_session hi, hphase, hhead]
      exact fun x hx => mem_emitted.mpr ⟨_, List.mem_singleton_self _, c.reach_subset hx⟩
    | close due hi hphase hsynced hfree => exact .inl (file_saveMet _ _)
    | unsettled hi hphase hdone => exact .inl rfl
    | settle hi hphase hnext => exact .inl rfl
    | drained flags hi hphase hfree => exact .inl rfl
    | topUp flags hi hphase hfree => exact .inl rfl
    | leave hi hlive => exact .inl rfl
    | @straggle k c c' m dl hk hadvance =>
      have hne := h.stragglers c (List.mem_of_getElem? hk)
      exact .inr ⟨.straggler k, c, c', m, dl, hadvance, (lane_straggler hk).ge, hne, rfl⟩
    | setHashset hashes hfree => exact .inl rfl

/-- The content of a byte that is present survives the step. -/
theorem Guarded.keeps {w w' : Swarm Z} {l : Label} (h : Guarded w)
    (hs : Step md4 sha1 verified w l w') {x : Nat} (hx : x ∉ cover w.pf.gaps) {b : UInt8}
    (hb : w.dl.file[x]? = some b) : w'.dl.file[x]? = some b := by
  rcases h.file_cases hs with hsame | ⟨v, c, c', m, dl, hadvance, hlane, -, hfile⟩
  · rw [hsame]
    exact hb
  · rw [hfile]
    exact advance_keeps hadvance (fun hin => hx (h.lanes.inside v (hlane hin))) hb

theorem RunOf.guarded {store : PartStore} (hopen : Opened store) {file : Bytes} {w : Swarm Z}
    (hrun : RunOf md4 sha1 verified Careful (opened Z store file) w) : Guarded w :=
  hrun.induct (guarded_opened hopen file) fun _ _ _ h hs hcareful => guarded_step h hs hcareful

/-- In a run whose packets bring missing bytes that no write in flight covers, a byte on disk
    keeps its content for as long as it stays out of the gap list. -/
theorem present_bytes_stay {store : PartStore} (hopen : Opened store) (file : Bytes)
    {w w' : Swarm Z} (hrun : RunOf md4 sha1 verified Careful (opened Z store file) w) (x : Nat)
    (hpresent : RunOf md4 sha1 verified (fun v l => v.Careful l ∧ x ∉ cover v.pf.gaps) w w')
    (b : UInt8) (hb : w.dl.file[x]? = some b) : w'.dl.file[x]? = some b := by
  have hstart : Guarded w ∧ w.dl.file[x]? = some b := ⟨hrun.guarded hopen, hb⟩
  have hend : Guarded w' ∧ w'.dl.file[x]? = some b :=
    hpresent.induct (I := fun v => Guarded v ∧ v.dl.file[x]? = some b) hstart fun v l v' h hs hok =>
      ⟨guarded_step h.1 hs hok.1, h.1.keeps hs hok.2 h.2⟩
  exact hend.2

end

/-- Moves one after the other, as long as `p` holds before each. -/
def movesWhile (p : Swarm Z → Bool) (w : Swarm Z) : List Move → Option (Swarm Z)
  | [] => some w
  | m :: ms => if p w then (w.move m).bind fun w' => movesWhile p w' ms else none

theorem runOf_movesWhile {md4 : Bytes → Hash16} {sha1 : Bytes → Hash20}
    {verified : LeafSpan → Prop} {ok : Swarm Z → Label → Prop} {p : Swarm Z → Bool}
    {w₀ w w' : Swarm Z} {ms : List Move} (hrun : RunOf md4 sha1 verified ok w₀ w)
    (h : movesWhile p w ms = some w') (hok : ∀ m ∈ ms, ∀ v, p v = true → ok v (.move m)) :
    RunOf md4 sha1 verified ok w₀ w' := by
  induction ms generalizing w with
  | nil =>
    cases h
    exact hrun
  | cons m ms ih =>
    rw [movesWhile] at h
    split_ifs at h with hp
    obtain ⟨v, hv, h⟩ := Option.bind_eq_some_iff.mp h
    obtain ⟨hm, hms⟩ := List.forall_mem_cons.mp hok
    exact ih (.step hrun (.move m hv) (hm w hp)) h hms

end Swarm

/-! ## One byte, sent again -/

def twoBytes : Swarm storedZlib :=
  .opened storedZlib (PartStore.create (Digest.fill 16 0xAB) 2 [0x61]) [0, 0]

/-- Session `i` gets `OP_SENDINGPART` for `[0, stop)`. -/
def rawPiece (i : Nat) (stop : UInt64) (data : Bytes) : Move :=
  .receive i (rawOpcode false) (rawPayload (Digest.fill 16 0xAB) false 0 stop data)

/-- Byte `x` is outside the gap list. -/
def hasByte (x : Nat) (w : Swarm storedZlib) : Bool :=
  !w.pf.gaps.any fun g => g.start ≤ x && x < g.stop

theorem notMem_of_hasByte {x : Nat} {w : Swarm storedZlib} (h : hasByte x w = true) :
    x ∉ cover w.pf.gaps := by
  rintro ⟨g, hg, hle, hlt⟩
  rw [hasByte, Bool.not_eq_true', List.any_eq_false] at h
  exact h g hg (by simp [hle, hlt])

/-- The hash a fetching session's receiver expects. -/
def fetchingHash (s : PeerSession storedZlib) : Option Hash16 :=
  match s.phase with
  | .fetching rx _ => some rx.hash
  | _ => none

/-- With the one session fetching and no write left running, a packet of missing bytes is
    careful. -/
theorem careful_rawPiece {w : Swarm storedZlib} (hgaps : w.pf.gaps = [⟨0, 2⟩])
    (hcommits : w.dl.commits = [])
    (hphases : w.sessions.map fetchingHash = [some (Digest.fill 16 0xAB)]) {stop : UInt64}
    (hstop : stop ≤ 2) (data : Bytes) : w.Careful (.move (rawPiece 0 stop data)) := by
  have hfetching : ∀ (i : Nat) (t : PeerSession storedZlib), w.sessions[i]? = some t →
      fetchingHash t = some (Digest.fill 16 0xAB) := by
    intro i t ht
    have hget : (w.sessions.map fetchingHash)[i]? = some (fetchingHash t) := by
      rw [List.getElem?_map, ht]
      rfl
    rw [hphases] at hget
    exact (List.mem_singleton.mp (List.mem_of_getElem? hget))
  intro s rx noMoreBlocks hi hphase x hx
  have hhash : rx.hash = Digest.fill 16 0xAB := by
    have hself := hfetching 0 s hi
    rw [fetchingHash, hphase] at hself
    exact Option.some.inj hself
  have hfits : stop ≤ U32_MAX := UInt64.le_trans hstop (show (2 : UInt64) ≤ U32_MAX by decide)
  rw [hhash, content_rawPayload _ _ fun _ => ⟨by decide, hfits⟩] at hx
  obtain ⟨hle, hlt⟩ := hx
  refine ⟨?_, fun v hv => ?_⟩
  · rw [hgaps]
    exact ⟨⟨0, 2⟩, List.mem_singleton_self _, hle, hlt.trans_le hstop⟩
  · cases v with
    | session j =>
      obtain hnone | ⟨t, ht⟩ := Option.eq_none_or_eq_some w.sessions[j]?
      · rw [Swarm.lane, hnone] at hv
        exact hv
      · have hself := hfetching j t ht
        rw [Swarm.lane_session ht] at hv
        unfold fetchingHash at hself
        split at hself
        · rename_i rx' _ hphase'
          rw [hphase'] at hv
          exact hv
        · cases hself
    | straggler k =>
      rw [Swarm.lane, hcommits] at hv
      exact hv

/-- A session fetches byte 0, and the byte stays while the session goes on. -/
theorem first_byte_stays :
    ∃ w w' : Swarm storedZlib,
      Swarm.RunOf (fun _ => Digest.fill 16 0) (fun _ => Digest.fill 20 0) (fun _ => True)
        Swarm.Careful twoBytes w ∧
      Swarm.RunOf (fun _ => Digest.fill 16 0) (fun _ => Digest.fill 20 0) (fun _ => True)
        (fun v l => v.Careful l ∧ 0 ∉ cover v.pf.gaps) w w' ∧ w'.dl.file[0]? = some 1 := by
  have hmoves : (twoBytes.moves [.connect fullSource, .ask 0 ⟨false, false⟩]).bind (fun w₁ =>
      (w₁.move (rawPiece 0 1 [1])).bind fun w₂ => (w₂.moves [.detach 0, .write 0 .lock,
        .write 0 (.land 1), .write 0 .sync, .close 0 false]).bind fun w =>
          (Swarm.movesWhile (hasByte 0) w [.settle 0]).map fun _ =>
            (w₁.pf.gaps, w₁.dl.commits.isEmpty, w₁.sessions.map fetchingHash, w.dl.file)) =
      some ([⟨0, 2⟩], true, [some (Digest.fill 16 0xAB)], [1, 0]) := by decide +kernel
  obtain ⟨w₁, hw₁, hmoves⟩ := Option.bind_eq_some_iff.mp hmoves
  obtain ⟨w₂, hw₂, hmoves⟩ := Option.bind_eq_some_iff.mp hmoves
  obtain ⟨w, hw, hmoves⟩ := Option.bind_eq_some_iff.mp hmoves
  obtain ⟨w', hw', hres⟩ := Option.map_eq_some_iff.mp hmoves
  have hgaps : w₁.pf.gaps = [⟨0, 2⟩] := congrArg Prod.fst hres
  have hcommits : w₁.dl.commits = [] := List.isEmpty_iff.mp (congrArg (fun r => r.2.1) hres)
  have hphases : w₁.sessions.map fetchingHash = [some (Digest.fill 16 0xAB)] :=
    congrArg (fun r => r.2.2.1) hres
  have hfile : w.dl.file = [1, 0] := congrArg (fun r => r.2.2.2) hres
  have hstart : Swarm.RunOf (fun _ => Digest.fill 16 0) (fun _ => Digest.fill 20 0) (fun _ => True)
      Swarm.Careful twoBytes w₁ := by
    refine Swarm.runOf_moves .start hw₁ fun m hm v => ?_
    simp only [List.mem_cons, List.not_mem_nil, or_false] at hm
    rcases hm with rfl | rfl <;> trivial
  have hrun : Swarm.RunOf (fun _ => Digest.fill 16 0) (fun _ => Digest.fill 20 0) (fun _ => True)
      Swarm.Careful twoBytes w := by
    refine Swarm.runOf_moves (.step hstart (.move _ hw₂)
        (careful_rawPiece hgaps hcommits hphases (by decide) [1]))
      hw fun m hm v => ?_
    simp only [List.mem_cons, List.not_mem_nil, or_false] at hm
    rcases hm with rfl | rfl | rfl | rfl | rfl <;> trivial
  have hstays : Swarm.RunOf (fun _ => Digest.fill 16 0) (fun _ => Digest.fill 20 0)
      (fun _ => True) (fun v l => v.Careful l ∧ 0 ∉ cover v.pf.gaps) w w' := by
    refine Swarm.runOf_movesWhile .start hw' fun m hm v hv => ⟨?_, notMem_of_hasByte hv⟩
    rw [List.mem_singleton.mp hm]
    trivial
  have hopen := Opened.created (Digest.fill 16 0xAB) 2 [0x61]
  exact ⟨w, w', hrun, hstays,
    Swarm.present_bytes_stay hopen [0, 0] hrun 0 hstays 1 (by rw [hfile]; rfl)⟩

/-- The peer sends byte 0 a second time, with another value: the byte is present, and it
    changes on disk. -/
theorem present_byte_rewritten :
    ∃ w w' : Swarm storedZlib,
      Swarm.RunOf (fun _ => Digest.fill 16 0) (fun _ => Digest.fill 20 0) (fun _ => True)
        (fun _ _ => True) twoBytes w ∧
      Swarm.RunOf (fun _ => Digest.fill 16 0) (fun _ => Digest.fill 20 0) (fun _ => True)
        (fun v _ => 0 ∉ cover v.pf.gaps) w w' ∧
      w.dl.file[0]? = some 1 ∧ w'.dl.file[0]? = some 9 ∧ 0 ∉ cover w'.pf.gaps := by
  have hmoves : (twoBytes.moves [.connect fullSource, .ask 0 ⟨false, false⟩, rawPiece 0 1 [1], .detach 0,
      .write 0 .lock, .write 0 (.land 1), .write 0 .sync, .close 0 false, .settle 0]).bind (fun w =>
        (Swarm.movesWhile (hasByte 0) w [rawPiece 0 1 [9], .detach 0, .write 0 .lock,
          .write 0 (.land 1)]).map fun w' => (w.dl.file, w'.dl.file, hasByte 0 w')) =
      some ([1, 0], [9, 0], true) := by decide +kernel
  obtain ⟨w, hw, hmoves⟩ := Option.bind_eq_some_iff.mp hmoves
  obtain ⟨w', hw', hres⟩ := Option.map_eq_some_iff.mp hmoves
  have hbefore : w.dl.file = [1, 0] := congrArg Prod.fst hres
  have hafter : w'.dl.file = [9, 0] := congrArg (fun r => r.2.1) hres
  have hpresent : hasByte 0 w' = true := congrArg (fun r => r.2.2) hres
  have hrun : Swarm.RunOf (fun _ => Digest.fill 16 0) (fun _ => Digest.fill 20 0) (fun _ => True)
      (fun _ _ => True) twoBytes w := Swarm.runOf_moves .start hw fun _ _ _ => trivial
  have hstays : Swarm.RunOf (fun _ => Digest.fill 16 0) (fun _ => Digest.fill 20 0)
      (fun _ => True) (fun v _ => 0 ∉ cover v.pf.gaps) w w' :=
    Swarm.runOf_movesWhile .start hw' fun _ _ _ hv => notMem_of_hasByte hv
  exact ⟨w, w', hrun, hstays, by rw [hbefore]; rfl, by rw [hafter]; rfl, notMem_of_hasByte hpresent⟩

end PadMule.Engine
