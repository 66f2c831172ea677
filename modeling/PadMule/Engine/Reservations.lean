import PadMule.Engine.PeerSessions
import PadMule.Lib.StoredZlib

/-
  The reserved list of a `Download` against what its peer sessions hold.

  `reservations_owned`: in every run each reserved range is held by a live session, so
  with no session left the list is empty and the allocator offers every missing byte of a
  part that a source has. `held_blocks_reserved`: what the sessions hold is reserved, and a
  take outside endgame returns nothing that meets it, in every run in which no session
  gives back a range that another one holds too; without endgame their ranges do not even
  meet (`sessions_apart`). The condition on giving back is needed: `release` removes by
  value, so after endgame has handed one range to two sessions the first to give it back
  takes the reservation of both (`endgame_reservation_lost`).
-/

namespace PadMule.Engine

open Spans Files PadMule.Proto Leases Inflate

namespace Swarm

variable {Z : Inflater} {md4 : Bytes → Hash16} {sha1 : Bytes → Hash20}
  {verified : LeafSpan → Prop}

/-! ## No reservation outlives its session -/

theorem owned_step {w w' : Swarm Z} {l : Label} (h : w.ledger.Owned)
    (hs : Step md4 sha1 verified w l w') : w'.ledger.Owned := by
  cases hs with
  | verify hstep hcommits hfile => exact h
  | move m hm =>
    have hledger := ledger_move hm
    generalize w'.ledger = ledger at hledger ⊢
    cases hledger with
    | keep => exact h
    | join => exact h.join
    | grant hi hasks => exact h.grant (held_ledger hi) _
    | giveBack hi hgives => exact h.giveBack (held_ledger hi) _

/-- An ended session holds nothing. -/
def EndedEmpty (w : Swarm Z) : Prop := ∀ s ∈ w.sessions, s.phase = .ended → s.held = []

theorem EndedEmpty.set {w : Swarm Z} (h : EndedEmpty w) {i : Nat} {s : PeerSession Z}
    (hs : s.phase = .ended → s.held = []) :
    ∀ t ∈ w.sessions.set i s, t.phase = .ended → t.held = [] := by
  intro t ht hended
  rcases List.mem_or_eq_of_mem_set ht with ht | rfl
  · exact h t ht hended
  · exact hs hended

theorem endedEmpty_step {w w' : Swarm Z} {l : Label} (h : EndedEmpty w)
    (hs : Step md4 sha1 verified w l w') : EndedEmpty w' := by
  cases hs with
  | verify hstep hcommits hfile => exact h
  | move m hm =>
    cases move_cases hm with
    | connect status hfree =>
      intro s hs hended
      rcases List.mem_append.mp hs with hs | hs
      · exact h s hs hended
      · rw [List.mem_singleton.mp hs]
    | ask flags hi hphase hfree hnew => exact h.set nofun
    | receive hi hphase haccept => exact h.set nofun
    | batchDone hi hphase hdone => exact h.set nofun
    | revoked hi hphase => exact h.set nofun
    | skip hi hphase hempty => exact h.set nofun
    | detach hi hphase hfree => exact h.set nofun
    | write hi hphase hadvance => exact h.set nofun
    | close due hi hphase hsynced hfree => exact h.set nofun
    | unsettled hi hphase hdone => exact h.set nofun
    | settle hi hphase hnext =>
      rcases hnext with rfl | rfl <;> exact h.set nofun
    | drained flags hi hphase hfree => exact h.set nofun
    | topUp flags hi hphase hfree => exact h.set nofun
    | @leave i s hi hphase =>
      refine h.set fun _ => List.filter_eq_nil_iff.mpr fun b hb => ?_
      simpa using hb
    | straggle hk hadvance => exact h
    | setHashset hashes hfree => exact h

theorem RunOf.endedEmpty {ok : Swarm Z → Label → Prop} {store : PartStore} {file : Bytes}
    {w : Swarm Z} (hrun : RunOf md4 sha1 verified ok (opened Z store file) w) : EndedEmpty w :=
  hrun.induct (fun _ hs => absurd hs List.not_mem_nil) fun _ _ _ h hs _ => endedEmpty_step h hs

theorem EndedEmpty.live {w : Swarm Z} (h : EndedEmpty w) {s : PeerSession Z} (hs : s ∈ w.sessions)
    {b : Block} (hb : b ∈ s.held) : s.Live := by
  intro hended
  rw [h s hs hended] at hb
  exact List.not_mem_nil hb

/-- In every run each reserved range is held by a live session. Once no session is live the
    reserved list is empty, and every missing byte of a part some source has is offered: by
    one call unless it returns `max` other blocks, and by `missing + 1` calls in any case. -/
theorem reservations_owned {store : PartStore} (hopen : Opened store) (file : Bytes)
    {w : Swarm Z} (hrun : RunOf md4 sha1 verified (fun _ _ => True) (opened Z store file) w) :
    (∀ b ∈ w.reserved, ∃ s ∈ w.sessions, s.Live ∧ b ∈ s.held) ∧
      ((∀ s ∈ w.sessions, ¬s.Live) → w.reserved = [] ∧
        ∀ (status : FileStatus) (rarity : Nat → Nat) (preview : Bool) (max : Nat), 0 < max →
          ∀ x ∈ cover w.pf.gaps, status.hasPart (x / PARTSIZE) = true →
            (x ∈ cover ((w.pf.nextBlocks status.hasPart w.reserved max rarity false preview).map
                Block.span) ∨
              (w.pf.nextBlocks status.hasPart w.reserved max rarity false preview).length = max) ∧
            x ∈ cover ((offers w.pf status.hasPart max rarity preview (w.pf.missing + 1)).map
              Block.span)) := by
  have howned : w.ledger.Owned :=
    hrun.induct Ledger.owned_empty fun w l w' h hs _ => owned_step h hs
  have hended : EndedEmpty w := hrun.endedEmpty
  have hopened : (opened Z store file).pf.Ok := hopen.gapsOk.pf
  have hok : w.pf.Ok := (hrun.sameFile hopened).ok
  refine ⟨fun b hb => ?_, fun hnone => ?_⟩
  · obtain ⟨held, hheld, hbin⟩ := howned b hb
    obtain ⟨s, hs, rfl⟩ := List.mem_map.mp hheld
    exact ⟨s, hs, hended.live hs hbin, hbin⟩
  · have hempty : w.reserved = [] := howned.taken_eq_nil fun held hheld => by
      obtain ⟨s, hs, rfl⟩ := List.mem_map.mp hheld
      exact hended s hs (not_not.mp (hnone s hs))
    refine ⟨hempty, fun status rarity preview max hmax x hx hav => ⟨?_, ?_⟩⟩
    · rw [hempty]
      have hcall := nextBlocks_allocates hok status.hasPart [] max rarity false preview
      rcases hcall.length_le.lt_or_eq with hlt | heq
      · exact Or.inl (hcall.covers hok hlt (fun _ hb => absurd hb List.not_mem_nil) hx hav)
      · exact Or.inr heq
    · exact mem_offers hok status.hasPart hmax rarity preview hx hav (Nat.lt_succ_self _)

/-! ## What is held is reserved -/

/-- What a move gives back no other session holds. -/
def GivesOwn (w : Swarm Z) : Label → Prop
  | .move m => ∀ i done, w.givesBack m = some (i, done) → w.ledger.Sole i done
  | .verify _ => True

theorem entered_step {w w' : Swarm Z} {l : Label} (h : w.ledger.Entered)
    (hs : Step md4 sha1 verified w l w') (hown : GivesOwn w l) : w'.ledger.Entered := by
  cases hs with
  | verify hstep hcommits hfile => exact h
  | move m hm =>
    have hledger := ledger_move hm
    generalize w'.ledger = ledger at hledger ⊢
    cases hledger with
    | keep => exact h
    | join => exact h.join
    | grant hi hasks => exact h.grant (held_ledger hi) _
    | giveBack hi hgives => exact h.giveBack (held_ledger hi) (hown _ _ hgives)

theorem Entered.held {w : Swarm Z} (h : w.ledger.Entered) :
    ∀ s ∈ w.sessions, ∀ b ∈ s.held, b ∈ w.reserved :=
  fun s hs b hb => h s.held (List.mem_map_of_mem hs) b hb

/-- Outside endgame `take_blocks` allocates around the reserved list. -/
theorem takeBlocks_fresh {w : Swarm Z} (hok : w.pf.Ok) {flags : Flags} {status : FileStatus}
    {max : Nat} (h : (w.takeBlocks flags status max).2 = false) :
    ∀ b ∈ (w.takeBlocks flags status max).1, (∃ part, IsPiece w.pf part b) ∧
      ∀ r ∈ w.reserved, overlaps b r = false := by
  unfold takeBlocks at h ⊢
  split_ifs at h ⊢ with hstopped
  · exact fun b hb => absurd hb List.not_mem_nil
  · dsimp only at h ⊢
    split_ifs at h ⊢
    have hcall := nextBlocks_allocates hok status.hasPart w.reserved max
      (fun p => w.availability.getD p 0) false flags.preview
    intro b hb
    obtain ⟨part, -, hpiece⟩ := hcall.piece b hb
    exact ⟨⟨part, hpiece⟩, hcall.free b hb⟩

/-- As long as no session gives back a range that another one holds, every range held is
    reserved, and a take outside endgame returns nothing that meets a range held. -/
theorem held_blocks_reserved {store : PartStore} (hopen : Opened store) (file : Bytes)
    {w : Swarm Z} (hrun : RunOf md4 sha1 verified GivesOwn (opened Z store file) w) :
    (∀ s ∈ w.sessions, ∀ b ∈ s.held, b ∈ w.reserved) ∧
      ∀ (flags : Flags) (status : FileStatus) (max : Nat),
        (w.takeBlocks flags status max).2 = false →
          ∀ b ∈ (w.takeBlocks flags status max).1, ∀ s ∈ w.sessions, ∀ c ∈ s.held,
            overlaps b c = false := by
  have hentered : w.ledger.Entered :=
    hrun.induct Ledger.entered_empty fun w l w' h hs hown => entered_step h hs hown
  have hopened : (opened Z store file).pf.Ok := hopen.gapsOk.pf
  have hok : w.pf.Ok := (hrun.sameFile hopened).ok
  refine ⟨Entered.held hentered, fun flags status max hfresh b hb s hs c hc => ?_⟩
  exact (takeBlocks_fresh hok hfresh b hb).2 c (Entered.held hentered s hs c hc)

/-- What a move takes endgame has not served. -/
def TakesFresh (w : Swarm Z) : Label → Prop
  | .move m => ∀ i flags status max, w.asksFor m = some (i, flags, status, max) →
    (w.takeBlocks flags status max).2 = false
  | .verify _ => True

theorem exclusive_step {w w' : Swarm Z} {l : Label} (hok : w.pf.Ok) (he : w.ledger.Entered)
    (hx : w.ledger.Exclusive fun b c => overlaps b c = true)
    (hs : Step md4 sha1 verified w l w') (hfresh : TakesFresh w l) :
    w'.ledger.Exclusive fun b c => overlaps b c = true := by
  cases hs with
  | verify hstep hcommits hfile => exact hx
  | move m hm =>
    have hledger := ledger_move hm
    generalize w'.ledger = ledger at hledger ⊢
    cases hledger with
    | keep => exact hx
    | join => exact hx.join
    | grant hi hasks =>
      refine hx.grant he (fun b c => ?_) (held_ledger hi) fun b hb r hr => ?_
      · rw [overlaps_iff, overlaps_iff]
        exact And.symm
      · rw [(takeBlocks_fresh hok (hfresh _ _ _ _ hasks) b hb).2 r hr]
        exact Bool.false_ne_true
    | giveBack hi hgives => exact hx.giveBack (held_ledger hi) _

/-- Where besides endgame serves nothing, the ranges of different sessions do not meet. -/
theorem sessions_apart {store : PartStore} (hopen : Opened store) (file : Bytes) {w : Swarm Z}
    (hrun : RunOf md4 sha1 verified (fun w l => GivesOwn w l ∧ TakesFresh w l)
      (opened Z store file) w) {i j : Nat} {s t : PeerSession Z} (hij : i ≠ j)
    (hi : w.sessions[i]? = some s) (hj : w.sessions[j]? = some t) :
    ∀ b ∈ s.held, ∀ c ∈ t.held, overlaps b c = false := by
  have hopened : (opened Z store file).pf.Ok := hopen.gapsOk.pf
  have hinv : w.pf.Ok ∧ w.ledger.Entered ∧
      w.ledger.Exclusive fun b c => overlaps b c = true := by
    refine RunOf.induct (I := fun w => w.pf.Ok ∧ w.ledger.Entered ∧
      w.ledger.Exclusive fun b c => overlaps b c = true) ?_ ?_ hrun
    · exact ⟨hopened, Ledger.entered_empty, nofun⟩
    · intro w l w' ⟨hok, he, hx⟩ hs ⟨hown, hfresh⟩
      exact ⟨(Swarm.sameFile hok hs).ok, entered_step he hs hown,
        exclusive_step hok he hx hs hfresh⟩
  intro b hb c hc
  exact Bool.eq_false_of_not_eq_true
    (hinv.2.2 i j s.held t.held hij (held_ledger hi) (held_ledger hj) b hb c hc)

/-- Moves that meet `ok` in every state, one after the other. -/
theorem runOf_moves {ok : Swarm Z → Label → Prop} {w₀ w w' : Swarm Z} {ms : List Move}
    (hrun : RunOf md4 sha1 verified ok w₀ w) (h : w.moves ms = some w')
    (hok : ∀ m ∈ ms, ∀ v, ok v (.move m)) : RunOf md4 sha1 verified ok w₀ w' := by
  induction ms generalizing w with
  | nil =>
    cases h
    exact hrun
  | cons m ms ih =>
    rw [moves] at h
    obtain ⟨v, hv, h⟩ := Option.bind_eq_some_iff.mp h
    obtain ⟨hm, hms⟩ := List.forall_mem_cons.mp hok
    exact ih (.step hrun (.move m hv) (hm w)) h hms

end Swarm

/-! ## Two sessions -/

/-- A source with the complete file. -/
def fullSource : FileStatus := ⟨Digest.fill 16 0xAB, true, []⟩

def tenBytes : Swarm storedZlib :=
  .opened storedZlib (PartStore.create (Digest.fill 16 0xAB) 10 [0x61]) []

def PeerSession.hasEnded {Z : Inflater} (s : PeerSession Z) : Bool :=
  match s.phase with
  | .ended => true
  | _ => false

theorem PeerSession.not_live_of_hasEnded {Z : Inflater} {s : PeerSession Z}
    (h : s.hasEnded = true) : ¬s.Live := by
  intro hlive
  unfold hasEnded at h
  split at h
  · exact hlive ‹_›
  · cases h

/-- The only session of a ten-byte file takes its block and leaves: the block is offered
    again. -/
theorem left_block_offered_again :
    ∃ w : Swarm storedZlib,
      Swarm.RunOf (fun _ => Digest.fill 16 0) (fun _ => Digest.fill 20 0) (fun _ => True)
        (fun _ _ => True) tenBytes w ∧
      w.reserved = [] ∧
      3 ∈ cover ((offers w.pf fullSource.hasPart 3 (fun _ => 0) false (w.pf.missing + 1)).map
        Block.span) := by
  have hopen := Opened.created (Digest.fill 16 0xAB) 10 [0x61]
  have hmoves : (tenBytes.moves [.connect fullSource, .ask 0 ⟨false, false⟩, .leave 0]).map
      (fun w => (w.pf.gaps, w.sessions.all PeerSession.hasEnded)) = some ([⟨0, 10⟩], true) := by
    decide +kernel
  obtain ⟨w, hw, hres⟩ := Option.map_eq_some_iff.mp hmoves
  have hrun : Swarm.RunOf (fun _ => Digest.fill 16 0) (fun _ => Digest.fill 20 0) (fun _ => True)
      (fun _ _ => True) tenBytes w := Swarm.runOf_moves .start hw fun _ _ _ => trivial
  have hgaps : w.pf.gaps = [⟨0, 10⟩] := congrArg Prod.fst hres
  have hended := List.all_eq_true.mp (congrArg Prod.snd hres)
  have hnone : ∀ s ∈ w.sessions, ¬s.Live := fun s hs =>
    PeerSession.not_live_of_hasEnded (hended s hs)
  have hmissing : 3 ∈ cover w.pf.gaps := by
    rw [hgaps]
    exact ⟨⟨0, 10⟩, List.mem_singleton_self _, by decide, by decide⟩
  obtain ⟨hempty, hoffered⟩ := (Swarm.reservations_owned hopen [] hrun).2 hnone
  exact ⟨w, hrun, hempty, (hoffered fullSource (fun _ => 0) false 3 (by decide) 3 hmissing rfl).2⟩

def fourBlocks : Swarm storedZlib :=
  .opened storedZlib (PartStore.create (Digest.fill 16 0xAB) 737280 [0x61]) []

/-- Two sessions share the four blocks of a fresh file; one leaves, the other's block stays
    reserved. -/
theorem other_block_stays_reserved :
    ∃ w : Swarm storedZlib,
      Swarm.RunOf (fun _ => Digest.fill 16 0) (fun _ => Digest.fill 20 0) (fun _ => True)
        Swarm.GivesOwn fourBlocks w ∧
      w.reserved = [(552960, 737280)] ∧
      ∀ s ∈ w.sessions, ∀ b ∈ s.held, b ∈ w.reserved := by
  have hopen := Opened.created (Digest.fill 16 0xAB) 737280 [0x61]
  have hmoves : (fourBlocks.moves [.connect fullSource, .connect fullSource,
      .ask 0 ⟨false, false⟩, .ask 1 ⟨false, false⟩]).bind (fun w =>
        (w.move (.leave 0)).map fun w' => (w.ledger.held, w'.reserved)) =
      some ([[(0, 184320), (184320, 368640), (368640, 552960)], [(552960, 737280)]],
        [(552960, 737280)]) := by decide +kernel
  obtain ⟨w, hw, hmoves⟩ := Option.bind_eq_some_iff.mp hmoves
  obtain ⟨w', hw', hres⟩ := Option.map_eq_some_iff.mp hmoves
  have hheld := congrArg Prod.fst hres
  have hrun : Swarm.RunOf (fun _ => Digest.fill 16 0) (fun _ => Digest.fill 20 0) (fun _ => True)
      Swarm.GivesOwn fourBlocks w' := by
    refine .step (Swarm.runOf_moves .start hw ?_) (.move _ hw') ?_
    · intro m hm v i done hgives
      simp only [List.mem_cons, List.not_mem_nil, or_false] at hm
      rcases hm with rfl | rfl | rfl | rfl <;> cases hgives
    · intro i done hgives j held hj hne b hb hbin
      obtain ⟨s, hs, hpair⟩ := Option.map_eq_some_iff.mp hgives
      cases hpair
      have hmine := Swarm.held_ledger hs
      dsimp only at hheld
      rw [hheld] at hmine hj
      rw [← Option.some.inj hmine] at hb
      match j, hj with
      | 1, hj =>
        rw [← Option.some.inj hj] at hbin
        revert b
        decide
      | j + 2, hj => cases hj
  exact ⟨w', hrun, congrArg Prod.snd hres, (Swarm.held_blocks_reserved hopen [] hrun).1⟩

/-- Endgame hands the one block of the file to a second session; the first one leaves, and
    the block is free again, while the second still holds it. -/
theorem endgame_reservation_lost :
    ∃ w : Swarm storedZlib,
      Swarm.RunOf (fun _ => Digest.fill 16 0) (fun _ => Digest.fill 20 0) (fun _ => True)
        (fun _ _ => True) tenBytes w ∧
      w.reserved = [] ∧ (∃ s ∈ w.sessions, s.Live ∧ (0, 10) ∈ s.held) ∧
      w.takeBlocks ⟨false, false⟩ fullSource 3 = ([(0, 10)], false) := by
  have hmoves : (tenBytes.moves [.connect fullSource, .connect fullSource,
      .ask 0 ⟨false, false⟩, .ask 1 ⟨false, false⟩, .leave 0]).map (fun w =>
        (w.reserved, w.takeBlocks ⟨false, false⟩ fullSource 3,
          w.sessions.any fun s => (0, 10) ∈ s.held)) =
      some ([], ([(0, 10)], false), true) := by decide +kernel
  obtain ⟨w, hw, hres⟩ := Option.map_eq_some_iff.mp hmoves
  have hrun : Swarm.RunOf (fun _ => Digest.fill 16 0) (fun _ => Digest.fill 20 0) (fun _ => True)
      (fun _ _ => True) tenBytes w := Swarm.runOf_moves .start hw fun _ _ _ => trivial
  have hheld : (w.sessions.any fun s => (0, 10) ∈ s.held) = true :=
    congrArg (fun r => r.2.2) hres
  obtain ⟨s, hs, hin⟩ := List.any_eq_true.mp hheld
  rw [decide_eq_true_eq] at hin
  exact ⟨w, hrun, congrArg Prod.fst hres, ⟨s, hs, Swarm.EndedEmpty.live hrun.endedEmpty hs hin, hin⟩,
    congrArg (fun r => r.2.1) hres⟩

end PadMule.Engine
