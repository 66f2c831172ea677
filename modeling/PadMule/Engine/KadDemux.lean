import PadMule.Engine.ServerLink
import PadMule.Kad.UdpObf
import PadMule.Lib.Slots

/-
  `mule-engine/src/kad_live.rs`: which request a reply belongs to.

  An owner (a batch of requests, or a lookup) registers a slot for each request it sends and keeps
  the numbers of its slots in a guard, which withdraws them when the owner is dropped. The read
  loop takes the slot a datagram answers out of the one list they share. The steps of
  `begin_request` stand apart, so that anything may come between them; an owner is dropped only
  where it awaits.
-/

namespace PadMule.Engine.KadDemux

open PadMule.Kad

/-- The ip of an address as keys and records have it. -/
def ipU32 : SocketAddr → UInt32
  | .v4 ip _ => ip
  | .v6 .. => 0

structure PendingSlot where
  seq : UInt64
  dest : SocketAddr
  destIp : UInt32
  senderVk : UInt32
  expect : UInt8
  /-- Whose slot it is, and its number among all that were registered: both stand for `tx`. -/
  owner : Nat
  registration : Nat
deriving DecidableEq

/-- Where an owner stands in `begin_request`. -/
inductive Phase where
  | idle
  | allocated (seq : UInt64) (dest : SocketAddr) (expect : UInt8)
  | pushed (seq : UInt64)
  | sending (seq : UInt64)

structure Owner where
  phase : Phase
  /-- `SlotGuard::seqs`. -/
  seqs : List UInt64
  dropped : Bool

structure Datagram where
  source : SocketAddr
  opcode : UInt8
  payload : Bytes
  receiverVk : UInt32
  senderVk : UInt32
deriving DecidableEq

/-- What was sent to a slot, and the datagram it came of. -/
structure Delivery where
  slot : PendingSlot
  datagram : Datagram
  answer : Bytes × Bool × UInt32

structure State where
  nextSeq : UInt64
  pending : List PendingSlot
  owners : Nat → Owner
  /-- History: how many slots were registered, and every answer that was delivered. -/
  registered : Nat
  delivered : List Delivery

def State.new : State := ⟨0, [], fun _ => ⟨.idle, [], false⟩, 0, []⟩

inductive Op where
  | allocate (owner : Nat) (dest : SocketAddr) (expect : UInt8)
  | push (owner : Nat)
  | track (owner : Nat)
  | sent (owner : Nat) (ok : Bool)
  /-- A deadline of a lookup request: its slot is withdrawn. -/
  | timeout (owner : Nat) (seq : UInt64)
  /-- The owner is through, or its future is cancelled. -/
  | drop (owner : Nat)
  | datagram (d : Datagram)

/-- The slot of a datagram: the exact address first, then the ip. -/
def position (pending : List PendingSlot) (d : Datagram) : Option Nat :=
  (pending.findIdx? fun p => p.dest = d.source && p.expect = d.opcode).orElse fun _ =>
    pending.findIdx? fun p => p.destIp = ipU32 d.source && p.expect = d.opcode

namespace State

def setOwner (st : State) (i : Nat) (o : Owner) : State :=
  { st with owners := Function.update st.owners i o }

def withdraw (st : State) (gone : UInt64 → Bool) : State :=
  { st with pending := st.pending.filter fun p => !gone p.seq }

def deliver (st : State) (d : Datagram) : State :=
  match position st.pending d with
  | none => st
  | some i =>
    match st.pending[i]? with
    | none => st
    | some slot =>
      { st with
        pending := st.pending.eraseIdx i
        delivered := st.delivered ++
          [⟨slot, d, d.payload, d.receiverVk = slot.senderVk, d.senderVk⟩] }

variable (md5 : Bytes → Hash16) (udpKey : UInt32)

/-- A step that is not the owner's next one changes nothing. -/
def step (st : State) : Op → State
  | .allocate i dest expect =>
    let o := st.owners i
    match o.phase with
    | .idle =>
      if o.dropped then st
      else { st.setOwner i { o with phase := .allocated st.nextSeq dest expect } with
        nextSeq := st.nextSeq + 1 }
    | _ => st
  | .push i =>
    let o := st.owners i
    match o.phase with
    | .allocated seq dest expect =>
      let destIp := ipU32 dest
      { st.setOwner i { o with phase := .pushed seq } with
        pending := st.pending ++
          [⟨seq, dest, destIp, udpVerifyKey md5 udpKey destIp, expect, i, st.registered⟩]
        registered := st.registered + 1 }
    | _ => st
  | .track i =>
    let o := st.owners i
    match o.phase with
    | .pushed seq => st.setOwner i { o with phase := .sending seq, seqs := o.seqs ++ [seq] }
    | _ => st
  | .sent i ok =>
    let o := st.owners i
    match o.phase with
    | .sending seq =>
      let st := st.setOwner i { o with phase := .idle }
      if ok then st else st.withdraw fun s => s = seq
    | _ => st
  | .timeout i seq =>
    let o := st.owners i
    if !o.dropped && seq ∈ o.seqs then st.withdraw fun s => s = seq else st
  | .drop i =>
    let o := st.owners i
    match o.phase with
    | .idle | .sending _ =>
      (st.setOwner i { o with phase := .idle, dropped := true }).withdraw fun s => s ∈ o.seqs
    | _ => st
  | .datagram d => st.deliver d

def run (st : State) (ops : List Op) : State := ops.foldl (step md5 udpKey) st

end State

/-! ## One datagram -/

/-- The slot waits at the very address the datagram is from. -/
def Exact (d : Datagram) (p : PendingSlot) : Prop := p.dest = d.source ∧ p.expect = d.opcode

/-- The slot waits at the ip the datagram is from. -/
def SameIp (d : Datagram) (p : PendingSlot) : Prop :=
  p.destIp = ipU32 d.source ∧ p.expect = d.opcode

/-- What the read loop does with a datagram: a first exact match, or else a first match by ip, is
    taken out of the list and answered. -/
inductive Demuxed (st : State) (d : Datagram) : State → Prop where
  | nobody (hexact : ∀ p ∈ st.pending, ¬Exact d p) (hip : ∀ p ∈ st.pending, ¬SameIp d p) :
      Demuxed st d st
  | taken {before after : List PendingSlot} {slot : PendingSlot}
      (hpending : st.pending = before ++ slot :: after)
      (h : (Exact d slot ∧ ∀ p ∈ before, ¬Exact d p) ∨
        (SameIp d slot ∧ (∀ p ∈ st.pending, ¬Exact d p) ∧ ∀ p ∈ before, ¬SameIp d p)) :
      Demuxed st d { st with
        pending := before ++ after
        delivered := st.delivered ++
          [⟨slot, d, d.payload, d.receiverVk = slot.senderVk, d.senderVk⟩] }

theorem demuxed (st : State) (d : Datagram) : Demuxed st d (st.deliver d) := by
  have hexact (p : PendingSlot) :
      (decide (p.dest = d.source) && decide (p.expect = d.opcode)) = true ↔ Exact d p := by
    rw [Bool.and_eq_true, decide_eq_true_eq, decide_eq_true_eq, Exact]
  have hip (p : PendingSlot) :
      (decide (p.destIp = ipU32 d.source) && decide (p.expect = d.opcode)) = true ↔ SameIp d p := by
    rw [Bool.and_eq_true, decide_eq_true_eq, decide_eq_true_eq, SameIp]
  unfold State.deliver position
  cases hfirst : st.pending.findIdx? fun p => p.dest = d.source && p.expect = d.opcode with
  | some i =>
    obtain ⟨before, slot, after, hpending, hbefore, hslot, hget, herase⟩ :=
      Slots.eraseIdx_of_findIdx? hfirst
    rw [Option.orElse_some]
    dsimp only
    rw [hget, herase]
    refine .taken hpending (.inl ⟨(hexact slot).mp hslot, fun p hp hmatch => ?_⟩)
    exact hbefore p hp ((hexact p).mpr hmatch)
  | none =>
    have hnone : ∀ p ∈ st.pending, ¬Exact d p := fun p hp hmatch => by
      have hfalse := List.findIdx?_eq_none_iff.mp hfirst p hp
      exact absurd (((hexact p).mpr hmatch).symm.trans hfalse) (by decide)
    rw [Option.orElse_none]
    cases hsecond : st.pending.findIdx? fun p =>
        p.destIp = ipU32 d.source && p.expect = d.opcode with
    | some i =>
      obtain ⟨before, slot, after, hpending, hbefore, hslot, hget, herase⟩ :=
        Slots.eraseIdx_of_findIdx? hsecond
      dsimp only
      rw [hget, herase]
      refine .taken hpending (.inr ⟨(hip slot).mp hslot, hnone, fun p hp hmatch => ?_⟩)
      exact hbefore p hp ((hip p).mpr hmatch)
    | none =>
      refine .nobody hnone fun p hp hmatch => ?_
      have hfalse := List.findIdx?_eq_none_iff.mp hsecond p hp
      exact absurd (((hip p).mpr hmatch).symm.trans hfalse) (by decide)

/-! ## The invariant -/

/-- The owner is there and would withdraw the slot. -/
def Held (o : Owner) (seq : UInt64) : Prop :=
  o.dropped = false ∧ (seq ∈ o.seqs ∨ o.phase = .pushed seq)

structure Orderly (st : State) : Prop where
  order : (st.pending.map PendingSlot.registration).Pairwise (· < ·)
  registered : ∀ p ∈ st.pending, p.registration < st.registered
  destIp : ∀ p ∈ st.pending, p.destIp = ipU32 p.dest
  held : ∀ p ∈ st.pending, Held (st.owners p.owner) p.seq
  gone : ∀ i, (st.owners i).dropped = true → (st.owners i).phase = .idle
  /-- Who was answered is no longer in the list. -/
  answered : ∀ r ∈ st.delivered, r.slot.registration < st.registered ∧
    ∀ p ∈ st.pending, p.registration ≠ r.slot.registration
  once : (st.delivered.map fun r => r.slot.registration).Nodup

variable {st : State}

theorem orderly_new : Orderly State.new where
  order := List.Pairwise.nil
  registered _ h := absurd h List.not_mem_nil
  destIp _ h := absurd h List.not_mem_nil
  held _ h := absurd h List.not_mem_nil
  gone _ _ := rfl
  answered _ h := absurd h List.not_mem_nil
  once := List.nodup_nil

theorem Orderly.gone_update (h : Orderly st) {i : Nat} {o : Owner}
    (hgone : o.dropped = true → o.phase = .idle) (j : Nat)
    (hdropped : (Function.update st.owners i o j).dropped = true) :
    (Function.update st.owners i o j).phase = .idle := by
  by_cases hj : j = i
  · rw [hj, Function.update_self] at hdropped ⊢
    exact hgone hdropped
  · rw [Function.update_of_ne hj] at hdropped ⊢
    exact h.gone j hdropped

/-- An owner moves on, and still holds its slots. -/
theorem Orderly.setOwner (h : Orderly st) {i : Nat} {o : Owner}
    (hheld : ∀ seq, Held (st.owners i) seq → Held o seq)
    (hgone : o.dropped = true → o.phase = .idle) : Orderly (st.setOwner i o) where
  order := h.order
  registered := h.registered
  destIp := h.destIp
  gone := h.gone_update hgone
  held p hp := by
    show Held (Function.update st.owners i o p.owner) p.seq
    by_cases howner : p.owner = i
    · rw [howner, Function.update_self]
      exact hheld p.seq (howner ▸ h.held p hp)
    · rw [Function.update_of_ne howner]
      exact h.held p hp
  answered := h.answered
  once := h.once

theorem Orderly.withdraw (h : Orderly st) (gone : UInt64 → Bool) : Orderly (st.withdraw gone) where
  order := h.order.sublist (List.filter_sublist.map _)
  registered p hp := h.registered p (List.mem_filter.mp hp).1
  destIp p hp := h.destIp p (List.mem_filter.mp hp).1
  held p hp := h.held p (List.mem_filter.mp hp).1
  gone := h.gone
  answered r hr := ⟨(h.answered r hr).1, fun p hp =>
    (h.answered r hr).2 p (List.mem_filter.mp hp).1⟩
  once := h.once

/-- An owner that holds its slots by their numbers goes, and they with it. -/
theorem Orderly.drop (h : Orderly st) {i : Nat} {o : Owner}
    (hphase : ∀ seq, (st.owners i).phase ≠ .pushed seq) (hidle : o.phase = .idle) :
    Orderly ((st.setOwner i o).withdraw fun s => s ∈ (st.owners i).seqs) where
  order := h.order.sublist (List.filter_sublist.map _)
  registered p hp := h.registered p (List.mem_filter.mp hp).1
  destIp p hp := h.destIp p (List.mem_filter.mp hp).1
  gone := h.gone_update fun _ => hidle
  held p hp := by
    obtain ⟨hp, hstays⟩ := List.mem_filter.mp hp
    show Held (Function.update st.owners i o p.owner) p.seq
    by_cases howner : p.owner = i
    · obtain ⟨-, hseq | hpushed⟩ := h.held p hp
      · rw [howner] at hseq
        simp [hseq] at hstays
      · rw [howner] at hpushed
        exact absurd hpushed (hphase p.seq)
    · rw [Function.update_of_ne howner]
      exact h.held p hp
  answered r hr := ⟨(h.answered r hr).1, fun p hp =>
    (h.answered r hr).2 p (List.mem_filter.mp hp).1⟩
  once := h.once

theorem Orderly.push (h : Orderly st) {slot : PendingSlot}
    (hnew : slot.registration = st.registered) (hip : slot.destIp = ipU32 slot.dest)
    (hheld : Held (st.owners slot.owner) slot.seq) :
    Orderly { st with pending := st.pending ++ [slot], registered := st.registered + 1 } where
  order := by
    rw [List.map_append, List.pairwise_append]
    refine ⟨h.order, List.pairwise_singleton _ _, fun a ha b hb => ?_⟩
    obtain ⟨p, hp, rfl⟩ := List.mem_map.mp ha
    rw [List.mem_singleton.mp hb, hnew]
    exact h.registered p hp
  registered p hp := by
    rcases List.mem_append.mp hp with hold | hlast
    · exact (h.registered p hold).trans (Nat.lt_succ_self _)
    · rw [List.mem_singleton.mp hlast, hnew]
      exact Nat.lt_succ_self _
  destIp p hp := by
    rcases List.mem_append.mp hp with hold | hlast
    · exact h.destIp p hold
    · rw [List.mem_singleton.mp hlast]
      exact hip
  held p hp := by
    rcases List.mem_append.mp hp with hold | hlast
    · exact h.held p hold
    · rw [List.mem_singleton.mp hlast]
      exact hheld
  gone := h.gone
  answered r hr := by
    obtain ⟨hlt, hnone⟩ := h.answered r hr
    refine ⟨hlt.trans (Nat.lt_succ_self _), fun p hp => ?_⟩
    rcases List.mem_append.mp hp with hold | hlast
    · exact hnone p hold
    · rw [List.mem_singleton.mp hlast, hnew]
      exact hlt.ne'
  once := h.once

/-- Two slots of the list are in the order of their registration. -/
theorem Orderly.lt_of_append (h : Orderly st) {before after : List PendingSlot} {slot : PendingSlot}
    (hpending : st.pending = before ++ slot :: after) :
    (∀ p ∈ before, p.registration < slot.registration) ∧
      ∀ p ∈ after, slot.registration < p.registration := by
  have horder := h.order
  rw [hpending, List.map_append, List.map_cons, List.pairwise_append, List.pairwise_cons] at horder
  obtain ⟨-, ⟨hafter, -⟩, hbefore⟩ := horder
  exact ⟨fun p hp => hbefore _ (List.mem_map_of_mem hp) _ (List.mem_cons_self ..),
    fun p hp => hafter _ (List.mem_map_of_mem hp)⟩

theorem Orderly.demuxed (h : Orderly st) {d : Datagram} {st' : State} (hstep : Demuxed st d st') :
    Orderly st' := by
  cases hstep with
  | nobody => exact h
  | @taken before after slot hpending =>
    have hslot : slot ∈ st.pending := by
      rw [hpending]
      exact List.mem_append_right _ (List.mem_cons_self ..)
    have hsub : (before ++ after).Sublist st.pending := by
      rw [hpending]
      exact (List.Sublist.refl before).append (List.sublist_cons_self slot after)
    obtain ⟨hbefore, hafter⟩ := h.lt_of_append hpending
    refine ⟨h.order.sublist (hsub.map _), fun p hp => h.registered p (hsub.subset hp),
      fun p hp => h.destIp p (hsub.subset hp), fun p hp => h.held p (hsub.subset hp), h.gone,
      fun r hr => ?_, ?_⟩
    · rcases List.mem_append.mp hr with hold | hlast
      · exact ⟨(h.answered r hold).1, fun p hp => (h.answered r hold).2 p (hsub.subset hp)⟩
      · rw [List.mem_singleton.mp hlast]
        refine ⟨h.registered slot hslot, fun p hp => ?_⟩
        rcases List.mem_append.mp hp with hp | hp
        · exact (hbefore p hp).ne
        · exact (hafter p hp).ne'
    · rw [List.map_append, List.nodup_append]
      refine ⟨h.once, List.nodup_singleton _, fun a ha b hb => ?_⟩
      obtain ⟨r, hr, rfl⟩ := List.mem_map.mp ha
      rw [List.mem_singleton.mp hb]
      exact ((h.answered r hr).2 slot hslot).symm

/-- An owner in the middle of `begin_request` is there. -/
theorem Orderly.present (h : Orderly st) {i : Nat} (hphase : (st.owners i).phase ≠ .idle) :
    (st.owners i).dropped = false :=
  Bool.eq_false_iff.mpr fun hdropped => hphase (h.gone i hdropped)

/-- A phase in which no slot is held by the phase alone. -/
theorem held_of_phase {o : Owner} {seq : UInt64} (phase : Phase)
    (hphase : ∀ seq, o.phase ≠ .pushed seq) (hheld : Held o seq) : Held { o with phase } seq :=
  ⟨hheld.1, hheld.2.imp_right fun hpushed => absurd hpushed (hphase seq)⟩

theorem Orderly.allocate (h : Orderly st) {i : Nat} (hphase : (st.owners i).phase = .idle)
    (hpresent : (st.owners i).dropped = false) (seq : UInt64) (phase : Phase) :
    Orderly { st.setOwner i { st.owners i with phase } with nextSeq := seq } := by
  have hset : Orderly (st.setOwner i { st.owners i with phase }) := by
    refine h.setOwner (fun seq => held_of_phase _ fun seq' hpushed => ?_) fun hdropped => ?_
    · exact Phase.noConfusion (hphase.symm.trans hpushed)
    · exact absurd (hpresent.symm.trans hdropped) (by decide)
  exact ⟨hset.order, hset.registered, hset.destIp, hset.held, hset.gone, hset.answered, hset.once⟩

theorem Orderly.step (md5 : Bytes → Hash16) (udpKey : UInt32) (h : Orderly st) (op : Op) :
    Orderly (st.step md5 udpKey op) := by
  cases op with
  | allocate i dest expect =>
    rw [State.step]
    cases hphase : (st.owners i).phase with
    | idle =>
      dsimp only
      split_ifs with hdropped
      · exact h
      · exact h.allocate hphase (by simpa using hdropped) _ _
    | _ => exact h
  | push i =>
    rw [State.step]
    cases hphase : (st.owners i).phase with
    | allocated seq dest expect =>
      have hpresent : (st.owners i).dropped = false :=
        h.present (by rw [hphase]; exact Phase.noConfusion)
      have hset : Orderly (st.setOwner i { st.owners i with phase := .pushed seq }) := by
        refine h.setOwner (fun seq => held_of_phase _ fun seq' hpushed => ?_) fun hdropped => ?_
        · exact Phase.noConfusion (hphase.symm.trans hpushed)
        · exact absurd (hpresent.symm.trans hdropped) (by decide)
      refine hset.push rfl rfl ?_
      show Held (Function.update st.owners i _ i) seq
      rw [Function.update_self]
      exact ⟨hpresent, .inr rfl⟩
    | _ => exact h
  | track i =>
    rw [State.step]
    cases hphase : (st.owners i).phase with
    | pushed seq =>
      have hpresent : (st.owners i).dropped = false :=
        h.present (by rw [hphase]; exact Phase.noConfusion)
      refine h.setOwner (fun seq' hheld => ⟨hheld.1, .inl ?_⟩) fun hdropped => ?_
      · rcases hheld.2 with hmem | hpushed
        · exact List.mem_append_left _ hmem
        · rw [hphase] at hpushed
          cases hpushed
          exact List.mem_append_right _ (List.mem_singleton_self _)
      · exact absurd (hpresent.symm.trans hdropped) (by decide)
    | _ => exact h
  | sent i ok =>
    rw [State.step]
    cases hphase : (st.owners i).phase with
    | sending seq =>
      have hset : Orderly (st.setOwner i { st.owners i with phase := .idle }) := by
        refine h.setOwner (fun seq => held_of_phase _ fun seq' hpushed => ?_) fun _ => rfl
        exact Phase.noConfusion (hphase.symm.trans hpushed)
      dsimp only
      split_ifs
      · exact hset
      · exact hset.withdraw _
    | _ => exact h
  | timeout i seq =>
    rw [State.step]
    split_ifs
    · exact h.withdraw _
    · exact h
  | drop i =>
    rw [State.step]
    cases hphase : (st.owners i).phase with
    | idle => exact h.drop (fun seq hpushed => Phase.noConfusion (hphase.symm.trans hpushed)) rfl
    | sending seq' =>
      exact h.drop (fun seq hpushed => Phase.noConfusion (hphase.symm.trans hpushed)) rfl
    | _ => exact h
  | datagram d => exact h.demuxed (KadDemux.demuxed st d)

theorem Orderly.run (md5 : Bytes → Hash16) (udpKey : UInt32) (h : Orderly st) (ops : List Op) :
    Orderly (st.run md5 udpKey ops) := by
  induction ops generalizing st with
  | nil => exact h
  | cons op ops ih => exact ih (h.step md5 udpKey op)

/-! ## Runs -/

/-- The slot that a datagram is answered to, of those that wait: at its opcode and its ip, at its
    very address if there is such a one, and the first registered of these. -/
structure Chosen (pending : List PendingSlot) (d : Datagram) (slot : PendingSlot) : Prop where
  waits : slot ∈ pending
  opcode : slot.expect = d.opcode
  ip : ipU32 slot.dest = ipU32 d.source
  exact_first : (∃ p ∈ pending, p.dest = d.source ∧ p.expect = d.opcode) → slot.dest = d.source
  earliest : ∀ p ∈ pending, p.expect = d.opcode →
    (if slot.dest = d.source then p.dest = d.source else ipU32 p.dest = ipU32 d.source) →
    slot.registration ≤ p.registration

theorem Orderly.chosen (h : Orderly st) {d : Datagram} {before after : List PendingSlot}
    {slot : PendingSlot} (hpending : st.pending = before ++ slot :: after)
    (hmatch : (Exact d slot ∧ ∀ p ∈ before, ¬Exact d p) ∨
      (SameIp d slot ∧ (∀ p ∈ st.pending, ¬Exact d p) ∧ ∀ p ∈ before, ¬SameIp d p)) :
    Chosen st.pending d slot := by
  have hslot : slot ∈ st.pending := by
    rw [hpending]
    exact List.mem_append_right _ (List.mem_cons_self ..)
  -- who is not before the slot is registered later
  have hlater {p : PendingSlot} (hp : p ∈ st.pending) (hnot : p ∉ before) :
      slot.registration ≤ p.registration := by
    rw [hpending] at hp
    rcases List.mem_append.mp hp with hp | hp
    · exact absurd hp hnot
    · rcases List.mem_cons.mp hp with rfl | hp
      · exact le_rfl
      · exact ((h.lt_of_append hpending).2 p hp).le
  rcases hmatch with ⟨hexact, hbefore⟩ | ⟨hip, hnone, hbefore⟩
  · refine ⟨hslot, hexact.2, by rw [hexact.1], fun _ => hexact.1, fun p hp hop hdest => ?_⟩
    rw [if_pos hexact.1] at hdest
    exact hlater hp fun hmem => hbefore p hmem ⟨hdest, hop⟩
  · have hother : slot.dest ≠ d.source := fun heq => hnone slot hslot ⟨heq, hip.2⟩
    refine ⟨hslot, hip.2, (h.destIp slot hslot).symm.trans hip.1, fun ⟨p, hp, hmatch⟩ => ?_,
      fun p hp hop hdest => ?_⟩
    · exact absurd hmatch (hnone p hp)
    · rw [if_neg hother] at hdest
      exact hlater hp fun hmem => hbefore p hmem ⟨(h.destIp p hp).trans hdest, hop⟩

/-- After any interleaving: a datagram nobody waits for at its ip and opcode changes nothing, and
    any other is answered to the one chosen slot, whose owner is there, and takes it out of the
    list; no slot is ever answered twice; and every slot in the list is of an owner that has not
    been dropped. -/
theorem demux_sound (md5 : Bytes → Hash16) (udpKey : UInt32) (ops : List Op) :
    (∀ d,
      let st := State.new.run md5 udpKey ops
      let st' := st.step md5 udpKey (.datagram d)
      (st' = st ∧ ∀ p ∈ st.pending, ¬(ipU32 p.dest = ipU32 d.source ∧ p.expect = d.opcode)) ∨
      ∃ slot, Chosen st.pending d slot ∧ (st.owners slot.owner).dropped = false ∧
        st'.delivered = st.delivered ++
          [⟨slot, d, d.payload, d.receiverVk = slot.senderVk, d.senderVk⟩] ∧
        st'.pending = st.pending.erase slot ∧ slot ∉ st'.pending) ∧
    ((State.new.run md5 udpKey ops).delivered.map fun r => r.slot.registration).Nodup ∧
    (∀ r ∈ (State.new.run md5 udpKey ops).delivered,
      ∀ p ∈ (State.new.run md5 udpKey ops).pending, p.registration ≠ r.slot.registration) ∧
    ∀ p ∈ (State.new.run md5 udpKey ops).pending,
      ((State.new.run md5 udpKey ops).owners p.owner).dropped = false := by
  have h := orderly_new.run md5 udpKey ops
  generalize State.new.run md5 udpKey ops = st at h
  refine ⟨fun d => ?_, h.once, fun r hr => (h.answered r hr).2, fun p hp => (h.held p hp).1⟩
  have hdemuxed := demuxed st d
  dsimp only
  rw [State.step]
  generalize st.deliver d = st' at hdemuxed
  cases hdemuxed with
  | nobody hexact hip =>
    refine .inl ⟨rfl, fun p hp hmatch => hip p hp ⟨(h.destIp p hp).trans hmatch.1, hmatch.2⟩⟩
  | @taken before after slot hpending hmatch =>
    have hchosen := h.chosen hpending hmatch
    obtain ⟨hbefore, hafter⟩ := h.lt_of_append hpending
    have hnot : slot ∉ before := fun hmem => (hbefore slot hmem).ne rfl
    refine .inr ⟨slot, hchosen, (h.held slot hchosen.waits).1, rfl, ?_, fun hmem => ?_⟩
    · rw [hpending, List.erase_append_right _ hnot, List.erase_cons_head]
    · rcases List.mem_append.mp hmem with hmem | hmem
      · exact hnot hmem
      · exact (hafter slot hmem).ne rfl

end PadMule.Engine.KadDemux
