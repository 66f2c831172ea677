import PadMule.Engine.KadAnswers
import PadMule.Lib.Nearest

/-
  `mule-engine/src/kad_live.rs`: whom a node names to those who ask it.

  A FIND is answered with the contacts of the live table that are closest to its target, among those
  that are verified and answered us: no two at one address, and none that was not vouched for and
  did not answer, both at the very address that is handed on. Whom a node knows by hearsay alone it
  does not name. A BOOTSTRAP asks for less: that its contacts are verified.
-/

namespace PadMule.Kad.RoutingTable

open PadMule.Proto

theorem selfId_run (t : RoutingTable) (ops : List RoutingOp) : (t.run ops).selfId = t.selfId := by
  refine run_induct (P := fun t' => t'.selfId = t.selfId) (fun t' s h => ?_) (fun _ _ h _ => h) rfl
    ops
  rcases t'.add_cases s with ⟨-, heq⟩ | ⟨-, -, heq⟩
  · rw [heq]
    exact h
  · rw [heq]
    exact h

/-- What is handed out of the table is the nearest part of it. -/
theorem closestToMaxType_eq (t : RoutingTable) (target : Kad128) (count : Nat) (maxType : UInt8) :
    t.closestToMaxType target count maxType =
      Nearest.nearest (fun c : Contact => target.distance c.id) count
        (t.contacts.filter fun c => c.verified && c.kadType ≤ maxType) := rfl

theorem Shaped.distances {t : RoutingTable} (h : t.Shaped) (target : Kad128)
    (keep : Contact → Bool) :
    ((t.contacts.filter keep).map fun c : Contact => target.distance c.id).Nodup := by
  have hids : ((t.contacts.filter keep).map Contact.id).Nodup :=
    h.wellFormed.ids.sublist (List.filter_sublist.map _)
  have hcomp : (fun c : Contact => target.distance c.id) = target.distance ∘ Contact.id := rfl
  rw [hcomp, ← List.map_map]
  exact hids.map fun a b hab => Kad128.distance_inj hab

end PadMule.Kad.RoutingTable

namespace PadMule.Engine.KadNode

open PadMule.Proto PadMule.Kad KadGate KadDemux KadServe

variable {p : Primitives} {who : Identity} {ops : List NodeOp} {source : SocketAddr}
  {bytes out : Bytes} {rand : Rand} {d : KadDemux.Datagram}

/-- Contacts of the table as they are named to another node: none more than asked for, the closest
    ones, in order, no two at one address, and all of them vouched for. -/
structure Named (p : Primitives) (who : Identity) (ops : List NodeOp) (table : RoutingTable)
    (target : Kad128) (count : Nat) (maxType : UInt8) (contacts : List WireContact) : Prop where
  length_le : contacts.length ≤ count
  sorted : contacts.Pairwise fun a b => target.distance a.id < target.distance b.id
  apart : (contacts.map WireContact.ip).Nodup
  foreign : ∀ c ∈ contacts, c.id ≠ who.kadId ∧ 1 < c.version
  vouched : ∀ c ∈ contacts, Vouched p who ops c.id c.ip
  enlivened : maxType ≤ KAD_TYPE_ALIVE → ∀ c ∈ contacts, Enlivened p who ops c.id c.ip
  complete : ∀ o ∈ table.contacts, o.verified = true → o.kadType ≤ maxType →
    wire o ∈ contacts ∨ (contacts.length = count ∧
      ∀ c ∈ contacts, target.distance c.id < target.distance o.id)

theorem Reached.named {n : Node} (h : Reached p who ops n) (target : Kad128) (count : Nat)
    (maxType : UInt8) : Named p who ops n.live.table target count maxType
      ((n.live.table.closestToMaxType target count maxType).map wire) := by
  obtain ⟨liveOps, hlive, hbacked⟩ := h.live
  have hguarded := World.guarded_run who.kadId liveOps
  have hstanding (id : Kad128) (ip : UInt32) := @World.standing_run id ip who.kadId liveOps
  rw [← hlive] at hguarded hstanding
  have hshaped := hguarded.shaped
  have hself : n.live.table.selfId = who.kadId := by
    obtain ⟨tableOps, htable⟩ := hguarded.reached
    rw [htable, RoutingTable.selfId_run]
    rfl
  have hdistances := hshaped.distances target fun c => c.verified && decide (c.kadType ≤ maxType)
  have hmem {c : WireContact}
      (hc : c ∈ (n.live.table.closestToMaxType target count maxType).map wire) :
      ∃ o ∈ n.live.table.contacts, wire o = c ∧ o.verified = true ∧ o.kadType ≤ maxType := by
    obtain ⟨o, ho, rfl⟩ := List.mem_map.mp hc
    obtain ⟨hcontact, hverified, htype⟩ := RoutingTable.mem_closestToMaxType ho
    exact ⟨o, hcontact, rfl, hverified, htype⟩
  refine ⟨?_, ?_, ?_, fun c hc => ?_, fun c hc => ?_, fun hmax c hc => ?_,
    fun o ho hverified htype => ?_⟩
  · rw [List.length_map]
    exact Nearest.length_nearest_le
  · exact List.pairwise_map.mpr (Nearest.nearest_sorted hdistances)
  · rw [List.map_map]
    have hips : (n.live.table.contacts.map Contact.ip).Nodup :=
      List.nodup_iff_count_le_one.mpr fun ip => (hguarded.sparse ip).1
    have hkept : ((n.live.table.contacts.filter fun c =>
        c.verified && decide (c.kadType ≤ maxType)).map Contact.ip).Nodup :=
      hips.sublist (List.filter_sublist.map _)
    have hsorted := ((List.perm_insertionSort (fun a b : Contact =>
      target.distance a.id ≤ target.distance b.id) _).map Contact.ip).nodup_iff.mpr hkept
    exact hsorted.sublist ((List.take_sublist _ _).map _)
  · obtain ⟨o, ho, rfl, -⟩ := hmem hc
    rw [← hself]
    exact hshaped.wellFormed.foreign o ho
  · obtain ⟨o, ho, rfl, hverified, -⟩ := hmem hc
    obtain ⟨op, hop, hvouches⟩ := (hstanding o.id o.ip).1 ⟨o, ho, rfl, rfl, hverified⟩
    exact (hbacked op hop o.id o.ip).1 hvouches
  · obtain ⟨o, ho, rfl, -, htype⟩ := hmem hc
    obtain ⟨op, hop, henlivens⟩ := (hstanding o.id o.ip).2 ⟨o, ho, rfl, rfl, UInt8.le_trans htype hmax⟩
    exact (hbacked op hop o.id o.ip).2 henlivens
  · have hkept : o ∈ n.live.table.contacts.filter fun c =>
        c.verified && decide (c.kadType ≤ maxType) :=
      List.mem_filter.mpr ⟨ho, by rw [hverified, decide_eq_true htype]; rfl⟩
    rcases Nearest.mem_nearest_or hdistances count hkept with hin | ⟨hfull, hfar⟩
    · exact .inl (List.mem_map.mpr ⟨o, hin, rfl⟩)
    · refine .inr ⟨(List.length_map _).trans hfull, fun c hc => ?_⟩
      obtain ⟨b, hb, rfl⟩ := List.mem_map.mp hc
      exact hfar b hb

theorem recordHello_of_ne {n : Node} (h : d.opcode ≠ OP_HELLO_REQ) : n.recordHello p d = n :=
  if_neg h

/-- MD5 on the bytes of two exchanges. -/
def md5OfFind (data : Bytes) : Hash16 :=
  if data = [0x08, 0x08, 0x08, 0x08, 0xE7, 0x03, 0x00, 0x00] then
    ⟨[0x12, 0x95, 0x2D, 0xE1, 0x1B, 0x52, 0xDA, 0x8C, 0x07, 0x73, 0x31, 0x5B,
      0xE0, 0xDE, 0x5F, 0xC5], rfl⟩
  else if data = [0xEF, 0x6A, 0x99, 0xF3, 0xEF, 0xBE] then
    ⟨[0xC7, 0x73, 0x12, 0x9A, 0x61, 0xC5, 0xAF, 0x34, 0x60, 0xD8, 0xDF, 0xC5,
      0x1A, 0x04, 0x5C, 0x56], rfl⟩
  else if data = [0x78, 0x56, 0x34, 0x12, 0xEF, 0xBE] then
    ⟨[0x5B, 0xAA, 0x50, 0xF9, 0x20, 0xFB, 0xA0, 0x29, 0x60, 0x16, 0xD0, 0x83,
      0xDF, 0x0A, 0xC4, 0xFE], rfl⟩
  else md5OfExchange data

def samplePrimitives : Primitives := ⟨md5OfFind, sampleDeflate, sampleInflate⟩

def sampleIdentity : Identity where
  kadId := ⟨0x11111111, 0x11111111, 0x11111111, 0x11111111⟩
  udpKey := 999
  tcpPort := 4662
  udpPort := 4672

def samplePeer : SocketAddr := .v4 0x08080808 4672

def sampleRand : Rand := ⟨0xBEEF, 0x40⟩

/-- A request of a peer that echoes the key we issue for it. -/
def sampleRequest (m : UInt8 × Bytes) : Bytes :=
  kadObfuscateRequest samplePrimitives.md5 (packKad samplePrimitives.deflate m.1 m.2)
    sampleIdentity.kadId sampleRand.keyPart 0xF3996AEF 0x12345678 sampleRand.marker

def sampleOpened (m : UInt8 × Bytes) : KadDemux.Datagram :=
  ⟨samplePeer, m.1, m.2, 0xF3996AEF, 0x12345678⟩

theorem opened_sample {m : UInt8 × Bytes} (h : m.2.length ≤ 300) :
    opened samplePrimitives sampleIdentity.kadId sampleIdentity.udpKey samplePeer
      (sampleRequest m) = some (sampleOpened m) :=
  opened_request sample_roundTrips _ _ h _ _ _ _ _

def sampleHello : UInt8 × Bytes := buildHelloReq ⟨0x22222222, 2, 2, 2⟩ 4662 none none

def sampleFind : UInt8 × Bytes := buildKad2Req 2 ⟨0x33333333, 3, 3, 3⟩ sampleIdentity.kadId

/-- The peer is known from its first HELLO on, and alive from its second one on. -/
def sampleOps : List NodeOp :=
  [.datagram samplePeer (sampleRequest sampleHello) sampleRand] ++
    [.datagram samplePeer (sampleRequest sampleHello) sampleRand]

theorem run_sampleOps : (Node.bind sampleIdentity).run samplePrimitives sampleOps =
    (((Node.bind sampleIdentity).turn samplePrimitives (sampleOpened sampleHello)
      sampleRand).1.turn samplePrimitives (sampleOpened sampleHello) sampleRand).1 := by
  have hhello : sampleHello.2.length ≤ 300 := by decide
  have hfirst := run_concat_of_opened [] (opened_sample hhello) sampleRand
  rw [List.nil_append] at hfirst
  rw [sampleOps, run_concat_of_opened _ (opened_sample hhello) sampleRand, hfirst]
  rfl

end PadMule.Engine.KadNode
