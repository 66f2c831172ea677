import PadMule.Engine.AichTrust
import PadMule.Engine.ServeSession
import PadMule.Engine.ServerLink
import PadMule.Proto.KadId

/-
  `mule-engine/src/fetch.rs`, `sources.rs` and `mule-files/src/ipfilter.rs`: which of the sources
  that others name to us can be dialled.

  Kad gives an address as a number with its first octet on top, a server and a peer with its first
  octet in the low byte; a peer's answer of version 3 or later swaps once more. An address is
  routable if the tests of the standard library and two of our own let it through. They name every
  block that no source can be in, except that of 0.0.0.0/8 only 0.0.0.0 itself is named
  (`isRoutablePublicV4_iff`).
-/

namespace PadMule.Engine

open PadMule.Proto LittleEndian

/-! ## Addresses -/

/-- Octet `i` of an IPv4 address in host order, the first on top. -/
def octet (ip : UInt32) (i : Nat) : Nat := ip.toNat / 256 ^ (3 - i) % 256

/-- `SocketAddr::ip`. -/
def SocketAddr.ip : SocketAddr → IpAddr
  | .v4 ip _ =>
    let o (i : Nat) : UInt8 := .ofNat (octet ip i)
    .v4 (o 0) (o 1) (o 2) (o 3)
  | .v6 ip _ => .v6 (.ofFn fun i => .ofNat (ip.toNat / 256 ^ (15 - i.val)))

/-- `u32::swap_bytes`. -/
def swapBytes (x : UInt32) : UInt32 := .ofNat (ofLE (toLE 4 x.toNat).reverse)

/-- `ed2k_ip`: the address of an id with its first octet in the low byte. -/
def ed2kIp (id : UInt32) : UInt32 := swapBytes id

theorem ofLE_word (x : UInt32) : ofLE (toLE 4 x.toNat) = x.toNat := ofLE_toLE x.toNat_lt

/-- The id of an address is the address of that id. -/
@[simp] theorem swapBytes_swapBytes (x : UInt32) : swapBytes (swapBytes x) = x := by
  have hlen : (toLE 4 x.toNat).reverse.length = 4 := by simp
  have hlt : ofLE (toLE 4 x.toNat).reverse < 2 ^ 32 := by
    have := ofLE_lt (toLE 4 x.toNat).reverse
    rw [hlen] at this
    omega
  have hback := toLE_ofLE (toLE 4 x.toNat).reverse
  rw [hlen] at hback
  apply UInt32.toNat.inj
  rw [swapBytes, swapBytes, UInt32.toNat_ofNat_of_lt' hlt, hback, List.reverse_reverse, ofLE_word]
  exact UInt32.toNat_ofNat_of_lt' x.toNat_lt

/-! ## Blocks -/

/-- The addresses that share their first `len` bits with `base`. -/
structure AddrBlock where
  base : UInt32
  len : Nat
deriving DecidableEq

def AddrBlock.Contains (b : AddrBlock) (ip : UInt32) : Prop :=
  ip.toNat / 2 ^ (32 - b.len) = b.base.toNat / 2 ^ (32 - b.len)

instance (b : AddrBlock) (ip : UInt32) : Decidable (b.Contains ip) :=
  inferInstanceAs (Decidable (_ = _))

/-- 0.0.0.0/8. -/
def thisNetwork : AddrBlock := ⟨0, 8⟩

/-- Loopback, the three private ones, link-local, carrier-grade NAT, the three for documentation,
    multicast, and 240.0.0.0/4. -/
def specialBlocks : List AddrBlock :=
  [⟨0x7F000000, 8⟩, ⟨0x0A000000, 8⟩, ⟨0xAC100000, 12⟩, ⟨0xC0A80000, 16⟩, ⟨0xA9FE0000, 16⟩,
    ⟨0x64400000, 10⟩, ⟨0xC0000200, 24⟩, ⟨0xC6336400, 24⟩, ⟨0xCB007100, 24⟩, ⟨0xE0000000, 4⟩,
    ⟨0xF0000000, 4⟩]

/-- A public unicast address. -/
def PublicUnicast (ip : UInt32) : Prop :=
  ¬thisNetwork.Contains ip ∧ ∀ b ∈ specialBlocks, ¬b.Contains ip

namespace Ipv4Addr

def isPrivate (ip : UInt32) : Bool :=
  octet ip 0 = 10 || (octet ip 0 = 172 && (16 ≤ octet ip 1 && octet ip 1 ≤ 31)) ||
    (octet ip 0 = 192 && octet ip 1 = 168)

def isLoopback (ip : UInt32) : Bool := octet ip 0 = 127

def isLinkLocal (ip : UInt32) : Bool := octet ip 0 = 169 && octet ip 1 = 254

def isBroadcast (ip : UInt32) : Bool := ip = 0xFFFFFFFF

def isMulticast (ip : UInt32) : Bool := 224 ≤ octet ip 0 && octet ip 0 ≤ 239

def isUnspecified (ip : UInt32) : Bool := ip = 0

def isDocumentation (ip : UInt32) : Bool :=
  (octet ip 0 = 192 && octet ip 1 = 0 && octet ip 2 = 2) ||
    (octet ip 0 = 198 && octet ip 1 = 51 && octet ip 2 = 100) ||
    (octet ip 0 = 203 && octet ip 1 = 0 && octet ip 2 = 113)

end Ipv4Addr

open Ipv4Addr in
def isRoutablePublicV4 (ip : UInt32) : Bool :=
  !(isPrivate ip || isLoopback ip || isLinkLocal ip || isBroadcast ip || isMulticast ip ||
    isUnspecified ip || isDocumentation ip ||
    (octet ip 0 = 100 && (64 ≤ octet ip 1 && octet ip 1 ≤ 127)) || 240 ≤ octet ip 0)

/-! ## The tests and the blocks -/

/-- Blocks of at most 24 bits are unions of subnets, told apart by the first three octets. -/
theorem AddrBlock.contains_iff (b : AddrBlock) (ip : UInt32) (hlen : b.len ≤ 24) : b.Contains ip ↔
    (65536 * octet ip 0 + 256 * octet ip 1 + octet ip 2) / 2 ^ (24 - b.len) =
      b.base.toNat / 2 ^ (32 - b.len) := by
  have hlt : ip.toNat < 2 ^ 32 := ip.toNat_lt
  have hfirst : 65536 * octet ip 0 + 256 * octet ip 1 + octet ip 2 = ip.toNat / 2 ^ 8 := by
    simp only [octet]
    omega
  have hexp : 2 ^ (32 - b.len) = 2 ^ 8 * 2 ^ (24 - b.len) := by
    rw [← pow_add]
    congr 1
    omega
  rw [AddrBlock.Contains, hexp, hfirst, Nat.div_div_eq_div_mul]

theorem octet_lt (ip : UInt32) (i : Nat) : octet ip i < 256 := Nat.mod_lt _ (by decide)

namespace Ipv4Addr

theorem isPrivate_iff (ip : UInt32) : isPrivate ip = true ↔
    AddrBlock.Contains ⟨0x0A000000, 8⟩ ip ∨ AddrBlock.Contains ⟨0xAC100000, 12⟩ ip ∨
      AddrBlock.Contains ⟨0xC0A80000, 16⟩ ip := by
  have hsecond := octet_lt ip 1
  have hthird := octet_lt ip 2
  simp only [AddrBlock.contains_iff, Nat.reduceLeDiff]
  simp [isPrivate]
  omega

theorem isLoopback_iff (ip : UInt32) :
    isLoopback ip = true ↔ AddrBlock.Contains ⟨0x7F000000, 8⟩ ip := by
  have hsecond := octet_lt ip 1
  have hthird := octet_lt ip 2
  simp only [AddrBlock.contains_iff, Nat.reduceLeDiff]
  simp [isLoopback]
  omega

theorem isLinkLocal_iff (ip : UInt32) :
    isLinkLocal ip = true ↔ AddrBlock.Contains ⟨0xA9FE0000, 16⟩ ip := by
  have hsecond := octet_lt ip 1
  have hthird := octet_lt ip 2
  simp only [AddrBlock.contains_iff, Nat.reduceLeDiff]
  simp [isLinkLocal]
  omega

theorem isMulticast_iff (ip : UInt32) :
    isMulticast ip = true ↔ AddrBlock.Contains ⟨0xE0000000, 4⟩ ip := by
  have hsecond := octet_lt ip 1
  have hthird := octet_lt ip 2
  simp only [AddrBlock.contains_iff, Nat.reduceLeDiff]
  simp [isMulticast]
  omega

theorem isDocumentation_iff (ip : UInt32) : isDocumentation ip = true ↔
    AddrBlock.Contains ⟨0xC0000200, 24⟩ ip ∨ AddrBlock.Contains ⟨0xC6336400, 24⟩ ip ∨
      AddrBlock.Contains ⟨0xCB007100, 24⟩ ip := by
  have hsecond := octet_lt ip 1
  have hthird := octet_lt ip 2
  simp only [AddrBlock.contains_iff, Nat.reduceLeDiff]
  simp [isDocumentation]
  omega

end Ipv4Addr

theorem carrierGradeNat_iff (ip : UInt32) :
    octet ip 0 = 100 ∧ 64 ≤ octet ip 1 ∧ octet ip 1 ≤ 127 ↔
      AddrBlock.Contains ⟨0x64400000, 10⟩ ip := by
  have hsecond := octet_lt ip 1
  have hthird := octet_lt ip 2
  simp only [AddrBlock.contains_iff, Nat.reduceLeDiff]
  simp
  omega

theorem reserved_iff (ip : UInt32) : 240 ≤ octet ip 0 ↔ AddrBlock.Contains ⟨0xF0000000, 4⟩ ip := by
  have hfirst := octet_lt ip 0
  have hsecond := octet_lt ip 1
  have hthird := octet_lt ip 2
  simp only [AddrBlock.contains_iff, Nat.reduceLeDiff]
  simp
  omega

open Ipv4Addr in
/-- The tests leave out 0.0.0.0 and all the blocks but the first. -/
theorem isRoutablePublicV4_iff (ip : UInt32) :
    isRoutablePublicV4 ip = true ↔ ip ≠ 0 ∧ ∀ b ∈ specialBlocks, ¬b.Contains ip := by
  have hbroadcast : isBroadcast ip = true → AddrBlock.Contains ⟨0xF0000000, 4⟩ ip := by
    intro h
    obtain rfl : ip = 0xFFFFFFFF := of_decide_eq_true h
    decide
  have hrejected : isRoutablePublicV4 ip = false ↔ ip = 0 ∨ ∃ b ∈ specialBlocks, b.Contains ip := by
    simp only [isRoutablePublicV4, Bool.not_eq_false', Bool.or_eq_true, Bool.and_eq_true,
      decide_eq_true_eq, isPrivate_iff, isLoopback_iff, isLinkLocal_iff, isMulticast_iff,
      isDocumentation_iff, carrierGradeNat_iff, reserved_iff, isUnspecified, specialBlocks,
      List.mem_cons, List.not_mem_nil, exists_eq_or_imp, or_false, exists_eq_left]
    grind
  rw [← Bool.not_eq_false, hrejected, not_or]
  simp only [not_exists, not_and]

/-! ## The user's blocklist -/

/-- Ranges in host order, ends included. -/
structure IpFilter where
  ranges : List (UInt32 × UInt32)
  sorted : ranges.Pairwise fun a b => a.1 < b.1
deriving DecidableEq

/-- The binary search finds the last range that starts at or before `ip`. -/
def IpFilter.isBlocked (f : IpFilter) (ip : UInt32) : Bool :=
  match (f.ranges.takeWhile fun range => range.1 ≤ ip).getLast? with
  | none => false
  | some (start, last) => ip = start || (start ≤ ip && ip ≤ last)

/-- The test that every gate makes of an address; only IPv4 is filtered. -/
def blocks : Option IpFilter → SocketAddr → Bool
  | some filter, .v4 ip _ => filter.isBlocked ip
  | _, _ => false

/-! ## Sources -/

inductive SourceOrigin where
  | kad
  | server
  | peerExchange
deriving DecidableEq

structure PeerSource where
  addr : SocketAddr
  userHash : Option Hash16
  crypt : Option UInt8
  origin : SourceOrigin
deriving DecidableEq

/-- `mule_kad::Source`, a result of a Kad source search. -/
structure KadSource where
  clientHash : Kad128
  sourceType : UInt8
  ip : Option UInt32
  tcpPort : Option UInt16
  crypt : Option UInt8
deriving DecidableEq

/-- A source that the server announces. -/
structure FoundSource where
  ip : UInt32
  port : UInt16
  crypt : Option UInt8
  userHash : Option Hash16
deriving DecidableEq

def sxIdFromWire (id : UInt32) (version : UInt8) : UInt32 :=
  if 3 ≤ version then swapBytes id else id

/-- `parse_answer_sources`, on records that are read with the id as it stands on the wire. -/
def parseAnswerSources (version : UInt8) (records : List SxSource) : List SxSource :=
  records.map fun record => { record with ip := sxIdFromWire record.ip version }

namespace PeerSource

def fromKad (s : KadSource) : Option PeerSource :=
  if s.sourceType ≠ 1 ∧ s.sourceType ≠ 4 then none
  else
    match s.ip, s.tcpPort with
    | some ip, some tcp =>
      if ip = 0 ∨ tcp = 0 then none
      else if !isRoutablePublicV4 ip then none
      else some ⟨.v4 ip tcp, some s.clientHash.toHash, s.crypt, .kad⟩
    | _, _ => none

def fromFound (s : FoundSource) : Option PeerSource :=
  if s.port = 0 ∨ s.ip < HIGHEST_LOWID then none
  else if !isRoutablePublicV4 (ed2kIp s.ip) then none
  else some ⟨.v4 (ed2kIp s.ip) s.port, s.userHash, s.crypt, .server⟩

def fromSx (s : SxSource) : Option PeerSource :=
  if s.port = 0 ∨ s.ip < HIGHEST_LOWID then none
  else if !isRoutablePublicV4 (ed2kIp s.ip) then none
  else some ⟨.v4 (ed2kIp s.ip) s.port, s.userHash, s.crypt, .peerExchange⟩

/-- What the three constructors let through: an address that can be dialled, and that is not made
    of a LowID. -/
def Routed (s : PeerSource) : Prop :=
  ∃ ip port, s.addr = .v4 ip port ∧ port ≠ 0 ∧ isRoutablePublicV4 ip = true ∧
    (s.origin ≠ .kad → HIGHEST_LOWID ≤ swapBytes ip)

theorem routed_fromKad {k : KadSource} {s : PeerSource} (h : fromKad k = some s) : s.Routed := by
  rw [fromKad] at h
  split at h
  · cases h
  · split at h
    · next ip tcp _ _ =>
      split_ifs at h with hzero hroutable
      obtain rfl := Option.some.inj h
      exact ⟨ip, tcp, rfl, fun hport => hzero (.inr hport), by simpa using hroutable,
        fun horigin => absurd rfl horigin⟩
    · cases h

theorem routed_fromFound {f : FoundSource} {s : PeerSource} (h : fromFound f = some s) :
    s.Routed := by
  rw [fromFound] at h
  split_ifs at h with hlow hroutable
  obtain rfl := Option.some.inj h
  obtain ⟨hport, hid⟩ := not_or.mp hlow
  exact ⟨_, _, rfl, hport, by simpa using hroutable, fun _ => by
    rw [ed2kIp, swapBytes_swapBytes]
    exact UInt32.not_lt.mp hid⟩

/-- The record of a peer is judged as that of a server is. -/
theorem fromSx_eq (s : SxSource) : fromSx s =
    (fromFound ⟨s.ip, s.port, s.crypt, s.userHash⟩).map ({ · with origin := .peerExchange }) := by
  rw [fromSx, fromFound]
  split_ifs <;> rfl

theorem routed_fromSx {x : SxSource} {s : PeerSource} (h : fromSx x = some s) : s.Routed := by
  rw [fromSx_eq] at h
  obtain ⟨found, hfound, rfl⟩ := Option.map_eq_some_iff.mp h
  obtain ⟨ip, port, haddr, hport, hroutable, hlow⟩ := routed_fromFound hfound
  refine ⟨ip, port, haddr, hport, hroutable, fun _ => hlow ?_⟩
  rw [fromFound] at hfound
  split_ifs at hfound
  obtain rfl := Option.some.inj hfound
  simp

end PeerSource

/-! ## The registry -/

structure SourceRegistry where
  sources : List PeerSource
deriving DecidableEq

namespace SourceRegistry

def new : SourceRegistry := ⟨[]⟩

/-- One source an address; whether the source was taken. -/
def add (reg : SourceRegistry) (s : PeerSource) : SourceRegistry × Bool :=
  if reg.sources.any fun e => e.addr = s.addr then (reg, false)
  else (⟨reg.sources ++ [s]⟩, true)

def addAll (reg : SourceRegistry) (sources : List PeerSource) : SourceRegistry :=
  sources.foldl (fun reg s => (reg.add s).1) reg

def addKad (reg : SourceRegistry) (sources : List KadSource) : SourceRegistry :=
  reg.addAll (sources.filterMap PeerSource.fromKad)

def addFound (reg : SourceRegistry) (sources : List FoundSource) : SourceRegistry :=
  reg.addAll (sources.filterMap PeerSource.fromFound)

def dropBlocked (reg : SourceRegistry) (blocked : SocketAddr → Bool) : SourceRegistry :=
  ⟨reg.sources.filter fun s => !blocked s.addr⟩

theorem mem_addAll {reg : SourceRegistry} {sources : List PeerSource} {s : PeerSource}
    (h : s ∈ (reg.addAll sources).sources) : s ∈ reg.sources ∨ s ∈ sources := by
  induction sources generalizing reg with
  | nil => exact .inl h
  | cons head rest ih =>
    rcases ih h with hreg | hrest
    · simp only [add] at hreg
      split_ifs at hreg
      · exact .inl hreg
      · rcases List.mem_append.mp hreg with hreg | hnew
        · exact .inl hreg
        · exact .inr (List.mem_singleton.mp hnew ▸ List.mem_cons_self)
    · exact .inr (List.mem_cons_of_mem head hrest)

end SourceRegistry

/-- Answers below it are not taken for the whole set of sources. -/
def MIN_DIALABLE_TO_SKIP_KAD : Nat := 4

/-- The sources to dial, and the LowIDs that the server is asked to have call us. -/
def registryFrom (ipFilter : Option IpFilter) (found : List FoundSource) (lowId : Bool)
    (kadSources : List KadSource) : SourceRegistry × List UInt32 :=
  let reg := (SourceRegistry.new.addFound found).addKad kadSources
  let lowids := if lowId then [] else
    (found.filter fun s => s.ip ≠ 0 && s.ip < HIGHEST_LOWID && s.port ≠ 0).map FoundSource.ip
  (reg.dropBlocked (blocks ipFilter), lowids)

/-- `find_sources`, where the server and Kad answer `found` and `kadSources` if they are asked. -/
def findSources (ipFilter : Option IpFilter) (lowId : Bool) (found : List FoundSource)
    (kadSources : List KadSource) (stopWhenServerAnswers : Bool) : SourceRegistry × List UInt32 :=
  let dialable := found.countP fun s => (PeerSource.fromFound s).isSome
  if stopWhenServerAnswers ∧ MIN_DIALABLE_TO_SKIP_KAD ≤ dialable then
    registryFrom ipFilter found lowId []
  else registryFrom ipFilter found lowId kadSources

/-- `reask_sources` does not look at the blocklist. -/
def reaskSources (found : List FoundSource) (kadSources : List KadSource) : List PeerSource :=
  found.filterMap PeerSource.fromFound ++ kadSources.filterMap PeerSource.fromKad

/-- A source that can be dialled, and that a blocklist lets through. -/
structure PeerSource.Vetted (ipFilter : Option IpFilter) (s : PeerSource) : Prop where
  routed : s.Routed
  unblocked : blocks ipFilter s.addr = false

theorem routed_reaskSources {found : List FoundSource} {kadSources : List KadSource}
    {s : PeerSource} (h : s ∈ reaskSources found kadSources) : s.Routed := by
  rcases List.mem_append.mp h with h | h
  · obtain ⟨f, -, hf⟩ := List.mem_filterMap.mp h
    exact PeerSource.routed_fromFound hf
  · obtain ⟨k, -, hk⟩ := List.mem_filterMap.mp h
    exact PeerSource.routed_fromKad hk

theorem vetted_registryFrom {ipFilter : Option IpFilter} {found : List FoundSource} {lowId : Bool}
    {kadSources : List KadSource} {s : PeerSource}
    (h : s ∈ (registryFrom ipFilter found lowId kadSources).1.sources) : s.Vetted ipFilter := by
  obtain ⟨hmem, hblocked⟩ := List.mem_filter.mp h
  refine ⟨?_, by simpa using hblocked⟩
  have hanswer : s ∈ reaskSources found kadSources := by
    rcases SourceRegistry.mem_addAll hmem with hfound | hkad
    · rcases SourceRegistry.mem_addAll hfound with hnone | hfound
      · cases hnone
      · exact List.mem_append_left _ hfound
    · exact List.mem_append_right _ hkad
  exact routed_reaskSources hanswer

theorem vetted_findSources {ipFilter : Option IpFilter} {lowId : Bool} {found : List FoundSource}
    {kadSources : List KadSource} {stop : Bool} {s : PeerSource}
    (h : s ∈ (findSources ipFilter lowId found kadSources stop).1.sources) :
    s.Vetted ipFilter := by
  simp only [findSources] at h
  split_ifs at h <;> exact vetted_registryFrom h

end PadMule.Engine
