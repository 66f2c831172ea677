import PadMule.Lib.BinTrie
import PadMule.Proto.KadId

/-
  `mule-kad/src/routing.rs` and `hardening.rs`: contacts, bins and zones.

  A zone is a trie over the bits of the XOR distance to ourselves, with its level and its index
  as the tag of every vertex; the bins are its leaves, oldest contact first.
-/

namespace PadMule.Kad

open PadMule.Proto BinTrie

/-- Contacts per leaf bin. -/
def K : Nat := 10

def MAX_SAME_SUBNET_PER_BIN : Nat := 2

def MAX_CONTACTS_PER_SLASH16 : Nat := 32

def DIVERSITY_STARVED_BELOW : Nat := K

def KBASE : Nat := 4

def KK : Nat := 5

def MAXLEVELS : Nat := 127

def KAD_TYPE_NEW : UInt8 := 3
def KAD_TYPE_ALIVE : UInt8 := 2
def KAD_TYPE_PROBED : UInt8 := 4

def ALIVE_LEASE_SECS : UInt64 := 3600
def PROBE_WINDOW_SECS : UInt64 := 120
def CHECKING_TYPE_MIN_GAP : UInt64 := 10

/-! ## Addresses -/

/-- The first and the second octet of an address in host order. -/
def octets (ip : UInt32) : UInt8 × UInt8 := ((ip >>> 24).toUInt8, (ip >>> 16).toUInt8)

/-- The table of unroutable ranges, by the first two octets. -/
def routable (allowPrivate : Bool) : UInt8 × UInt8 → Bool
  | (a, b) =>
    if a = 0 || a = 127 then false
    else if 224 ≤ a then false
    else if a = 10 && !allowPrivate then false
    else if a = 169 && b = 254 then false
    else if a = 172 && (16 ≤ b && b ≤ 31) && !allowPrivate then false
    else if a = 192 && b = 168 && !allowPrivate then false
    else true

def isAcceptableContactIp (ip : UInt32) (allowPrivate : Bool) : Bool :=
  if ip = 0 then false else routable allowPrivate (octets ip)

/-- Only a public address is subject to the subnet caps. -/
def diversityGoverned (ip : UInt32) : Bool := isAcceptableContactIp ip false

def net24 (ip : UInt32) : UInt32 := ip &&& 0xFFFFFF00

def net16 (ip : UInt32) : UInt32 := ip &&& 0xFFFF0000

/-! ## Contacts -/

structure Contact where
  id : Kad128
  ip : UInt32
  udpPort : UInt16
  tcpPort : UInt16
  version : UInt8
  verified : Bool
  /-- 0 while the peer has handed us no verify key. -/
  udpKey : UInt32
  udpKeyIp : UInt32
  kadType : UInt8
  expires : Option UInt64
  lastTypeSet : UInt64
  distance : Kad128
deriving DecidableEq

namespace Contact

def new (selfId id : Kad128) (ip : UInt32) (udpPort tcpPort : UInt16) (version : UInt8)
    (verified : Bool) (udpKey udpKeyIp : UInt32) : Contact :=
  { id, ip, udpPort, tcpPort, version, verified, udpKey, udpKeyIp
    kadType := KAD_TYPE_NEW
    expires := none
    lastTypeSet := 0
    distance := selfId.distance id }

/-- A contact we hold a key for does not change its address on the word of a keyless one. -/
def denies (old contact : Contact) : Bool :=
  old.udpKey ≠ 0 && contact.udpKey = 0 &&
    (old.ip ≠ contact.ip || old.udpPort ≠ contact.udpPort)

/-- What takes the place of the known contact `old`. -/
def replacing (contact old : Contact) : Contact :=
  if old.ip = contact.ip then
    let contact := { contact with verified := contact.verified || old.verified }
    let contact :=
      if contact.udpKey = 0 then { contact with udpKey := old.udpKey, udpKeyIp := old.udpKeyIp }
      else contact
    { contact with
      kadType := old.kadType
      expires := old.expires
      lastTypeSet := old.lastTypeSet }
  else contact

/-- The bits of the distance, the way down to the contact's bin. -/
def bits (c : Contact) : Nat → Bool := c.distance.bit

end Contact

/-- How many contacts of a bin are in the /24 of `ip`. -/
def sameSubnet (bin : List Contact) (ip : UInt32) : Nat :=
  (bin.filter fun c => net24 c.ip = net24 ip).length

def subnetCapped (bin : List Contact) (ip : UInt32) : Bool :=
  diversityGoverned ip && MAX_SAME_SUBNET_PER_BIN ≤ sameSubnet bin ip

/-! ## Zones -/

structure ZoneTag where
  level : Nat
  /-- A `u128`. -/
  index : Nat
deriving DecidableEq

abbrev Zone := BinTrie ZoneTag Contact

structure SweepOutcome where
  probes : List Contact
  removed : List Kad128
deriving DecidableEq

namespace ZoneTag

def canSplit (z : ZoneTag) : Bool := z.level < MAXLEVELS && (z.index < KK || z.level < KBASE)

/-- The tag of the half on the side `b`. -/
def half (z : ZoneTag) (b : Bool) : ZoneTag :=
  ⟨z.level + 1, (z.index <<< 1) % 2 ^ 128 ||| b.toNat⟩

end ZoneTag

namespace Zone

/-- `Zone::leaf`. -/
def emptyLeaf (level index : Nat) : Zone := .leaf ⟨level, index⟩ []

/-- A full leaf becomes an inner zone over the two halves of its bin. -/
def split (z : ZoneTag) (bin : List Contact) : Zone :=
  .node z (.leaf (z.half false) (bin.filter fun c => !c.bits z.level))
    (.leaf (z.half true) (bin.filter fun c => c.bits z.level))

/-- How often `add` can call itself. -/
def bound : Zone → Nat
  | .leaf z _ => 2 * (MAXLEVELS - z.level) + 1
  | .node _ zero one => max (bound zero) (bound one) + 1

theorem bound_split {z : ZoneTag} (h : z.canSplit = true) (bin : List Contact) :
    bound (split z bin) < bound (.leaf z bin) := by
  have hlevel : z.level < MAXLEVELS := by
    unfold ZoneTag.canSplit at h
    rw [Bool.and_eq_true, decide_eq_true_eq] at h
    exact h.1
  simp only [split, bound, ZoneTag.half, Nat.max_self]
  omega

/-- Whether the contact was accepted, and the zone after it. -/
def add (contact : Contact) (starved : Bool) : Zone → Bool × Zone
  | .node z zero one =>
    if contact.bits z.level = false then
      let r := add contact starved zero
      (r.1, .node z r.2 one)
    else
      let r := add contact starved one
      (r.1, .node z zero r.2)
  | .leaf z bin =>
    match bin.findIdx? fun c => c.id = contact.id with
    | some pos =>
      if bin[pos]?.any fun old => old.denies contact then (false, .leaf z bin)
      else (true, .leaf z (bin.modify pos contact.replacing))
    | none =>
      if bin.length < K then
        if !starved && subnetCapped bin contact.ip then (false, .leaf z bin)
        else (true, .leaf z (bin ++ [contact]))
      else if z.canSplit = true then add contact starved (split z bin)
      else (false, .leaf z bin)
termination_by t => bound t
decreasing_by
  · exact Nat.lt_succ_of_le (Nat.le_max_left _ _)
  · exact Nat.lt_succ_of_le (Nat.le_max_right _ _)
  · exact bound_split ‹_› bin

def setAlive (id : Kad128) (now : UInt64) : Zone → Bool × Zone
  | .leaf z bin =>
    match bin.find? fun c => c.id = id with
    | none => (false, .leaf z bin)
    | some c =>
      let c := { c with
        kadType := KAD_TYPE_ALIVE
        expires := some (now + ALIVE_LEASE_SECS)
        lastTypeSet := now }
      (true, .leaf z (bin.eraseP (fun c => c.id = id) ++ [c]))
  | .node z zero one =>
    let r := setAlive id now zero
    if r.1 then (true, .node z r.2 one)
    else
      let r' := setAlive id now one
      (r'.1, .node z r.2 r'.2)

def remove (id : Kad128) : Zone → Bool × Zone
  | .leaf z bin =>
    let kept := bin.filter fun c => c.id ≠ id
    (kept.length ≠ bin.length, .leaf z kept)
  | .node z zero one =>
    let r := remove id zero
    if r.1 then (true, .node z r.2 one)
    else
      let r' := remove id one
      (r'.1, .node z r.2 r'.2)

/-- Probed, and past its time to answer. -/
def dead (now : UInt64) (c : Contact) : Bool :=
  c.kadType = KAD_TYPE_PROBED && c.expires.any fun e => e ≤ now

/-- `u8::saturating_add(1)`. -/
def bumped (kadType : UInt8) : UInt8 := if kadType = 255 then 255 else kadType + 1

/-- The probe of the oldest contact: rotated away while it is not due, else stamped, unless
    that was done less than ten seconds ago. -/
def probeFront (now : UInt64) (c : Contact) (bin : List Contact) (out : SweepOutcome) :
    List Contact × SweepOutcome :=
  if (c.expires.any fun e => now ≤ e) || c.kadType = KAD_TYPE_PROBED then (bin ++ [c], out)
  else if now - min c.lastTypeSet now < CHECKING_TYPE_MIN_GAP then (c :: bin, out)
  else
    let c := { c with
      lastTypeSet := now
      expires := some (now + PROBE_WINDOW_SECS)
      kadType := bumped c.kadType }
    (c :: bin, { out with probes := out.probes ++ [c] })

/-- One pass over one bin: the dead go, the never-stamped are stamped, the oldest is probed. -/
def sweepBin (now : UInt64) (maxProbes : Nat) (bin : List Contact) (out : SweepOutcome) :
    List Contact × SweepOutcome :=
  let out := { out with removed := out.removed ++ (bin.filter (dead now)).map Contact.id }
  let kept := (bin.filter fun c => !dead now c).map fun c =>
    if c.expires = none then { c with expires := some now } else c
  match kept with
  | [] => ([], out)
  | c :: rest =>
    if maxProbes ≤ out.probes.length then (c :: rest, out) else probeFront now c rest out

def sweep (now : UInt64) (maxProbes : Nat) : Zone → SweepOutcome → Zone × SweepOutcome
  | .leaf z bin, out =>
    let r := sweepBin now maxProbes bin out
    (.leaf z r.1, r.2)
  | .node z zero one, out =>
    let r := sweep now maxProbes zero out
    let r' := sweep now maxProbes one r.2
    (.node z r.1 r'.1, r'.2)

/-- `find_mut`: change the first contact with this id. -/
def alter (id : Kad128) (f : Contact → Contact) : Zone → Bool × Zone
  | .leaf z bin =>
    match bin.findIdx? fun c => c.id = id with
    | some pos => (true, .leaf z (bin.modify pos f))
    | none => (false, .leaf z bin)
  | .node z zero one =>
    let r := alter id f zero
    if r.1 then (true, .node z r.2 one)
    else
      let r' := alter id f one
      (r'.1, .node z r.2 r'.2)

end Zone

end PadMule.Kad
