import PadMule.Proto.Framing
import PadMule.Proto.KadId

/-
  `mule-kad/src/udp_obf.rs`: the obfuscation of Kad datagrams.

  Three bytes in the clear, a marker and the seed of the key, then one RC4 keystream over a
  sentinel, two verify keys and the frame. A request is keyed on the id of the node it goes to,
  a response on the verify key that node was given. MD5 is left open.
-/

namespace PadMule.Kad

open PadMule.Proto LittleEndian

def MAGICVALUE_UDP_SYNC_CLIENT : UInt32 := 0x395F2EC1

def MIN_OBFUSCATED_LEN : Nat := 8

/-- The first byte of a datagram in plaintext. -/
def isProtocolByte (b : UInt8) : Bool := b ∈ [0xC5, 0xD4, 0xE4, 0xE5, 0xA3, 0xB2]

/-- The loop of `make_marker`. Steps of 4 come back to where they were after 64. -/
def nudge : Nat → UInt8 → UInt8
  | 0, m => m
  | fuel + 1, m => if isProtocolByte m then nudge fuel (m + 4) else m

/-- The low bits tell the kind of key, the others are random. -/
def makeMarker (rand : UInt8) (receiverKey : Bool) : UInt8 :=
  nudge 64 (rand &&& 0xFC ||| if receiverKey then 0b10 else 0b00)

section

variable (md5 : Bytes → Hash16)

def nodeidKey (targetWire : Hash16) (randomKeyPart : UInt16) : Hash16 :=
  md5 (targetWire.bytes ++ writeU16 randomKeyPart)

def receiverKey (verifyKey : UInt32) (randomKeyPart : UInt16) : Hash16 :=
  md5 (writeU32 verifyKey ++ writeU16 randomKeyPart)

/-- The key we issue for a peer at `ip`. -/
def udpVerifyKey (kadUdpKey ip : UInt32) : UInt32 :=
  let ui64 := kadUdpKey.toUInt64 <<< 32 ||| ip.toUInt64
  let d := (md5 (writeU64 ui64)).bytes
  let word (i : Nat) : UInt32 := .ofNat (ofLE ((d.drop (4 * i)).take 4))
  (word 0 ^^^ word 1 ^^^ word 2 ^^^ word 3) % 0xFFFFFFFE + 1

def assemble (key : Hash16) (marker : UInt8) (randomKeyPart : UInt16) (receiverVk senderVk : UInt32)
    (payload : Bytes) : Bytes :=
  let region := writeU32 MAGICVALUE_UDP_SYNC_CLIENT ++
    0 :: (writeU32 receiverVk ++ (writeU32 senderVk ++ payload))
  marker :: (writeU16 randomKeyPart ++ ((Rc4.new key.bytes).apply region).1)

def kadObfuscateRequest (payload : Bytes) (targetId : Kad128) (randomKeyPart : UInt16)
    (receiverVk senderVk : UInt32) (markerRand : UInt8) : Bytes :=
  assemble (nodeidKey md5 targetId.toWire randomKeyPart) (makeMarker markerRand false) randomKeyPart
    receiverVk senderVk payload

def kadObfuscateResponse (payload : Bytes) (randomKeyPart : UInt16) (receiverVk senderVk : UInt32)
    (markerRand : UInt8) : Bytes :=
  assemble (receiverKey md5 receiverVk randomKeyPart) (makeMarker markerRand true) randomKeyPart
    receiverVk senderVk payload

structure KadDecrypted where
  payload : Bytes
  receiverVk : UInt32
  senderVk : UInt32
  usedReceiverKey : Bool
deriving DecidableEq

/-- One candidate key. `datagram` is longer than `MIN_OBFUSCATED_LEN`. -/
def tryDecrypt (datagram : Bytes) (key : Hash16) (usedReceiverKey : Bool) : Option KadDecrypted :=
  let region := ((Rc4.new key.bytes).apply (datagram.drop 3)).1
  if region.length < 4 then none
  else if UInt32.ofNat (ofLE (region.take 4)) ≠ MAGICVALUE_UDP_SYNC_CLIENT then none
  else
    let padLen := (region.getD 4 0).toNat
    let off := 5 + padLen
    if region.length ≤ off + 8 then none
    else some {
      payload := region.drop (off + 8)
      receiverVk := .ofNat (ofLE ((region.drop off).take 4))
      senderVk := .ofNat (ofLE ((region.drop (off + 4)).take 4))
      usedReceiverKey }

def kadDeobfuscate (datagram : Bytes) (ourId : Kad128) (ourUdpKey senderIp : UInt32) :
    Option KadDecrypted :=
  if datagram.length ≤ MIN_OBFUSCATED_LEN || isProtocolByte (datagram.headD 0) then none
  else
    let randomKeyPart := UInt16.ofNat (ofLE ((datagram.drop 1).take 2))
    let nodeid := nodeidKey md5 ourId.toWire randomKeyPart
    let recvkey := receiverKey md5 (udpVerifyKey md5 ourUdpKey senderIp) randomKeyPart
    -- the marker only says which key to try first
    let order := if datagram.headD 0 &&& 3 = 2 then [(true, recvkey), (false, nodeid)]
      else [(false, nodeid), (true, recvkey)]
    order.findSome? fun (isRecv, key) => tryDecrypt datagram key isRecv

end

/-! ## The marker -/

/-- The loop ends on a byte that is no protocol byte, and leaves the low bits. -/
theorem makeMarker_off (rand : UInt8) (receiverKey : Bool) :
    isProtocolByte (makeMarker rand receiverKey) = false ∧
      (makeMarker rand receiverKey &&& 3 = 2 ↔ receiverKey = true) := by
  have hall : ∀ n < 256, ∀ b, isProtocolByte (makeMarker (UInt8.ofNat n) b) = false ∧
      (makeMarker (UInt8.ofNat n) b &&& 3 = 2 ↔ b = true) := by decide +kernel
  have h := hall rand.toNat rand.toNat_lt receiverKey
  rwa [UInt8.ofNat_toNat] at h

/-! ## The region -/

section

variable {md5 : Bytes → Hash16} {marker : UInt8} {randomKeyPart : UInt16}
  {receiverVk senderVk : UInt32} {payload : Bytes}

theorem length_assemble (key : Hash16) : (assemble key marker randomKeyPart receiverVk senderVk
    payload).length = 16 + payload.length := by
  simp only [assemble, List.length_cons, List.length_append, Rc4.length_apply, writeU16, writeU32,
    length_toLE]
  omega

theorem seed_assemble (key : Hash16) : UInt16.ofNat (ofLE (((assemble key marker randomKeyPart
    receiverVk senderVk payload).drop 1).take 2)) = randomKeyPart := by
  have hseed : (writeU16 randomKeyPart).length = 2 := length_toLE 2 _
  rw [assemble, List.drop_succ_cons, List.drop_zero, List.take_left' hseed, writeU16,
    ofLE_toLE (show randomKeyPart.toNat < 256 ^ 2 from randomKeyPart.toNat_lt), UInt16.ofNat_toNat]

/-- The key that made a datagram opens it. -/
theorem tryDecrypt_assemble (key : Hash16) (usedReceiverKey : Bool) (h : payload ≠ []) :
    tryDecrypt (assemble key marker randomKeyPart receiverVk senderVk payload) key usedReceiverKey =
      some ⟨payload, receiverVk, senderVk, usedReceiverKey⟩ := by
  have hword (v : UInt32) : (writeU32 v).length = 4 := length_toLE 4 _
  have hseed : (writeU16 randomKeyPart).length = 2 := length_toLE 2 _
  generalize hregion : writeU32 MAGICVALUE_UDP_SYNC_CLIENT ++
    0 :: (writeU32 receiverVk ++ (writeU32 senderVk ++ payload)) = region
  have hopen : ((Rc4.new key.bytes).apply ((assemble key marker randomKeyPart receiverVk senderVk
      payload).drop 3)).1 = region := by
    rw [assemble, hregion, List.drop_succ_cons, List.drop_left' hseed, Rc4.apply_apply]
  have hlength : region.length = 13 + payload.length := by
    simp only [← hregion, List.length_append, List.length_cons, hword]
    omega
  have hpayload : 0 < payload.length := List.length_pos_iff.mpr h
  -- the parts of the region, by where they start
  have hsentinel : region.take 4 = writeU32 MAGICVALUE_UDP_SYNC_CLIENT := by
    rw [← hregion, List.take_left' (hword _)]
  have hkeys : region.drop 5 = writeU32 receiverVk ++ (writeU32 senderVk ++ payload) := by
    rw [← hregion, List.drop_append, List.drop_eq_nil_of_le ((hword _).le.trans (by decide)), hword]
    rfl
  have hpad : region.getD 4 0 = 0 := by
    rw [← hregion, List.getD_eq_getElem?_getD, List.getElem?_append_right (hword _).le, hword]
    rfl
  have hreceiver : (region.drop 5).take 4 = writeU32 receiverVk := by
    rw [hkeys, List.take_left' (hword _)]
  have hrest : region.drop (5 + 4) = writeU32 senderVk ++ payload := by
    rw [← List.drop_drop, hkeys, List.drop_left' (hword _)]
  have hlast : region.drop (5 + 8) = payload := by
    rw [show 5 + 8 = 5 + 4 + 4 from rfl, ← List.drop_drop, hrest, List.drop_left' (hword _)]
  unfold tryDecrypt
  rw [hopen]
  dsimp only
  rw [if_neg (by omega), hsentinel, Kad128.ofLE_writeU32, if_neg (by simp), hpad, UInt8.toNat_zero,
    Nat.add_zero, if_neg (by omega), hlast, hreceiver, hrest, List.take_left' (hword _),
    Kad128.ofLE_writeU32, Kad128.ofLE_writeU32]

/-- The way to the candidate keys is open for whatever was assembled. -/
theorem kadDeobfuscate_assemble (key : Hash16) (hmarker : isProtocolByte marker = false)
    (ourId : Kad128) (ourUdpKey senderIp : UInt32) :
    kadDeobfuscate md5 (assemble key marker randomKeyPart receiverVk senderVk payload) ourId
      ourUdpKey senderIp =
    (if marker &&& 3 = 2 then
      [(true, receiverKey md5 (udpVerifyKey md5 ourUdpKey senderIp) randomKeyPart),
        (false, nodeidKey md5 ourId.toWire randomKeyPart)]
    else [(false, nodeidKey md5 ourId.toWire randomKeyPart),
      (true, receiverKey md5 (udpVerifyKey md5 ourUdpKey senderIp) randomKeyPart)]).findSome?
      fun (isRecv, key') => tryDecrypt
        (assemble key marker randomKeyPart receiverVk senderVk payload) key' isRecv := by
  have hhead : (assemble key marker randomKeyPart receiverVk senderVk payload).headD 0 = marker :=
    rfl
  have hlong : ¬(assemble key marker randomKeyPart receiverVk senderVk payload).length ≤
      MIN_OBFUSCATED_LEN := by
    rw [length_assemble, MIN_OBFUSCATED_LEN]
    omega
  unfold kadDeobfuscate
  rw [hhead, hmarker, decide_eq_false hlong, seed_assemble]
  rfl

end

/-- The node a request is for reads the frame and both keys out of it, by its id, and the node a
    response is for does, by the key it issued for the sender; and the marker of neither is a
    protocol byte. -/
theorem obfuscation_round_trip (md5 : Bytes → Hash16) (payload : Bytes) (hpayload : payload ≠ [])
    (randomKeyPart : UInt16) (receiverVk senderVk : UInt32) (markerRand : UInt8) (ourId : Kad128)
    (ourUdpKey senderIp : UInt32) :
    kadDeobfuscate md5 (kadObfuscateRequest md5 payload ourId randomKeyPart receiverVk senderVk
        markerRand) ourId ourUdpKey senderIp = some ⟨payload, receiverVk, senderVk, false⟩ ∧
    kadDeobfuscate md5 (kadObfuscateResponse md5 payload randomKeyPart
        (udpVerifyKey md5 ourUdpKey senderIp) senderVk markerRand) ourId ourUdpKey senderIp =
      some ⟨payload, udpVerifyKey md5 ourUdpKey senderIp, senderVk, true⟩ ∧
    ∀ receiverKey, isProtocolByte (makeMarker markerRand receiverKey) = false := by
  refine ⟨?_, ?_, fun receiverKey => (makeMarker_off markerRand receiverKey).1⟩
  · obtain ⟨hmarker, hkind⟩ := makeMarker_off markerRand false
    unfold kadObfuscateRequest
    rw [kadDeobfuscate_assemble _ hmarker, if_neg (by simpa using hkind), List.findSome?_cons]
    dsimp only
    rw [tryDecrypt_assemble _ false hpayload]
  · obtain ⟨hmarker, hkind⟩ := makeMarker_off markerRand true
    unfold kadObfuscateResponse
    rw [kadDeobfuscate_assemble _ hmarker, if_pos (hkind.mpr rfl), List.findSome?_cons]
    dsimp only
    rw [tryDecrypt_assemble _ true hpayload]

/-- MD5 on the bytes of one exchange. -/
def md5OfExchange (data : Bytes) : Hash16 :=
  if data = [0x01, 0x00, 0x00, 0x0A, 0xE7, 0x03, 0x00, 0x00] then
    ⟨[0x65, 0xF0, 0x16, 0x59, 0xCE, 0x76, 0x90, 0x64, 0x62, 0x34, 0xAD, 0xA8,
      0x7A, 0xF0, 0x14, 0xF9], rfl⟩
  else if data = [0xB4, 0x42, 0x3F, 0x6C, 0xEF, 0xBE] then
    ⟨[0xA7, 0xF1, 0x72, 0x6B, 0x82, 0x28, 0x6B, 0xD3, 0x81, 0x3A, 0xB4, 0xAD,
      0x65, 0xE4, 0xD7, 0x16], rfl⟩
  else
    ⟨[0xEC, 0x3C, 0x4B, 0x90, 0xC6, 0x10, 0xB5, 0xAE, 0x80, 0x1C, 0xB9, 0x39,
      0xF3, 0x2C, 0x5B, 0x99], rfl⟩

theorem obfuscation_round_trip_exchange :
    udpVerifyKey md5OfExchange 999 0x0A000001 = 0x6C3F42B4 ∧
    (kadDeobfuscate md5OfExchange (kadObfuscateRequest md5OfExchange [0xE4, 0x01]
        ⟨0x11111111, 0x11111111, 0x11111111, 0x11111111⟩ 0xBEEF 0 0x12345678 0x40)
        ⟨0x11111111, 0x11111111, 0x11111111, 0x11111111⟩ 999 0x0A000001 =
        some ⟨[0xE4, 0x01], 0, 0x12345678, false⟩ ∧
      kadDeobfuscate md5OfExchange (kadObfuscateResponse md5OfExchange [0xE4, 0x01] 0xBEEF
        (udpVerifyKey md5OfExchange 999 0x0A000001) 0x12345678 0x40)
        ⟨0x11111111, 0x11111111, 0x11111111, 0x11111111⟩ 999 0x0A000001 =
        some ⟨[0xE4, 0x01], udpVerifyKey md5OfExchange 999 0x0A000001, 0x12345678, true⟩ ∧
      ∀ receiverKey, isProtocolByte (makeMarker 0x40 receiverKey) = false) :=
  ⟨by decide +kernel, obfuscation_round_trip md5OfExchange [0xE4, 0x01] (by decide) 0xBEEF 0
    0x12345678 0x40 ⟨0x11111111, 0x11111111, 0x11111111, 0x11111111⟩ 999 0x0A000001⟩

end PadMule.Kad
