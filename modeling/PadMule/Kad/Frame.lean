import PadMule.Proto.Packing

/-
  `mule-kad/src/frame.rs`: the frame of a Kad message, under the obfuscation.

  A payload of more than 200 bytes is packed where that makes it smaller. A packed frame is opened
  up to ten times its length and 300 bytes, so what packs too well is refused at the other end:
  `unpackKad_packKad_iff` says exactly what gets through.
-/

namespace PadMule.Kad

open PadMule.Proto

/-- Of the payload alone. -/
def KAD_PACK_THRESHOLD : Nat := 200

section

variable (deflate : Bytes → Bytes) (inflate : Bytes → Nat → Option Bytes)

def packKad (opcode : UInt8) (payload : Bytes) : Bytes :=
  let p : Packet := ⟨PROT_KAD, opcode, payload⟩
  let p := if KAD_PACK_THRESHOLD < p.payload.length then compress deflate p else p
  p.protocol :: p.opcode :: p.payload

def unpackKad (frame : Bytes) : Except IoError (UInt8 × Bytes) :=
  match frame with
  | protocol :: opcode :: body =>
    if protocol = PROT_KAD then .ok (opcode, body)
    else if protocol = PROT_KAD_PACKED then do
      let un ← decompress inflate ⟨PROT_KAD_PACKED, opcode, body⟩ (frame.length * 10 + 300)
      return (opcode, un.payload)
    else .error (.badHeader protocol)
  | _ => .error .unexpectedEof

end

section

variable {deflate : Bytes → Bytes} {inflate : Bytes → Nat → Option Bytes}

variable (deflate) in
/-- A frame is plain, or packed and shorter for it. -/
theorem packKad_cases (opcode : UInt8) (payload : Bytes) :
    packKad deflate opcode payload = PROT_KAD :: opcode :: payload ∨
      (deflate payload).length < payload.length ∧
        packKad deflate opcode payload = PROT_KAD_PACKED :: opcode :: deflate payload := by
  unfold packKad
  dsimp only
  split_ifs with hlong
  · rcases compress_eq deflate ⟨PROT_KAD, opcode, payload⟩ with heq | ⟨hshrinks, heq⟩
    · rw [heq]
      exact .inl rfl
    · rw [heq]
      exact .inr ⟨hshrinks, rfl⟩
  · exact .inl rfl

variable (deflate) in
theorem packKad_ne_nil (opcode : UInt8) (payload : Bytes) : packKad deflate opcode payload ≠ [] :=
  List.cons_ne_nil _ _

variable (deflate) in
/-- No frame is longer than the plain one. -/
theorem length_packKad_le (opcode : UInt8) (payload : Bytes) :
    (packKad deflate opcode payload).length ≤ 2 + payload.length := by
  rcases packKad_cases deflate opcode payload with heq | ⟨hshrinks, heq⟩
  · rw [heq, List.length_cons, List.length_cons]
    omega
  · rw [heq, List.length_cons, List.length_cons]
    omega

theorem unpackKad_plain (opcode : UInt8) (payload : Bytes) :
    unpackKad inflate (PROT_KAD :: opcode :: payload) = .ok (opcode, payload) := rfl

theorem unpackKad_packed (opcode : UInt8) (body : Bytes) :
    unpackKad inflate (PROT_KAD_PACKED :: opcode :: body) =
      (inflate body ((body.length + 2) * 10 + 300 + 1)).elim (.error .decompress) fun out =>
        if (body.length + 2) * 10 + 300 < out.length then .error .tooBig else .ok (opcode, out) := by
  show (do
    let un ← decompress inflate ⟨PROT_KAD_PACKED, opcode, body⟩ ((body.length + 2) * 10 + 300)
    return (opcode, un.payload) : Except IoError (UInt8 × Bytes)) = _
  have hprotocol : unpackedProtocol PROT_KAD_PACKED = .ok PROT_KAD := rfl
  unfold decompress
  rw [hprotocol]
  dsimp only [bind, Except.bind]
  cases inflate body ((body.length + 2) * 10 + 300 + 1) with
  | none => rfl
  | some out =>
    dsimp only [Option.elim_some]
    split_ifs <;> rfl

/-- A message gets through unless it packs to less than a tenth of what is over 300 bytes. -/
theorem unpackKad_packKad_iff (hzlib : ZlibRoundTrips deflate inflate) (opcode : UInt8)
    (payload : Bytes) : unpackKad inflate (packKad deflate opcode payload) = .ok (opcode, payload) ↔
      payload.length ≤ 10 * (packKad deflate opcode payload).length + 300 := by
  rcases packKad_cases deflate opcode payload with heq | ⟨-, heq⟩
  · rw [heq, unpackKad_plain, List.length_cons, List.length_cons]
    exact ⟨fun _ => by omega, fun _ => rfl⟩
  · rw [heq, unpackKad_packed, hzlib]
    dsimp only [Option.elim_some]
    rw [List.length_take, List.length_cons, List.length_cons]
    constructor
    · intro hok
      split_ifs at hok with hbig
      omega
    · intro hfits
      rw [if_neg (by omega), List.take_of_length_le (by omega)]

/-- A short message always gets through. -/
theorem unpackKad_packKad (hzlib : ZlibRoundTrips deflate inflate) {opcode : UInt8}
    {payload : Bytes} (h : payload.length ≤ 300) :
    unpackKad inflate (packKad deflate opcode payload) = .ok (opcode, payload) :=
  (unpackKad_packKad_iff hzlib opcode payload).mpr (h.trans (Nat.le_add_left _ _))

/-- Whoever packed it, a frame opens to no more than ten times its length and 300 bytes. -/
theorem length_of_unpackKad {frame : Bytes} {opcode : UInt8} {payload : Bytes}
    (h : unpackKad inflate frame = .ok (opcode, payload)) :
    payload.length ≤ 10 * frame.length + 300 := by
  cases frame with
  | nil => cases h
  | cons protocol rest =>
    cases rest with
    | nil => cases h
    | cons op body =>
      by_cases hplain : protocol = PROT_KAD
      · rw [hplain, unpackKad_plain] at h
        cases h
        rw [List.length_cons, List.length_cons]
        omega
      · by_cases hpacked : protocol = PROT_KAD_PACKED
        · rw [hpacked, unpackKad_packed] at h
          cases hout : inflate body ((body.length + 2) * 10 + 300 + 1) with
          | none =>
            rw [hout] at h
            cases h
          | some out =>
            rw [hout, Option.elim_some] at h
            split_ifs at h with hbig
            cases h
            rw [List.length_cons, List.length_cons]
            omega
        · unfold unpackKad at h
          dsimp only at h
          rw [if_neg hplain, if_neg hpacked] at h
          cases h

/-- No frame is longer than the plain one, and it gives its message back exactly if the message is
    not longer than ten times the frame and 300 bytes. No frame at all, well-made or not, opens to
    more than that. -/
theorem kad_frames (deflate : Bytes → Bytes) (inflate : Bytes → Nat → Option Bytes)
    (hzlib : ZlibRoundTrips deflate inflate) :
    (∀ opcode payload, (packKad deflate opcode payload).length ≤ 2 + payload.length ∧
      (unpackKad inflate (packKad deflate opcode payload) = .ok (opcode, payload) ↔
        payload.length ≤ 10 * (packKad deflate opcode payload).length + 300)) ∧
    ∀ frame opcode payload, unpackKad inflate frame = .ok (opcode, payload) →
      payload.length ≤ 10 * frame.length + 300 :=
  ⟨fun opcode payload => ⟨length_packKad_le deflate opcode payload,
    unpackKad_packKad_iff hzlib opcode payload⟩, fun _ _ _ h => length_of_unpackKad h⟩

theorem kad_frames_sample :
    (∀ opcode payload, (packKad sampleDeflate opcode payload).length ≤ 2 + payload.length ∧
      (unpackKad sampleInflate (packKad sampleDeflate opcode payload) = .ok (opcode, payload) ↔
        payload.length ≤ 10 * (packKad sampleDeflate opcode payload).length + 300)) ∧
    ∀ frame opcode payload, unpackKad sampleInflate frame = .ok (opcode, payload) →
      payload.length ≤ 10 * frame.length + 300 :=
  kad_frames sampleDeflate sampleInflate sample_roundTrips

end

end PadMule.Kad
