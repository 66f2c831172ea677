import PadMule.Proto.Hash
import PadMule.Lib.LittleEndian

/-
  `mule-proto/src/aich.rs`: AICH hashes as RFC 4648 base32, the form of the catalog's AICH tag.

  Both ways the bits go through a 64-bit word of which only the lowest few count. What has been
  written and the bits still held are what has been read (`Encoded`, `Decoded`), and a hash leaves
  none over, so it is read back as it was written (`aichFromBase32_aichBase32`).
-/

namespace PadMule.Proto

open LittleEndian

def ALPHABET : Bytes := "ABCDEFGHIJKLMNOPQRSTUVWXYZ234567".toList.map fun c => .ofNat c.toNat

/-- The bits read and not yet written, how many of them count, and the output so far. -/
structure Base32State where
  bits : UInt64
  nbits : Nat
  out : Bytes

/-- One byte in; the inner loop then takes five bits as often as there are five. -/
def encodeByte (s : Base32State) (b : UInt8) : Base32State :=
  let bits := s.bits <<< 8 ||| b.toUInt64
  let nbits := s.nbits + 8
  ⟨bits, nbits % 5, s.out ++ (List.range (nbits / 5)).map fun i =>
    ALPHABET.getD (bits >>> .ofNat (nbits - 5 * (i + 1)) &&& 0x1F).toNat 0⟩

/-- `aich_base32` -/
def aichBase32 (hash : Hash20) : Bytes := (hash.bytes.foldl encodeByte ⟨0, 0, []⟩).out

def base32Digit (c : UInt8) : Option UInt8 :=
  if 0x41 ≤ c ∧ c ≤ 0x5A then some (c - 0x41)
  else if 0x61 ≤ c ∧ c ≤ 0x7A then some (c - 0x61)
  else if 0x32 ≤ c ∧ c ≤ 0x37 then some (c - 0x32 + 26)
  else none

def decodeDigit (s : Base32State) (v : UInt8) : Base32State :=
  let bits := s.bits <<< 5 ||| v.toUInt64
  let nbits := s.nbits + 5
  if 8 ≤ nbits then ⟨bits, nbits - 8, s.out ++ [(bits >>> .ofNat (nbits - 8)).toUInt8]⟩
  else ⟨bits, nbits, s.out⟩

/-- `aich_from_base32`, either case. -/
def aichFromBase32 (s : Bytes) : Option Hash20 :=
  if s.length ≠ 32 then none
  else
    (s.mapM base32Digit).bind fun digits =>
      let out := (digits.foldl decodeDigit ⟨0, 0, []⟩).out
      if h : out.length = 20 then some ⟨out, h⟩ else none

/-- What has come in is written, but for the bits still held. -/
theorem length_encode (bs : Bytes) {s : Base32State} (h : s.nbits < 5) :
    let t := bs.foldl encodeByte s
    5 * t.out.length + t.nbits = 5 * s.out.length + s.nbits + 8 * bs.length ∧ t.nbits < 5 := by
  induction bs generalizing s with
  | nil => exact ⟨rfl, h⟩
  | cons b bs ih =>
    have hheld : (encodeByte s b).nbits < 5 := Nat.mod_lt _ (by decide)
    have hout : (encodeByte s b).out.length = s.out.length + (s.nbits + 8) / 5 := by
      simp [encodeByte]
    have hnbits : (encodeByte s b).nbits = (s.nbits + 8) % 5 := rfl
    obtain ⟨hlen, hlt⟩ := ih hheld
    rw [List.foldl_cons, List.length_cons]
    exact ⟨by omega, hlt⟩

theorem length_aichBase32 (hash : Hash20) : (aichBase32 hash).length = 32 := by
  have hstart : (⟨0, 0, []⟩ : Base32State).nbits < 5 := by decide
  obtain ⟨hlen, hlt⟩ := length_encode hash.bytes hstart
  rw [hash.len] at hlen
  dsimp only [List.length_nil] at hlen
  rw [aichBase32]
  omega

/-! ## What is encoded comes back -/

/-- The last bits behind a shift: the old ones and the new. -/
theorem shift_or_mod {x v : UInt64} {k n : Nat} (hk : k < 64) (hv : v.toNat < 2 ^ k)
    (hn : n + k ≤ 64) :
    (x <<< .ofNat k ||| v).toNat % 2 ^ (n + k) = 2 ^ k * (x.toNat % 2 ^ n) + v.toNat := by
  have hk64 : (UInt64.ofNat k).toNat = k := UInt64.toNat_ofNat_of_lt' (by simp [UInt64.size]; omega)
  have hshift : (x <<< .ofNat k).toNat = (x.toNat % 2 ^ (64 - k)) <<< k := by
    rw [UInt64.toNat_shiftLeft, hk64, Nat.mod_eq_of_lt hk, Nat.shiftLeft_eq, Nat.shiftLeft_eq,
      ← Nat.mul_mod_mul_right, ← pow_add, Nat.sub_add_cancel hk.le]
  have hsum : (x <<< .ofNat k ||| v).toNat = 2 ^ k * (x.toNat % 2 ^ (64 - k)) + v.toNat := by
    rw [UInt64.toNat_or, hshift, ← Nat.shiftLeft_add_eq_or_of_lt hv, Nat.shiftLeft_eq, Nat.mul_comm]
  rw [hsum, Nat.add_comm n, pow_add, Nat.mod_mul, Nat.mul_add_mod, Nat.mod_eq_of_lt hv,
    Nat.mul_add_div (by positivity), Nat.div_eq_of_lt hv, Nat.add_zero,
    Nat.mod_mod_of_dvd _ (pow_dvd_pow 2 (by omega)), Nat.add_comm]

/-- The number that base-32 digits write, the first on top. -/
def ofDigits32 (ds : List UInt8) : Nat := ds.foldl (fun n d => 32 * n + d.toNat) 0

theorem ofDigits32_append (ds es : List UInt8) :
    ofDigits32 (ds ++ es) = 32 ^ es.length * ofDigits32 ds + ofDigits32 es := by
  induction es using List.reverseRecOn with
  | nil => simp [ofDigits32]
  | append_singleton es e ih =>
    have hstep (l : List UInt8) : ofDigits32 (l ++ [e]) = 32 * ofDigits32 l + e.toNat := by
      simp [ofDigits32]
    rw [← List.append_assoc, hstep, hstep, ih, List.length_append, List.length_singleton, pow_succ]
    ring

def digit32 (d : UInt8) : UInt8 := ALPHABET.getD d.toNat 0

/-- What has been read is the digits that are written and the bits that are held. -/
structure Encoded (s : Base32State) (read : Bytes) (ds : List UInt8) : Prop where
  held : s.nbits < 5
  out : s.out = ds.map digit32
  small : ∀ d ∈ ds, d.toNat < 32
  value : 2 ^ s.nbits * ofDigits32 ds + s.bits.toNat % 2 ^ s.nbits = ofLE read.reverse

theorem toNat_shiftRight_and {x : UInt64} {j : Nat} (hj : j < 64) :
    (x >>> .ofNat j &&& 0x1F).toNat = x.toNat / 2 ^ j % 32 := by
  have hj64 : (UInt64.ofNat j).toNat = j := UInt64.toNat_ofNat_of_lt' (by simp [UInt64.size]; omega)
  rw [UInt64.toNat_and, UInt64.toNat_shiftRight, hj64, Nat.mod_eq_of_lt hj,
    Nat.shiftRight_eq_div_pow]
  exact Nat.and_two_pow_sub_one_eq_mod _ 5

/-- The digits that a byte completes. -/
def newDigits (bits : UInt64) (nbits : Nat) : List UInt8 :=
  (List.range (nbits / 5)).map fun i => .ofNat (bits.toNat / 2 ^ (nbits - 5 * (i + 1)) % 32)

theorem out_encodeByte {s : Base32State} (h : s.nbits < 5) (b : UInt8) :
    (encodeByte s b).out = s.out ++ (newDigits (s.bits <<< 8 ||| b.toUInt64) (s.nbits + 8)).map
      digit32 := by
  simp only [encodeByte, newDigits, List.map_map]
  congr 1
  refine List.map_congr_left fun i _ => ?_
  rw [toNat_shiftRight_and (by omega), Function.comp_apply, digit32]
  congr 1
  rw [UInt8.toNat_ofNat_of_lt']
  exact (Nat.mod_lt _ (by decide)).trans (by decide)

@[simp] theorem length_newDigits (bits : UInt64) (n : Nat) : (newDigits bits n).length = n / 5 := by
  simp [newDigits]

theorem newDigits_add_five (bits : UInt64) (n : Nat) :
    newDigits bits (n + 5) = .ofNat (bits.toNat / 2 ^ n % 32) :: newDigits bits n := by
  have hdigits : (n + 5) / 5 = n / 5 + 1 := Nat.add_div_right n (by decide)
  have hshift : ∀ i, n + 5 - 5 * (i + 1 + 1) = n - 5 * (i + 1) := fun i => by omega
  rw [newDigits, hdigits, List.range_succ_eq_map, List.map_cons, List.map_map]
  simp only [Nat.zero_add, Nat.mul_one, Nat.add_sub_cancel]
  congr 1
  refine List.map_congr_left fun i _ => ?_
  rw [Function.comp_apply, Nat.succ_eq_add_one, hshift]

theorem two_pow_mod_five (n : Nat) : 2 ^ (n % 5) * 32 ^ (n / 5) = 2 ^ n := by
  rw [show 32 = 2 ^ 5 from rfl, ← pow_mul, ← pow_add, Nat.mod_add_div]

/-- The bits of the new digits and the held ones are the last `n`. -/
theorem ofDigits32_newDigits (bits : UInt64) (n : Nat) :
    2 ^ (n % 5) * ofDigits32 (newDigits bits n) + bits.toNat % 2 ^ (n % 5) =
      bits.toNat % 2 ^ n := by
  induction n using Nat.strong_induction_on with
  | _ n ih =>
    by_cases hn : n < 5
    · rw [newDigits, Nat.div_eq_of_lt hn, Nat.mod_eq_of_lt hn]
      simp [ofDigits32]
    · obtain ⟨m, rfl⟩ := Nat.exists_eq_add_of_le' (Nat.le_of_not_lt hn)
      have hdigit : (UInt8.ofNat (bits.toNat / 2 ^ m % 32)).toNat = bits.toNat / 2 ^ m % 32 :=
        UInt8.toNat_ofNat_of_lt' ((Nat.mod_lt _ (by decide)).trans (by decide))
      have hone : ofDigits32 [.ofNat (bits.toNat / 2 ^ m % 32)] = bits.toNat / 2 ^ m % 32 := by
        simp only [ofDigits32, List.foldl_cons, List.foldl_nil, Nat.mul_zero, Nat.zero_add, hdigit]
      have hsplit : bits.toNat % 2 ^ (m + 5) = 
          bits.toNat % 2 ^ m + 2 ^ m * (bits.toNat / 2 ^ m % 32) := by
        rw [pow_add, Nat.mod_mul]
        norm_num
      rw [newDigits_add_five, ← List.singleton_append, ofDigits32_append, hone, length_newDigits,
        Nat.add_mod_right, hsplit, ← ih m (by omega), ← two_pow_mod_five m]
      ring

theorem Encoded.step {s : Base32State} {read : Bytes} {ds : List UInt8} (h : Encoded s read ds)
    (b : UInt8) : Encoded (encodeByte s b) (read ++ [b])
      (ds ++ newDigits (s.bits <<< 8 ||| b.toUInt64) (s.nbits + 8)) := by
  obtain ⟨hheld, hout, hsmall, hvalue⟩ := h
  have hmod : (s.bits <<< 8 ||| b.toUInt64).toNat % 2 ^ (s.nbits + 8) =
      2 ^ 8 * (s.bits.toNat % 2 ^ s.nbits) + b.toNat := by
    have hb : b.toUInt64.toNat < 2 ^ 8 := by simpa using b.toNat_lt
    simpa using shift_or_mod (x := s.bits) (k := 8) (n := s.nbits) (by decide) hb (by omega)
  refine ⟨Nat.mod_lt _ (by decide), ?_, fun d hd => ?_, ?_⟩
  · rw [out_encodeByte hheld, hout, List.map_append]
  · rcases List.mem_append.mp hd with hd | hd
    · exact hsmall d hd
    · obtain ⟨i, -, rfl⟩ := List.mem_map.mp hd
      have hlt := Nat.mod_lt ((s.bits <<< 8 ||| b.toUInt64).toNat /
        2 ^ (s.nbits + 8 - 5 * (i + 1))) (show 32 > 0 by decide)
      rw [UInt8.toNat_ofNat_of_lt' (hlt.trans (by decide))]
      exact hlt
  · have hbits := ofDigits32_newDigits (s.bits <<< 8 ||| b.toUInt64) (s.nbits + 8)
    have hpow := two_pow_mod_five (s.nbits + 8)
    show 2 ^ ((s.nbits + 8) % 5) * _ + (s.bits <<< 8 ||| b.toUInt64).toNat % 2 ^ ((s.nbits + 8) % 5)
      = _
    rw [List.reverse_append, List.reverse_singleton, List.singleton_append, ofLE, ← hvalue,
      ofDigits32_append, length_newDigits, Nat.mul_add, Nat.add_assoc, hbits, hmod, ← Nat.mul_assoc,
      hpow, pow_add]
    ring

theorem encoded_foldl (bs : Bytes) {s : Base32State} {read : Bytes} {ds : List UInt8}
    (h : Encoded s read ds) : ∃ ds', Encoded (bs.foldl encodeByte s) (read ++ bs) ds' := by
  induction bs generalizing s read ds with
  | nil => exact ⟨ds, by rwa [List.append_nil]⟩
  | cons b bs ih =>
    obtain ⟨ds', hrest⟩ := ih (h.step b)
    exact ⟨ds', by rwa [List.append_assoc] at hrest⟩

/-- What has been written is the digits that were read but for the bits that are held. -/
structure Decoded (s : Base32State) (read : List UInt8) : Prop where
  held : s.nbits < 8
  value : 2 ^ s.nbits * ofLE s.out.reverse + s.bits.toNat % 2 ^ s.nbits = ofDigits32 read
  length : 8 * s.out.length + s.nbits = 5 * read.length

theorem Decoded.step {s : Base32State} {read : List UInt8} (h : Decoded s read) {v : UInt8}
    (hv : v.toNat < 32) : Decoded (decodeDigit s v) (read ++ [v]) := by
  obtain ⟨hheld, hvalue, hlength⟩ := h
  have hmod : (s.bits <<< 5 ||| v.toUInt64).toNat % 2 ^ (s.nbits + 5) =
      2 ^ 5 * (s.bits.toNat % 2 ^ s.nbits) + v.toNat := by
    have hv' : v.toUInt64.toNat < 2 ^ 5 := by simpa using hv
    simpa using shift_or_mod (x := s.bits) (k := 5) (n := s.nbits) (by decide) hv' (by omega)
  have hread : ofDigits32 (read ++ [v]) = 32 * ofDigits32 read + v.toNat := by
    simp [ofDigits32]
  unfold decodeDigit
  dsimp only
  generalize s.bits <<< 5 ||| v.toUInt64 = bits at *
  split_ifs with hfull
  · obtain ⟨n, hn⟩ := Nat.exists_eq_add_of_le' hfull
    have hnbits : s.nbits = n + 3 := by omega
    have hshift : (bits >>> .ofNat n).toUInt8.toNat = bits.toNat / 2 ^ n % 2 ^ 8 := by
      have hn64 : (UInt64.ofNat n).toNat = n :=
        UInt64.toNat_ofNat_of_lt' (by simp [UInt64.size]; omega)
      have hmod64 : n % 64 = n := Nat.mod_eq_of_lt (by omega)
      rw [UInt64.toNat_toUInt8, UInt64.toNat_shiftRight, hn64, hmod64, Nat.shiftRight_eq_div_pow]
    rw [hn, pow_add, Nat.mod_mul, hnbits, pow_add] at hmod
    rw [hnbits, pow_add] at hvalue
    have hsub : s.nbits + 5 - 8 = n := by omega
    rw [hsub]
    refine ⟨by dsimp only; omega, ?_, by simp; omega⟩
    dsimp only
    rw [List.reverse_append, List.reverse_singleton, List.singleton_append, ofLE, hshift, hread,
      ← hvalue]
    linarith
  · refine ⟨by dsimp only; omega, ?_, by simp; omega⟩
    dsimp only
    rw [hmod, hread, ← hvalue, pow_add]
    ring

theorem decoded_foldl {ds : List UInt8} (hds : ∀ d ∈ ds, d.toNat < 32) {s : Base32State}
    {read : List UInt8} (h : Decoded s read) : Decoded (ds.foldl decodeDigit s) (read ++ ds) := by
  induction ds generalizing s read with
  | nil => rwa [List.append_nil]
  | cons d ds ih =>
    have hrest := ih (fun e he => hds e (List.mem_cons_of_mem d he))
      (h.step (hds d List.mem_cons_self))
    rwa [List.append_assoc] at hrest

theorem mapM_base32Digit {ds : List UInt8} (hds : ∀ d ∈ ds, d.toNat < 32) :
    (ds.map digit32).mapM base32Digit = some ds := by
  have hone : ∀ n : Nat, n < 32 → base32Digit (digit32 (.ofNat n)) = some (.ofNat n) := by decide
  induction ds with
  | nil => rfl
  | cons d ds ih =>
    have hd := hone d.toNat (hds d List.mem_cons_self)
    rw [UInt8.ofNat_toNat] at hd
    rw [List.map_cons, List.mapM_cons, hd, ih fun e he => hds e (List.mem_cons_of_mem d he)]
    rfl

/-- A root that is written as a tag is read back. -/
@[simp] theorem aichFromBase32_aichBase32 (hash : Hash20) :
    aichFromBase32 (aichBase32 hash) = some hash := by
  have hstart : Encoded ⟨0, 0, []⟩ [] [] := ⟨by decide, rfl, by simp, rfl⟩
  obtain ⟨ds, hheld, hout, hsmall, hvalue⟩ := encoded_foldl hash.bytes hstart
  have hcount := (length_encode hash.bytes (s := ⟨0, 0, []⟩) (by decide)).1
  have hlen := length_aichBase32 hash
  rw [aichBase32] at hlen
  have hwhole : (hash.bytes.foldl encodeByte ⟨0, 0, []⟩).nbits = 0 := by
    rw [hash.len] at hcount
    dsimp only [List.length_nil] at hcount
    omega
  have hds : ds.length = 32 := by rw [← hlen, hout, List.length_map]
  have hread : Decoded (ds.foldl decodeDigit ⟨0, 0, []⟩) ds :=
    decoded_foldl hsmall (⟨by decide, rfl, rfl⟩ : Decoded ⟨0, 0, []⟩ [])
  obtain ⟨hbits, hback, hbytes⟩ := hread
  have hnbits : (ds.foldl decodeDigit ⟨0, 0, []⟩).nbits = 0 := by omega
  have houtlen : (ds.foldl decodeDigit ⟨0, 0, []⟩).out.length = 20 := by omega
  rw [hwhole, pow_zero, Nat.one_mul, Nat.mod_one, Nat.add_zero, List.nil_append] at hvalue
  rw [hnbits, pow_zero, Nat.one_mul, Nat.mod_one, Nat.add_zero, hvalue] at hback
  have hsame : (ds.foldl decodeDigit ⟨0, 0, []⟩).out = hash.bytes := by
    have hrev := ofLE_inj (by simp [houtlen, hash.len]) hback
    exact List.reverse_injective hrev
  rw [aichFromBase32, if_neg (by simp [length_aichBase32]), aichBase32, hout,
    mapM_base32Digit hsmall]
  show (if h : _ = 20 then _ else _) = _
  rw [dif_pos houtlen]
  exact congrArg some (Digest.ext_bytes hsame)

end PadMule.Proto
