import PadMule.Engine.LinkText

/-
  `mule-proto/src/link.rs`: the fields of ed2k links and magnet URIs as they are written.

  A hash and a root are written in digits and letters of either case, a value percent-encoded as far
  as it has to be or more, and an address as the standard library prints it (`Inverts`). Each is
  read as what it says, and every value has such a text.
-/

namespace PadMule.Engine.Link

open LossyUtf8 PercentText Text PadMule.Proto

/-! ## Fields that are written -/

/-- The digits of some bytes, letters in lower case. -/
def hexDigits (bytes : Bytes) : List Char :=
  bytes.flatMap fun b => [Nat.digitChar (b.toNat / 16), Nat.digitChar (b.toNat % 16)]

/-- A hash in digits of either case. -/
def HashText (hash : Hash16) (s : List Char) : Prop := s.map Char.toLower = hexDigits hash.bytes

/-- A root as `aich_base32` prints it, in letters of either case. -/
def RootText (root : Hash20) (s : List Char) : Prop :=
  s.map Char.toUpper = (aichBase32 root).map fun b => .ofNat b.toNat

instance (hash : Hash16) (s : List Char) : Decidable (HashText hash s) :=
  inferInstanceAs (Decidable (_ = _))

instance (root : Hash20) (s : List Char) : Decidable (RootText root s) :=
  inferInstanceAs (Decidable (_ = _))

/-- A value with a `%`, a `+` and a separator percent-encoded, and other bytes where one likes. -/
def Encodes (value s : List Char) : Prop :=
  Spells (utf8Bytes value) (utf8Bytes s) ∧ '|' ∉ s ∧ '&' ∉ s

/-- The characters of an address and its port. -/
def ADDR_CHARS : List Char := "0123456789abcdef.:[]".toList

/-- The parser of addresses reads what the printer prints. -/
structure Inverts (parseAddr : List Char → Option SocketAddr) (printAddr : SocketAddr → List Char)
    (addr : SocketAddr) : Prop where
  reads : parseAddr (printAddr addr) = some addr
  chars : ∀ c ∈ printAddr addr, c ∈ ADDR_CHARS

/-! ### Hashes -/

theorem hexNib_of_toLower {c : Char} {n : Nat} (hn : n < 16) (h : c.toLower = Nat.digitChar n) :
    c.toNat < 128 ∧ hexNib (.ofNat c.toNat) = some (.ofNat n) := by
  have hdigit : ∀ n < 16, (Nat.digitChar n).toNat < 128 := by decide
  have hc : c.toNat < 128 := lt_of_toLower (by rw [h]; exact hdigit n hn)
  have hread := forall_ascii (fun c => ∀ n < 16, c.toLower = Nat.digitChar n →
    hexNib (.ofNat c.toNat) = some (.ofNat n)) (by decide +kernel) hc
  exact ⟨hc, hread n hn h⟩

/-- The two digits of a byte. -/
theorem hexPair_of_toLower {c d : Char} {b : UInt8} (hc : c.toLower = Nat.digitChar (b.toNat / 16))
    (hd : d.toLower = Nat.digitChar (b.toNat % 16)) :
    hexPair (.ofNat c.toNat) (.ofNat d.toNat) = some b := by
  have hb := b.toNat_lt
  have hjoin : ∀ n < 256, (UInt8.ofNat (n / 16)) <<< 4 ||| .ofNat (n % 16) = .ofNat n := by
    decide +kernel
  rw [hexPair, (hexNib_of_toLower (by omega) hc).2, (hexNib_of_toLower (by omega) hd).2]
  dsimp only
  rw [hjoin b.toNat hb, UInt8.ofNat_toNat]

/-- What is written of a hash, byte by byte. -/
theorem getElem?_hexText {bytes : Bytes} {s : List Char} (h : s.map Char.toLower = hexDigits bytes)
    {i : Nat} {b : UInt8} (hb : bytes[i]? = some b) : ∃ c d, s[2 * i]? = some c ∧
      s[2 * i + 1]? = some d ∧ c.toLower = Nat.digitChar (b.toNat / 16) ∧
      d.toLower = Nat.digitChar (b.toNat % 16) := by
  induction bytes generalizing s i with
  | nil => cases hb
  | cons b' bytes ih =>
    rcases s with _ | ⟨c, _ | ⟨d, s⟩⟩
    · simp [hexDigits] at h
    · simp [hexDigits] at h
    obtain ⟨hc, hd, hs⟩ : c.toLower = Nat.digitChar (b'.toNat / 16) ∧
        d.toLower = Nat.digitChar (b'.toNat % 16) ∧ s.map Char.toLower = hexDigits bytes := by
      simpa [hexDigits] using h
    cases i with
    | zero =>
      cases hb
      exact ⟨c, d, rfl, rfl, hc, hd⟩
    | succ i => exact ih hs hb

theorem lt_of_mem_hexText {bytes : Bytes} {s : List Char} (h : s.map Char.toLower = hexDigits bytes)
    {c : Char} (hc : c ∈ s) : ∃ n < 16, c.toLower = Nat.digitChar n := by
  have hmem : c.toLower ∈ hexDigits bytes := h ▸ List.mem_map_of_mem hc
  obtain ⟨b, -, hb⟩ := List.mem_flatMap.mp hmem
  have hlt := b.toNat_lt
  rcases List.mem_cons.mp hb with hb | hb
  · exact ⟨_, by omega, hb⟩
  · exact ⟨_, by omega, List.mem_singleton.mp hb⟩

theorem length_hexDigits (bytes : Bytes) : (hexDigits bytes).length = 2 * bytes.length := by
  simp [hexDigits, List.length_flatMap]
  omega

theorem hexBytes_of_forall {b : Bytes} {is : List Nat} {byte : Nat → UInt8}
    (h : ∀ i ∈ is, hexByte b i = some (some (byte i))) :
    hexBytes b is = some (some (is.map byte)) := by
  induction is with
  | nil => rfl
  | cons i is ih =>
    obtain ⟨hi, his⟩ := List.forall_mem_cons.mp h
    rw [hexBytes, hi, Option.bind_some]
    dsimp only
    rw [ih his]
    rfl

theorem hex16_hashText {hash : Hash16} {s : List Char} (h : HashText hash s) :
    hex16 s = some (some hash) := by
  have hlen : s.length = 32 := by
    rw [← List.length_map Char.toLower, h, length_hexDigits, hash.len]
  have hascii : ∀ c ∈ s, c.toNat < 128 := fun c hc => by
    obtain ⟨n, hn, hlower⟩ := lt_of_mem_hexText h hc
    exact (hexNib_of_toLower hn hlower).1
  have hbytes := utf8Bytes_of_lt hascii
  have hread : ∀ i ∈ List.range 16,
      hexByte (utf8Bytes s) i = some (some (hash.bytes.getD i 0)) := by
    intro i hi
    have hb : hash.bytes[i]? = some (hash.bytes.getD i 0) := by
      have hlt : i < hash.bytes.length := by
        rw [hash.len]
        exact List.mem_range.mp hi
      rw [List.getD_eq_getElem?_getD, List.getElem?_eq_getElem hlt, Option.getD_some]
    obtain ⟨c, d, hc, hd, hhigh, hlow⟩ := getElem?_hexText h hb
    have hnib := (hexNib_of_toLower (by have := (hash.bytes.getD i 0).toNat_lt; omega) hhigh).2
    unfold hexByte
    rw [hbytes, List.getElem?_map, hc, Option.map_some, Option.bind_some, hnib]
    dsimp only
    rw [List.getElem?_map, hd, Option.map_some, Option.bind_some, hexPair_of_toLower hhigh hlow]
  have hall : (List.range 16).map (fun i => hash.bytes.getD i 0) = hash.bytes := by
    refine List.ext_getElem (by simp [hash.len]) fun i hi hi' => ?_
    rw [List.getElem_map, List.getElem_range, List.getD_eq_getElem?_getD,
      List.getElem?_eq_getElem hi', Option.getD_some]
  unfold hex16
  dsimp only
  rw [if_neg (by rw [hbytes, List.length_map, hlen]; decide), hexBytes_of_forall hread, hall]
  show some (if h : _ = 16 then _ else _) = _
  rw [dif_pos hash.len]

/-- The bytes of a root as it is printed. -/
theorem aichBase32_digits (root : Hash20) :
    ∃ ds : List UInt8, aichBase32 root = ds.map digit32 ∧ ∀ d ∈ ds, d.toNat < 32 := by
  have hstart : Encoded ⟨0, 0, []⟩ [] [] := ⟨by decide, rfl, by simp, rfl⟩
  obtain ⟨ds, -, hout, hsmall, -⟩ := encoded_foldl root.bytes hstart
  exact ⟨ds, hout, hsmall⟩

/-- A letter counts for as much in either case. -/
theorem base32Digit_toUpper {c : Char} (h : c.toNat < 128) :
    base32Digit (.ofNat c.toNat) = base32Digit (.ofNat c.toUpper.toNat) :=
  forall_ascii (fun c => base32Digit (.ofNat c.toNat) = base32Digit (.ofNat c.toUpper.toNat))
    (by decide +kernel) h

theorem toNat_digit32 {d : UInt8} (h : d.toNat < 32) :
    (Char.ofNat (digit32 d).toNat).toNat = (digit32 d).toNat ∧ (digit32 d).toNat < 128 ∧
      Char.ofNat (digit32 d).toNat ≠ '|' ∧ Char.ofNat (digit32 d).toNat ≠ '&' := by
  have hall : ∀ n < 32, (Char.ofNat (digit32 (.ofNat n)).toNat).toNat = (digit32 (.ofNat n)).toNat ∧
      (digit32 (.ofNat n)).toNat < 128 ∧ Char.ofNat (digit32 (.ofNat n)).toNat ≠ '|' ∧
      Char.ofNat (digit32 (.ofNat n)).toNat ≠ '&' := by decide +kernel
  have hd := hall d.toNat h
  rwa [UInt8.ofNat_toNat] at hd

/-- The characters of a root. -/
theorem lt_of_mem_rootText {root : Hash20} {s : List Char} (h : RootText root s) {c : Char}
    (hc : c ∈ s) : c.toNat < 128 ∧ c ≠ '|' ∧ c ≠ '&' := by
  obtain ⟨ds, hds, hsmall⟩ := aichBase32_digits root
  have hmem : c.toUpper ∈ (aichBase32 root).map fun b => Char.ofNat b.toNat :=
    h ▸ List.mem_map_of_mem hc
  rw [hds, List.map_map] at hmem
  obtain ⟨d, hd, heq⟩ := List.mem_map.mp hmem
  obtain ⟨hnat, hlt, hbar, hamp⟩ := toNat_digit32 (hsmall d hd)
  rw [Function.comp_apply] at heq
  refine ⟨lt_of_toUpper (by rw [← heq, hnat]; exact hlt), ?_, ?_⟩
  · rintro rfl
    exact hbar heq
  · rintro rfl
    exact hamp heq

/-- Characters that stand for the same digits of base 32. -/
theorem mapM_base32Digit_toUpper {s : List Char} {ds : List UInt8}
    (h : s.map Char.toUpper = (ds.map digit32).map fun b => .ofNat b.toNat)
    (hsmall : ∀ d ∈ ds, d.toNat < 32) (hascii : ∀ c ∈ s, c.toNat < 128) :
    (s.map fun c => UInt8.ofNat c.toNat).mapM base32Digit = (ds.map digit32).mapM base32Digit := by
  induction ds generalizing s with
  | nil =>
    rw [List.map_nil, List.map_nil, List.map_eq_nil_iff] at h
    rw [h]
    rfl
  | cons d ds ih =>
    rcases s with _ | ⟨c, s⟩
    · cases h
    · rw [List.map_cons, List.map_cons, List.map_cons] at h
      obtain ⟨hc, hs⟩ := List.cons.inj h
      obtain ⟨hd, hds⟩ := List.forall_mem_cons.mp hsmall
      obtain ⟨hc', hs'⟩ := List.forall_mem_cons.mp hascii
      rw [List.map_cons, List.map_cons, List.mapM_cons, List.mapM_cons, ih hs hds hs',
        base32Digit_toUpper hc', hc, (toNat_digit32 hd).1, UInt8.ofNat_toNat]

theorem base32_20_rootText {root : Hash20} {s : List Char} (h : RootText root s) :
    base32_20 s = some root := by
  obtain ⟨ds, hds, hsmall⟩ := aichBase32_digits root
  have hascii : ∀ c ∈ s, c.toNat < 128 := fun c hc => (lt_of_mem_rootText h hc).1
  have hlen : (s.map fun c => UInt8.ofNat c.toNat).length = (aichBase32 root).length := by
    rw [List.length_map, ← List.length_map Char.toUpper, h, List.length_map]
  have hread := mapM_base32Digit_toUpper (hds ▸ h) hsmall hascii
  rw [← hds] at hread
  rw [base32_20, utf8Bytes_of_lt hascii, ← aichFromBase32_aichBase32 root, aichFromBase32,
    aichFromBase32, hlen, hread]

/-! ### Numbers and addresses -/

theorem parseUint_digits {n bound : Nat} {ds : List Char} (h : Digits ds n) (hn : n < bound) :
    parseUint bound ds = some n :=
  parseUint_eq_some_iff.mpr ⟨hn, h.number⟩

section

variable {parseAddr : List Char → Option SocketAddr} {printAddr : SocketAddr → List Char}

theorem Inverts.notMem {addr : SocketAddr} (h : Inverts parseAddr printAddr addr) {c : Char}
    (hc : c ∉ ADDR_CHARS) : c ∉ printAddr addr := fun hmem => hc (h.chars c hmem)

theorem filterMap_print {addrs : List SocketAddr}
    (h : ∀ addr ∈ addrs, Inverts parseAddr printAddr addr) :
    (addrs.map printAddr).filterMap parseAddr = addrs := by
  induction addrs with
  | nil => rfl
  | cons addr addrs ih =>
    obtain ⟨haddr, haddrs⟩ := List.forall_mem_cons.mp h
    rw [List.map_cons, List.filterMap_cons, haddr.reads, ih haddrs]

theorem parseSources_print {addrs : List SocketAddr} (hne : addrs ≠ [])
    (h : ∀ addr ∈ addrs, Inverts parseAddr printAddr addr) :
    parseSources parseAddr ([','].intercalate (addrs.map printAddr)) = addrs := by
  have hcomma : ∀ s ∈ addrs.map printAddr, ',' ∉ s := by
    intro s hs
    obtain ⟨addr, haddr, rfl⟩ := List.mem_map.mp hs
    exact (h addr haddr).notMem (by decide)
  rw [parseSources, List.splitOn_intercalate _ hcomma (by simpa using hne), filterMap_print h]

theorem trimStartMatches_of_not_prefix {pre s : List Char} (h : ¬pre <+: s) :
    trimStartMatches pre s = s := by
  rw [trimStartMatches]
  cases hread : pre.isPrefixOf? s with
  | none => rfl
  | some rest => exact absurd ⟨rest, List.isPrefixOf?_eq_some_iff_append_eq.mp hread⟩ h

/-- A printed address is no URL. -/
theorem trimStartMatches_print {addr : SocketAddr} (h : Inverts parseAddr printAddr addr) :
    trimStartMatches "ed2kftp://".toList (printAddr addr) = printAddr addr := by
  refine trimStartMatches_of_not_prefix fun hpre => ?_
  exact h.notMem (by decide : 'k' ∉ ADDR_CHARS) (hpre.subset (by decide))

end

/-! ### Texts of any value -/

/-- Every byte in its two digits. -/
def percentEncode (bytes : Bytes) : List Char :=
  bytes.flatMap fun b => ['%', Nat.digitChar (b.toNat / 16), Nat.digitChar (b.toNat % 16)]

theorem digitChar_plain : ∀ n < 16, (Nat.digitChar n).toLower = Nat.digitChar n ∧
    (Nat.digitChar n).toNat < 128 ∧ Nat.digitChar n ≠ '|' ∧ Nat.digitChar n ≠ '&' := by decide

theorem mem_percentEncode {bytes : Bytes} {c : Char} (h : c ∈ percentEncode bytes) :
    c.toNat < 128 ∧ c ≠ '|' ∧ c ≠ '&' := by
  obtain ⟨b, -, hc⟩ := List.mem_flatMap.mp h
  have hb := b.toNat_lt
  simp only [List.mem_cons, List.not_mem_nil, or_false] at hc
  rcases hc with rfl | rfl | rfl
  · decide
  · exact (digitChar_plain _ (by omega)).2
  · exact (digitChar_plain _ (by omega)).2

theorem spells_percentEncode (bytes : Bytes) :
    Spells bytes ((percentEncode bytes).map fun c => .ofNat c.toNat) := by
  induction bytes with
  | nil => exact .nil
  | cons b bytes ih =>
    have hb := b.toNat_lt
    exact .pair (hexPair_of_toLower (digitChar_plain _ (by omega)).1
      (digitChar_plain _ (by omega)).1) ih

theorem encodes_percentEncode (value : List Char) :
    Encodes value (percentEncode (utf8Bytes value)) := by
  refine ⟨?_, fun h => (mem_percentEncode h).2.1 rfl, fun h => (mem_percentEncode h).2.2 rfl⟩
  rw [utf8Bytes_of_lt fun c hc => (mem_percentEncode hc).1]
  exact spells_percentEncode _

theorem hashText_hexDigits (hash : Hash16) : HashText hash (hexDigits hash.bytes) := by
  unfold HashText hexDigits
  rw [List.map_flatMap]
  refine List.flatMap_congr fun b _ => ?_
  have hb := b.toNat_lt
  rw [List.map_cons, List.map_cons, List.map_nil, (digitChar_plain _ (by omega)).1,
    (digitChar_plain _ (by omega)).1]

/-- A root as it is printed. -/
def rootChars (root : Hash20) : List Char := (aichBase32 root).map fun b => .ofNat b.toNat

theorem rootText_rootChars (root : Hash20) : RootText root (rootChars root) := by
  obtain ⟨ds, hds, hsmall⟩ := aichBase32_digits root
  have hupper : ∀ n < 32, (Char.ofNat (digit32 (.ofNat n)).toNat).toUpper =
      Char.ofNat (digit32 (.ofNat n)).toNat := by decide +kernel
  unfold RootText rootChars
  rw [hds, List.map_map, List.map_map, List.map_map]
  refine List.map_congr_left fun d hd => ?_
  have hd' := hupper d.toNat (hsmall d hd)
  rwa [UInt8.ofNat_toNat] at hd'

theorem digits_toDigits (n : Nat) : Digits (Nat.toDigits 10 n) n where
  nonempty := Nat.toDigits_ne_nil
  digits _ hc := Nat.isDigit_of_mem_toDigits (by decide) (by decide) hc
  value := Nat.ofDigitChars_toDigits (by decide) (by decide)

end PadMule.Engine.Link
