import PadMule.Proto.KadId

/-
  `mule-files/src/preferences.rs`: `preferences.dat` and `preferencesKad.dat`.

  A userhash is marked when it is read, so it comes back as written only if it had the marks.
-/

namespace PadMule.Files

open PadMule.Proto Readers

def PREFFILE_VERSION : UInt8 := 0x14

/-- Bytes 5 and 14 mark an eMule-type hash. -/
def USERHASH_MARKER : List (Nat × UInt8) := [(5, 14), (14, 111)]

def applyUserhashMarkers (h : Hash16) : Hash16 :=
  ⟨USERHASH_MARKER.foldl (fun bs m => bs.set m.1 m.2) h.bytes, by
    simp [USERHASH_MARKER, h.len]⟩

def readPreferencesDatFrom : Reader Hash16 := do
  let _version ← readU8
  let hash ← readDigest 16
  return applyUserhashMarkers hash

/-- `read_preferences_dat`; bytes after the hash are ignored. -/
def readPreferencesDat (bytes : Bytes) : Except IoError Hash16 :=
  (readPreferencesDatFrom bytes).map Prod.fst

def writePreferencesDat (userhash : Hash16) : Bytes := writeU8 PREFFILE_VERSION ++ userhash.bytes

structure KadPrefs where
  /-- Our external IP as last seen, 0 if unknown. -/
  ip : UInt32
  kadId : Kad128
deriving DecidableEq

def readKadPrefsFrom : Reader KadPrefs := do
  let ip ← readU32
  let _unused ← readU16
  let id ← readDigest 16
  return ⟨ip, .fromWire id⟩

/-- `read_kad_prefs`, with or without the tag count behind the ID. -/
def readKadPrefs (bytes : Bytes) : Except IoError KadPrefs :=
  (readKadPrefsFrom bytes).map Prod.fst

def writeKadPrefs (p : KadPrefs) : Bytes :=
  writeU32 p.ip ++ (writeU16 0 ++ (p.kadId.toWire.bytes ++ writeU8 0))

/-! ## Round trips -/

theorem applyUserhashMarkers_idem (h : Hash16) :
    applyUserhashMarkers (applyUserhashMarkers h) = applyUserhashMarkers h := by
  apply Digest.ext_bytes
  simp [applyUserhashMarkers, USERHASH_MARKER, List.set_comm]

theorem marked_of_read {bytes : Bytes} {h : Hash16} (hread : readPreferencesDat bytes = .ok h) :
    applyUserhashMarkers h = h := by
  obtain ⟨rest, hfrom⟩ := ok_map_fst hread
  obtain ⟨version, t, -, hfrom⟩ := ok_bind hfrom
  obtain ⟨raw, t', -, hfrom⟩ := ok_bind hfrom
  cases hfrom
  exact applyUserhashMarkers_idem raw

theorem readPreferencesDat_write (userhash : Hash16) :
    readPreferencesDat (writePreferencesDat userhash) = .ok (applyUserhashMarkers userhash) := by
  have hreads : Reads readPreferencesDatFrom (writePreferencesDat userhash)
      (applyUserhashMarkers userhash) :=
    (reads_u8 PREFFILE_VERSION).bind (reads_digest userhash).bind_pure
  rw [readPreferencesDat, hreads.run_nil]
  rfl

/-- The tag count is written and not read. -/
theorem readKadPrefs_write (p : KadPrefs) : readKadPrefs (writeKadPrefs p) = .ok p := by
  have hreads : Reads readKadPrefsFrom (writeU32 p.ip ++ (writeU16 0 ++ p.kadId.toWire.bytes))
      ⟨p.ip, .fromWire p.kadId.toWire⟩ :=
    (reads_u32 p.ip).bind ((reads_u16 0).bind (reads_digest p.kadId.toWire).bind_pure)
  have hbytes : writeKadPrefs p =
      (writeU32 p.ip ++ (writeU16 0 ++ p.kadId.toWire.bytes)) ++ writeU8 0 := by
    simp [writeKadPrefs]
  rw [readKadPrefs, hbytes, hreads, Kad128.fromWire_toWire]
  rfl

end PadMule.Files
