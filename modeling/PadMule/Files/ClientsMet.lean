import PadMule.Proto.Tag

/-
  `mule-files/src/clients_met.rs`: the credit list.

  A version byte, a u32 count, then one record of 119 bytes for each peer, the two halves of
  the 64-bit totals apart from each other. The writer skips records without any transfer, so
  what reads back is the records with one (`readClientsMet_writeClientsMet`).
-/

namespace PadMule.Files

open PadMule.Proto Readers

def CREDIT_FILE_VERSION : UInt8 := 0x12

/-- Size of the public key blob, always written in full. -/
def MAX_PUBKEY_SIZE : Nat := 80

/-- Entries unseen for this long (150 days) are expired. -/
def CREDIT_EXPIRE_SECS : Nat := 12960000

structure CreditEntry where
  userHash : Hash16
  /-- Bytes we have uploaded TO this peer. -/
  uploaded : UInt64
  /-- Bytes we have downloaded FROM this peer. -/
  downloaded : UInt64
  lastSeen : UInt32
  reserved : UInt16
  /-- Length of the meaningful prefix of `secureIdent` (0 = no key). -/
  keySize : UInt8
  secureIdent : Digest MAX_PUBKEY_SIZE
deriving DecidableEq

namespace CreditEntry

def new (userHash : Hash16) (lastSeen : UInt32) : CreditEntry :=
  ⟨userHash, 0, 0, lastSeen, 0, 0, .fill MAX_PUBKEY_SIZE 0⟩

def isEmpty (e : CreditEntry) : Bool := e.uploaded = 0 ∧ e.downloaded = 0

/-- `now.saturating_sub(last_seen) > CREDIT_EXPIRE_SECS` -/
def isExpired (e : CreditEntry) (now : UInt32) : Bool :=
  CREDIT_EXPIRE_SECS < now.toNat - e.lastSeen.toNat

end CreditEntry

structure ClientsMet where
  entries : List CreditEntry
deriving DecidableEq

/-- The two halves of a total. -/
def joinHalves (lo hi : UInt32) : UInt64 := lo.toUInt64 ||| hi.toUInt64 <<< 32

def readCreditEntry : Reader CreditEntry := do
  let userHash ← readHash16
  let upLo ← readU32
  let downLo ← readU32
  let lastSeen ← readU32
  let upHi ← readU32
  let downHi ← readU32
  let reserved ← readU16
  let keySize ← readU8
  if MAX_PUBKEY_SIZE < keySize.toNat then throw (.badTag keySize)
  let secureIdent ← readDigest MAX_PUBKEY_SIZE
  return ⟨userHash, joinHalves upLo upHi, joinHalves downLo downHi, lastSeen, reserved, keySize,
    secureIdent⟩

def readClientsMetFrom : Reader ClientsMet := do
  let version ← readU8
  if version ≠ CREDIT_FILE_VERSION then throw (.badTag version)
  let count ← readU32
  return ⟨← readMany readCreditEntry count.toNat⟩

/-- `read_clients_met`; bytes after the last record are ignored. -/
def readClientsMet (bytes : Bytes) : Except IoError ClientsMet :=
  (readClientsMetFrom bytes).map Prod.fst

def writeCreditEntry (e : CreditEntry) : Bytes :=
  e.userHash.bytes ++ (writeU32 e.uploaded.toUInt32 ++ (writeU32 e.downloaded.toUInt32 ++
    (writeU32 e.lastSeen ++ (writeU32 (e.uploaded >>> 32).toUInt32 ++
      (writeU32 (e.downloaded >>> 32).toUInt32 ++ (writeU16 e.reserved ++
        (writeU8 e.keySize ++ e.secureIdent.bytes)))))))

/-- `write_clients_met`: entries without transfer history are skipped. -/
def writeClientsMet (m : ClientsMet) : Bytes :=
  let kept := m.entries.filter (!·.isEmpty)
  writeU8 CREDIT_FILE_VERSION ++ (writeU32 (.ofNat kept.length) ++ kept.flatMap writeCreditEntry)

/-! ## Round trip -/

theorem joinHalves_split (v : UInt64) : joinHalves v.toUInt32 (v >>> 32).toUInt32 = v := by
  have hv := v.toNat_lt
  have hor := Nat.two_pow_add_eq_or_of_lt (Nat.mod_lt v.toNat (Nat.two_pow_pos 32)) (v.toNat / 2 ^ 32)
  apply UInt64.toNat_inj.mp
  rw [joinHalves, UInt64.toNat_or, UInt64.toNat_shiftLeft, UInt32.toNat_toUInt64,
    UInt32.toNat_toUInt64, UInt64.toNat_toUInt32, UInt64.toNat_toUInt32, UInt64.toNat_shiftRight,
    Nat.shiftLeft_eq, Nat.shiftRight_eq_div_pow]
  have hshift : (32 : UInt64).toNat % 64 = 32 := rfl
  rw [hshift, Nat.mod_eq_of_lt (show v.toNat / 2 ^ 32 < 2 ^ 32 by omega),
    Nat.mod_eq_of_lt (show v.toNat / 2 ^ 32 * 2 ^ 32 < 2 ^ 64 by omega), Nat.or_comm,
    Nat.mul_comm, ← hor]
  omega

theorem reads_creditEntry {e : CreditEntry} (h : e.keySize.toNat ≤ MAX_PUBKEY_SIZE) :
    Reads readCreditEntry (writeCreditEntry e) e := by
  have hvalue : (⟨e.userHash, joinHalves e.uploaded.toUInt32 (e.uploaded >>> 32).toUInt32,
      joinHalves e.downloaded.toUInt32 (e.downloaded >>> 32).toUInt32, e.lastSeen, e.reserved,
      e.keySize, e.secureIdent⟩ : CreditEntry) = e := by
    rw [joinHalves_split, joinHalves_split]
  refine (reads_hash16 _).bind ((reads_u32 _).bind ((reads_u32 _).bind ((reads_u32 _).bind
    ((reads_u32 _).bind ((reads_u32 _).bind ((reads_u16 _).bind ((reads_u8 _).bind ?_)))))))
  rw [if_neg (Nat.not_lt.mpr h)]
  have hreads := (reads_digest e.secureIdent).bind_pure (f := fun secureIdent =>
    (⟨e.userHash, joinHalves e.uploaded.toUInt32 (e.uploaded >>> 32).toUInt32,
      joinHalves e.downloaded.toUInt32 (e.downloaded >>> 32).toUInt32, e.lastSeen, e.reserved,
      e.keySize, secureIdent⟩ : CreditEntry))
  rw [hvalue] at hreads
  exact hreads

/-- The records with a transfer come back, as many as the u32 count can say. -/
theorem readClientsMet_writeClientsMet {m : ClientsMet}
    (hkey : ∀ e ∈ m.entries, e.keySize.toNat ≤ MAX_PUBKEY_SIZE)
    (hcount : (m.entries.filter (!·.isEmpty)).length < 2 ^ 32) :
    readClientsMet (writeClientsMet m) = .ok ⟨m.entries.filter (!·.isEmpty)⟩ := by
  have hlen : (UInt32.ofNat (m.entries.filter (!·.isEmpty)).length).toNat =
      (m.entries.filter (!·.isEmpty)).length := UInt32.toNat_ofNat_of_lt' hcount
  have hreads : Reads readClientsMetFrom (writeClientsMet m) ⟨m.entries.filter (!·.isEmpty)⟩ := by
    refine (reads_u8 _).bind ?_
    rw [if_neg (by simp)]
    refine (reads_u32 _).bind ?_
    rw [hlen]
    exact (Reads.many fun e he => reads_creditEntry (hkey e (List.mem_of_mem_filter he))).bind_pure
  rw [readClientsMet, hreads.run_nil]
  rfl

/-- A key longer than the blob makes the file unreadable. -/
theorem keySize_of_readClientsMet {bytes : Bytes} {m : ClientsMet}
    (h : readClientsMet bytes = .ok m) : ∀ e ∈ m.entries, e.keySize.toNat ≤ MAX_PUBKEY_SIZE := by
  have hentry : ∀ (r : Bytes) (e : CreditEntry) (r' : Bytes),
      readCreditEntry r = .ok (e, r') → e.keySize.toNat ≤ MAX_PUBKEY_SIZE := by
    intro r e r' he
    obtain ⟨_, _, -, he⟩ := ok_bind he
    obtain ⟨_, _, -, he⟩ := ok_bind he
    obtain ⟨_, _, -, he⟩ := ok_bind he
    obtain ⟨_, _, -, he⟩ := ok_bind he
    obtain ⟨_, _, -, he⟩ := ok_bind he
    obtain ⟨_, _, -, he⟩ := ok_bind he
    obtain ⟨_, _, -, he⟩ := ok_bind he
    obtain ⟨keySize, _, -, he⟩ := ok_bind he
    by_cases hlong : MAX_PUBKEY_SIZE < keySize.toNat
    · rw [if_pos hlong] at he
      cases he
    · rw [if_neg hlong] at he
      obtain ⟨_, _, -, he⟩ := ok_bind he
      cases he
      exact Nat.not_lt.mp hlong
  obtain ⟨rest, hread⟩ := ok_map_fst h
  obtain ⟨version, _, -, hread⟩ := ok_bind hread
  by_cases hversion : version ≠ CREDIT_FILE_VERSION
  · rw [if_pos hversion] at hread
    cases hread
  · rw [if_neg hversion] at hread
    obtain ⟨_, _, -, hread⟩ := ok_bind hread
    obtain ⟨entries, _, hentries, hread⟩ := ok_bind hread
    cases hread
    exact forall_of_readMany hentry hentries

end PadMule.Files
