import PadMule.Files.PartMet
import PadMule.Lib.FirstWins

/-
  `mule-files/src/server_met.rs`: the list of servers.

  A header byte, a u32 count, then for each server its address and counted tags. Whatever reads can
  be written (`writable_of_readServerMet`), and comes back as written but for a count that does not
  fit its field (`readServerMet_writeServerMet`). A merge keeps one list and adds the addresses
  that only the other one has.
-/

namespace PadMule.Files

open PadMule.Proto Readers FirstWins

def SERVER_MET_HEADER : UInt8 := 0xE0
def SERVER_MET_HEADER_LEGACY : UInt8 := 0x0E

structure Server where
  /-- As stored, the first octet in the low byte. -/
  ip : UInt32
  port : UInt16
  tags : List Tag
deriving DecidableEq

def Server.addr (s : Server) : UInt32 × UInt16 := (s.ip, s.port)

structure ServerMet where
  header : UInt8
  servers : List Server
deriving DecidableEq

def readServer : Reader Server := do
  let ip ← readU32
  let port ← readU16
  let tags ← readTags
  return ⟨ip, port, tags⟩

def readServerMetFrom : Reader ServerMet := do
  let header ← readU8
  if header ≠ SERVER_MET_HEADER ∧ header ≠ SERVER_MET_HEADER_LEGACY then
    throw (.badTag header)
  else
    let count ← readU32
    return ⟨header, ← readMany readServer count.toNat⟩

/-- `read_server_met`; bytes after the last record are ignored. -/
def readServerMet (bytes : Bytes) : Except IoError ServerMet :=
  (readServerMetFrom bytes).map Prod.fst

def writeServer (s : Server) : Bytes := writeU32 s.ip ++ (writeU16 s.port ++ writeTags s.tags)

def writeServerMet (m : ServerMet) : Bytes :=
  writeU8 m.header ++ (writeU32 (.ofNat m.servers.length) ++ m.servers.flatMap writeServer)

/-- `merge_server_met`: the entries of `base`, then the incoming ones at addresses not seen. -/
def mergeServerMet (base incoming : ServerMet) : ServerMet :=
  { base with
    servers := base.servers ++
      news Server.addr (base.servers.map Server.addr).toFinset incoming.servers }

/-! ## What the writer can represent -/

structure Server.Writable (s : Server) : Prop where
  count_lt : s.tags.length < 2 ^ 32
  tags : ∀ t ∈ s.tags, t.Writable

structure ServerMet.Writable (m : ServerMet) : Prop where
  header : m.header = SERVER_MET_HEADER ∨ m.header = SERVER_MET_HEADER_LEGACY
  servers : ∀ s ∈ m.servers, s.Writable

theorem reads_server {s : Server} (h : s.Writable) : Reads readServer (writeServer s) s :=
  (reads_u32 s.ip).bind ((reads_u16 s.port).bind (reads_tags h.tags h.count_lt).bind_pure)

/-- As many servers come back as the u32 count says. -/
theorem readServerMet_writeServerMet {m : ServerMet} (h : m.Writable) :
    readServerMet (writeServerMet m) =
      .ok { m with servers := m.servers.take (m.servers.length % 2 ^ 32) } := by
  have hheader : ¬ (m.header ≠ SERVER_MET_HEADER ∧ m.header ≠ SERVER_MET_HEADER_LEGACY) := by
    rcases h.header with hh | hh <;> simp [hh]
  have hcount : (UInt32.ofNat m.servers.length).toNat =
      (m.servers.take (m.servers.length % 2 ^ 32)).length := by
    rw [List.length_take, Nat.min_eq_left (Nat.mod_le ..)]
    exact UInt32.toNat_ofNat
  have hreads : Reads readServerMetFrom
      (writeU8 m.header ++ (writeU32 (.ofNat m.servers.length) ++
        (m.servers.take (m.servers.length % 2 ^ 32)).flatMap writeServer))
      { m with servers := m.servers.take (m.servers.length % 2 ^ 32) } := by
    refine (reads_u8 m.header).bind ?_
    rw [if_neg hheader]
    refine (reads_u32 _).bind ?_
    rw [hcount]
    exact (Reads.many fun s hs =>
      reads_server (h.servers s (List.mem_of_mem_take hs))).bind_pure
  have hrest := hreads ((m.servers.drop (m.servers.length % 2 ^ 32)).flatMap writeServer)
  rw [List.append_assoc, List.append_assoc, ← List.flatMap_append, List.take_append_drop] at hrest
  unfold readServerMet writeServerMet
  rw [hrest]
  rfl

theorem readServerMet_writeServerMet_of_lt {m : ServerMet} (h : m.Writable)
    (hlt : m.servers.length < 2 ^ 32) : readServerMet (writeServerMet m) = .ok m := by
  rw [readServerMet_writeServerMet h, Nat.mod_eq_of_lt hlt, List.take_length]

/-! ## Whatever reads can be written -/

theorem writable_of_readServer {s s' : Bytes} {e : Server} (h : readServer s = .ok (e, s')) :
    e.Writable := by
  obtain ⟨ip, s₁, -, h⟩ := ok_bind h
  obtain ⟨port, s₂, -, h⟩ := ok_bind h
  obtain ⟨tags, s₃, htags, h⟩ := ok_bind h
  cases h
  exact ⟨length_of_readTags htags, writable_of_readTags htags⟩

theorem writable_of_readServerMet {bytes : Bytes} {m : ServerMet}
    (h : readServerMet bytes = .ok m) : m.Writable ∧ m.servers.length < 2 ^ 32 := by
  obtain ⟨rest, hread⟩ := ok_map_fst h
  obtain ⟨header, s₁, -, hread⟩ := ok_bind hread
  by_cases hheader : header ≠ SERVER_MET_HEADER ∧ header ≠ SERVER_MET_HEADER_LEGACY
  · rw [if_pos hheader] at hread
    cases hread
  · rw [if_neg hheader] at hread
    obtain ⟨count, s₂, -, hread⟩ := ok_bind hread
    obtain ⟨servers, s₃, hmany, hread⟩ := ok_bind hread
    cases hread
    have hservers := forall_of_readMany (fun _ _ _ hs => writable_of_readServer hs) hmany
    refine ⟨⟨?_, hservers⟩, length_of_readMany hmany ▸ count.toNat_lt⟩
    by_contra hnot
    exact hheader (not_or.mp hnot)

/-! ## Merging -/

theorem writable_merge {base incoming : ServerMet} (hbase : base.Writable)
    (hincoming : ∀ s ∈ incoming.servers, s.Writable) : (mergeServerMet base incoming).Writable where
  header := hbase.header
  servers s hs := (List.mem_append.mp hs).elim (hbase.servers s) fun hnew =>
    hincoming s (news_subset hnew)

/-- A second merge of the same list adds nothing. -/
theorem merge_merge (base incoming : ServerMet) :
    mergeServerMet (mergeServerMet base incoming) incoming = mergeServerMet base incoming := by
  have hnone : news Server.addr ((mergeServerMet base incoming).servers.map Server.addr).toFinset
      incoming.servers = [] := by
    rw [← List.length_eq_zero_iff, length_news, Finset.card_eq_zero,
      Finset.sdiff_eq_empty_iff_subset, mergeServerMet, List.map_append, List.toFinset_append,
      toFinset_news]
    exact Finset.subset_union_right.trans (Finset.union_sdiff_self_eq_union ..).ge
  rw [mergeServerMet, hnone, List.append_nil]

end PadMule.Files
