import PadMule.Engine.PeerSources
import PadMule.Files.ServerMet

/-
  `mule-engine/src/engine.rs`: what a downloaded list, a gossip list or a crawl makes of
  `server.met`.

  Both ways read the file, vet what came in, merge it and write the whole file again. A file that
  cannot be read or does not parse counts as an empty one, and what comes in is written over it.
  `only_adds_iff`: an ingestion only adds, exactly when it does not do that to servers that did
  not come in again, and the merged list can be counted.
-/

namespace PadMule.Engine

open PadMule.Proto PadMule.Files FirstWins

/-! ## The two ways in -/

/-- `ip_from_met_u32`, in host order. -/
def ipFromMetU32 (ip : UInt32) : UInt32 := swapBytes ip

/-- A server that others may introduce. -/
def admissible (filter : Option IpFilter) (s : Server) : Bool :=
  s.port ≠ 0 && isRoutablePublicV4 (ipFromMetU32 s.ip) &&
    filter.all fun f => !f.isBlocked (ipFromMetU32 s.ip)

/-- `vet_downloaded_servers` -/
def vetDownloadedServers (met : ServerMet) (filter : Option IpFilter) : ServerMet :=
  { met with servers := met.servers.filter (admissible filter) }

/-- `looks_like_server_met`: it parses and holds a server. -/
def looksLikeServerMet (bytes : Bytes) : Bool :=
  (readServerMet bytes).toOption.any fun m => !m.servers.isEmpty

inductive ServerListUpdate where
  | updated (added total : UInt32)
  | notServerMet
  /-- The write failed, among other things. -/
  | unreachable

/-- What is read of `server.met`: there may be no file, its read may fail, and it may not parse. -/
def readBase (file : Option Bytes) (fails : Bool) : Option ServerMet :=
  (if fails then none else file).bind fun b => (readServerMet b).toOption

/-- `ingest_server_met`, and the file it leaves. -/
def ingestServerMet (filter : Option IpFilter) (file : Option Bytes) (fails writes : Bool)
    (body : Bytes) : ServerListUpdate × Option Bytes :=
  if !looksLikeServerMet body then (.notServerMet, file)
  else
    match readServerMet body with
    | .error _ => (.notServerMet, file)
    | .ok incoming =>
      let base := (readBase file fails).getD ⟨incoming.header, []⟩
      let before : UInt32 := .ofNat base.servers.length
      let merged := mergeServerMet base (vetDownloadedServers incoming filter)
      let total : UInt32 := .ofNat merged.servers.length
      if writes then (.updated (total - before) total, some (writeServerMet merged))
      else (.unreachable, file)

/-- `merge_discovered_servers`, and the file it leaves. -/
def mergeDiscoveredServers (filter : Option IpFilter) (file : Option Bytes) (fails writes : Bool)
    (pending : List (UInt32 × UInt16)) : UInt32 × Option Bytes :=
  let fresh := (pending.map fun p => Server.mk p.1 p.2 []).filter (admissible filter)
  if fresh.isEmpty then (0, file)
  else
    let base := (readBase file fails).getD ⟨SERVER_MET_HEADER, []⟩
    let before := base.servers.length
    let merged := mergeServerMet base ⟨base.header, fresh⟩
    let added : UInt32 := .ofNat (merged.servers.length - before)
    if 0 < added ∧ writes then (added, some (writeServerMet merged)) else (0, file)

/-- What comes in: the body of a downloaded list, or addresses that servers told. -/
inductive Ingestion where
  | list (body : Bytes)
  /-- At most 2000 of a gossip list, at most 1000 of a crawl. -/
  | discovered (pending : List (UInt32 × UInt16)) (bounded : pending.length < 2 ^ 32)

namespace Ingestion

/-- The file that an ingestion leaves. -/
def run (filter : Option IpFilter) (fails writes : Bool) (file : Option Bytes) :
    Ingestion → Option Bytes
  | list body => (ingestServerMet filter file fails writes body).2
  | discovered pending _ => (mergeDiscoveredServers filter file fails writes pending).2

/-- The body is a list of servers. -/
def parses : Ingestion → Bool
  | list body => (readServerMet body).toOption.isSome
  | discovered _ _ => true

/-- The servers that came in and may be added. -/
def accepted (filter : Option IpFilter) : Ingestion → List Server
  | list body =>
    (((readServerMet body).toOption.map ServerMet.servers).getD []).filter (admissible filter)
  | discovered pending _ => (pending.map fun p => Server.mk p.1 p.2 []).filter (admissible filter)

/-- Their addresses that a list does not have. -/
def newAddrs (filter : Option IpFilter) (i : Ingestion) (old : List Server) :
    Finset (UInt32 × UInt16) :=
  ((i.accepted filter).map Server.addr).toFinset \ (old.map Server.addr).toFinset

/-- The file is written: with every list that holds a server, and with new addresses. -/
def Writes (filter : Option IpFilter) (old : List Server) (i : Ingestion) : Prop :=
  match i with
  | list body => looksLikeServerMet body = true
  | discovered _ _ => (i.newAddrs filter old).Nonempty

instance decWrites (filter : Option IpFilter) (old : List Server) :
    ∀ i : Ingestion, Decidable (i.Writes filter old)
  | list body => inferInstanceAs (Decidable (looksLikeServerMet body = true))
  | discovered pending bounded =>
    inferInstanceAs (Decidable ((discovered pending bounded).newAddrs filter old).Nonempty)

end Ingestion

/-! ## What an ingestion should keep -/

/-- The servers of a file as this read finds them. -/
def serversOf (file : Option Bytes) (fails : Bool) : List Server :=
  ((readBase file fails).map ServerMet.servers).getD []

/-- `new` is `old` with vetted servers of other addresses behind it. -/
def Extends (filter : Option IpFilter) (old new : List Server) : Prop :=
  ∃ added, new = old ++ added ∧ (added.map Server.addr).Nodup ∧
    ∀ s ∈ added, s.addr ∉ old.map Server.addr ∧ admissible filter s = true

/-- The ingestion of `i` into `file` only adds. -/
structure OnlyAdds (filter : Option IpFilter) (i : Ingestion) (file : Option Bytes)
    (fails writes : Bool) : Prop where
  kept : i.run filter fails writes file = file ∨
    ∃ met, readBase (i.run filter fails writes file) false = some met ∧
      Extends filter (serversOf file fails) met.servers
  /-- A body that does not parse changes nothing. -/
  garbage : i.parses = false → i.run filter fails writes file = file
  /-- The same once more adds nothing, after one that read the file or wrote it. -/
  again : writes = true → fails = false ∨ i.Writes filter (serversOf file fails) →
    ∀ writes', readBase (i.run filter false writes' (i.run filter fails writes file)) false =
      readBase (i.run filter fails writes file) false
  /-- A file that could not be used is left, or what replaces it has its servers. -/
  unused : ∀ b, file = some b → readBase file fails = none →
    i.run filter fails writes file = file ∨
      ∃ lost met, readServerMet b = .ok lost ∧
        readBase (i.run filter fails writes file) false = some met ∧
        ∀ s ∈ lost.servers, s ∈ met.servers

/-- The servers of a file that was not used are, tags and all, the first at their addresses among
    those that came in. -/
def CameBack (filter : Option IpFilter) (i : Ingestion) (file : Option Bytes) (fails : Bool) :
    Prop :=
  ∀ b, file = some b → readBase file fails = none →
    ∃ lost, readServerMet b = .ok lost ∧
      ∀ s ∈ lost.servers, first Server.addr (i.accepted filter) s.addr = some s

/-! ## What is written -/

variable {filter : Option IpFilter} {i : Ingestion} {file : Option Bytes} {fails writes : Bool}

namespace Ingestion

/-- The header of a file that starts with this ingestion. -/
def header : Ingestion → UInt8
  | list body => ((readServerMet body).toOption.map ServerMet.header).getD SERVER_MET_HEADER
  | discovered _ _ => SERVER_MET_HEADER

def merged (filter : Option IpFilter) (i : Ingestion) (base : Option ServerMet) : ServerMet :=
  mergeServerMet (base.getD ⟨i.header, []⟩) ⟨i.header, i.accepted filter⟩

theorem accepted_ok {s : Server} (hs : s ∈ i.accepted filter) :
    s.Writable ∧ admissible filter s = true := by
  cases i with
  | list body =>
    obtain ⟨hs, hadmissible⟩ := List.mem_filter.mp hs
    refine ⟨?_, hadmissible⟩
    cases hbody : readServerMet body with
    | error e =>
      rw [hbody] at hs
      cases hs
    | ok m =>
      rw [hbody] at hs
      exact (writable_of_readServerMet hbody).1.servers s hs
  | discovered pending bounded =>
    obtain ⟨hs, hadmissible⟩ := List.mem_filter.mp hs
    obtain ⟨p, -, rfl⟩ := List.mem_map.mp hs
    exact ⟨⟨Nat.two_pow_pos 32, fun t ht => absurd ht List.not_mem_nil⟩, hadmissible⟩

theorem length_accepted_lt (filter : Option IpFilter) (i : Ingestion) :
    (i.accepted filter).length < 2 ^ 32 := by
  cases i with
  | list body =>
    refine (List.length_filter_le _ _).trans_lt ?_
    cases hbody : readServerMet body with
    | error e => exact Nat.two_pow_pos 32
    | ok m => exact (writable_of_readServerMet hbody).2
  | discovered pending bounded =>
    refine (List.length_filter_le _ _).trans_lt ?_
    rwa [List.length_map]

theorem card_newAddrs_lt (filter : Option IpFilter) (i : Ingestion) (old : List Server) :
    (i.newAddrs filter old).card < 2 ^ 32 := by
  rw [newAddrs, ← length_news]
  exact length_news_le.trans_lt (i.length_accepted_lt filter)

end Ingestion

theorem servers_getD (header : UInt8) :
    ((readBase file fails).getD ⟨header, []⟩).servers = serversOf file fails := by
  unfold serversOf
  cases readBase file fails <;> rfl

theorem servers_merged : (i.merged filter (readBase file fails)).servers =
    serversOf file fails ++
      news Server.addr ((serversOf file fails).map Server.addr).toFinset (i.accepted filter) := by
  rw [← servers_getD i.header]
  rfl

theorem length_merged : (i.merged filter (readBase file fails)).servers.length =
    (serversOf file fails).length + (i.newAddrs filter (serversOf file fails)).card := by
  rw [servers_merged, List.length_append, length_news]
  rfl

theorem extends_merged :
    Extends filter (serversOf file fails) (i.merged filter (readBase file fails)).servers := by
  refine ⟨_, servers_merged, nodup_news, fun s hs => ⟨fun hold => ?_, ?_⟩⟩
  · exact (mem_news.mp hs).1 (List.mem_toFinset.mpr hold)
  · exact (Ingestion.accepted_ok (news_subset hs)).2

/-- `ingest_server_met` -/
theorem run_list (body : Bytes) :
    (Ingestion.list body).run filter fails writes file =
      if writes = true ∧ looksLikeServerMet body = true then
        some (writeServerMet ((Ingestion.list body).merged filter (readBase file fails)))
      else file := by
  unfold Ingestion.run
  dsimp only
  unfold ingestServerMet
  cases hlook : looksLikeServerMet body with
  | false => exact (if_neg fun h => Bool.noConfusion h.2).symm
  | true =>
    cases hbody : readServerMet body with
    | error e =>
      rw [looksLikeServerMet, hbody] at hlook
      cases hlook
    | ok incoming =>
      have hmerged : (Ingestion.list body).merged filter (readBase file fails) =
          mergeServerMet ((readBase file fails).getD ⟨incoming.header, []⟩)
            (vetDownloadedServers incoming filter) := by
        unfold Ingestion.merged Ingestion.header Ingestion.accepted
        dsimp only
        rw [hbody]
        rfl
      rw [hmerged]
      cases writes <;> rfl

/-- `merge_discovered_servers` -/
theorem run_discovered {pending : List (UInt32 × UInt16)} (bounded : pending.length < 2 ^ 32) :
    (Ingestion.discovered pending bounded).run filter fails writes file =
      if writes = true ∧
          ((Ingestion.discovered pending bounded).newAddrs filter (serversOf file fails)).Nonempty
      then some (writeServerMet
        ((Ingestion.discovered pending bounded).merged filter (readBase file fails)))
      else file := by
  generalize hi : Ingestion.discovered pending bounded = i
  have hadded : (i.merged filter (readBase file fails)).servers.length -
      ((readBase file fails).getD ⟨SERVER_MET_HEADER, []⟩).servers.length =
        (i.newAddrs filter (serversOf file fails)).card := by
    rw [length_merged, servers_getD, Nat.add_sub_cancel_left]
  have hsome : (0 : UInt32) < .ofNat (i.newAddrs filter (serversOf file fails)).card ↔
      (i.newAddrs filter (serversOf file fails)).Nonempty := by
    rw [UInt32.lt_iff_toNat_lt, UInt32.toNat_ofNat_of_lt' (i.card_newAddrs_lt ..)]
    exact Finset.card_pos
  subst hi
  by_cases hempty : (pending.map fun p => Server.mk p.1 p.2 []).filter (admissible filter) = []
  · have hnone : (Ingestion.discovered pending bounded).newAddrs filter (serversOf file fails) =
        ∅ := by
      rw [Ingestion.newAddrs, show (Ingestion.discovered pending bounded).accepted filter = [] from
        hempty]
      exact Finset.empty_sdiff _
    unfold Ingestion.run mergeDiscoveredServers
    rw [hnone, if_neg fun h => Finset.not_nonempty_empty h.2]
    dsimp only
    rw [if_pos (List.isEmpty_iff.mpr hempty)]
  · unfold Ingestion.run mergeDiscoveredServers
    dsimp only
    rw [if_neg fun h => hempty (List.isEmpty_iff.mp h)]
    show Prod.snd (if 0 < UInt32.ofNat (((Ingestion.discovered pending bounded).merged filter
      (readBase file fails)).servers.length - _) ∧ writes = true then _ else
        ((0 : UInt32), file)) = _
    rw [hadded]
    simp only [hsome, and_comm]
    split_ifs <;> rfl

theorem run_eq (filter : Option IpFilter) (i : Ingestion) (file : Option Bytes)
    (fails writes : Bool) : i.run filter fails writes file =
      if writes = true ∧ i.Writes filter (serversOf file fails) then
        some (writeServerMet (i.merged filter (readBase file fails)))
      else file := by
  cases i with
  | list body => exact run_list body
  | discovered pending bounded => exact run_discovered bounded

theorem run_of_writes (hwrites : writes = true)
    (hnew : i.Writes filter (serversOf file fails)) : i.run filter fails writes file =
      some (writeServerMet (i.merged filter (readBase file fails))) := by
  rw [run_eq, if_pos ⟨hwrites, hnew⟩]

/-! ## Reading it back -/

theorem header_ok (i : Ingestion) :
    i.header = SERVER_MET_HEADER ∨ i.header = SERVER_MET_HEADER_LEGACY := by
  cases i with
  | discovered pending bounded => exact .inl rfl
  | list body =>
    unfold Ingestion.header
    dsimp only
    cases hbody : readServerMet body with
    | error e => exact .inl rfl
    | ok m => exact (writable_of_readServerMet hbody).1.header

theorem readBase_eq_some {met : ServerMet} (h : readBase file fails = some met) :
    ∃ b, file = some b ∧ fails = false ∧ readServerMet b = .ok met := by
  obtain ⟨b, hb, hmet⟩ := Option.bind_eq_some_iff.mp h
  cases fails with
  | true => cases hb
  | false =>
    refine ⟨b, hb, rfl, ?_⟩
    cases hread : readServerMet b with
    | error e =>
      rw [hread] at hmet
      cases hmet
    | ok m =>
      rw [hread] at hmet
      exact congrArg _ (Option.some.inj hmet)

theorem readBase_of_ok {b : Bytes} {met : ServerMet} (h : readServerMet b = .ok met) :
    readBase (some b) false = some met := by
  show (readServerMet b).toOption = some met
  rw [h]
  rfl

theorem writable_merged : (i.merged filter (readBase file fails)).Writable := by
  refine writable_merge ?_ fun s hs => (Ingestion.accepted_ok hs).1
  cases hbase : readBase file fails with
  | none => exact ⟨header_ok i, fun s hs => absurd hs List.not_mem_nil⟩
  | some met =>
    obtain ⟨b, -, -, hread⟩ := readBase_eq_some hbase
    exact (writable_of_readServerMet hread).1

/-- What was written reads as the merged list, cut where its count is. -/
theorem readBase_written :
    readBase (some (writeServerMet (i.merged filter (readBase file fails)))) false =
      some { i.merged filter (readBase file fails) with
        servers := (i.merged filter (readBase file fails)).servers.take
          ((i.merged filter (readBase file fails)).servers.length % 2 ^ 32) } :=
  readBase_of_ok (readServerMet_writeServerMet writable_merged)

theorem readBase_written_of_lt
    (hlt : (i.merged filter (readBase file fails)).servers.length < 2 ^ 32) :
    readBase (some (writeServerMet (i.merged filter (readBase file fails)))) false =
      some (i.merged filter (readBase file fails)) :=
  readBase_of_ok (readServerMet_writeServerMet_of_lt writable_merged hlt)

/-- The merged list takes no more from the same ingestion. -/
theorem run_written (hlt : (i.merged filter (readBase file fails)).servers.length < 2 ^ 32)
    (writes' : Bool) :
    readBase (i.run filter false writes'
        (some (writeServerMet (i.merged filter (readBase file fails))))) false =
      some (i.merged filter (readBase file fails)) := by
  have hread := readBase_written_of_lt hlt
  rw [run_eq]
  split_ifs
  · rw [hread]
    have hsame : i.merged filter (some (i.merged filter (readBase file fails))) =
        i.merged filter (readBase file fails) := merge_merge _ _
    rw [hsame]
    exact hread
  · exact hread

/-! ## When it only adds -/

theorem parses_of_writes {old : List Server} (h : i.Writes filter old) : i.parses = true := by
  cases i with
  | discovered pending bounded => rfl
  | list body =>
    have hlook : looksLikeServerMet body = true := h
    unfold looksLikeServerMet at hlook
    unfold Ingestion.parses
    dsimp only
    cases hbody : (readServerMet body).toOption with
    | none =>
      rw [hbody] at hlook
      cases hlook
    | some met => rfl

/-- A server of the list that replaces a file is the first at its address. -/
theorem mem_merged_iff (hnone : readBase file fails = none) {s : Server} :
    s ∈ (i.merged filter (readBase file fails)).servers ↔
      first Server.addr (i.accepted filter) s.addr = some s := by
  have hempty : serversOf file fails = [] := by
    rw [serversOf, hnone]
    rfl
  rw [servers_merged, hempty, List.nil_append, mem_news]
  exact and_iff_right (Finset.notMem_empty _)

/-- A file that keeps the old servers has counted them. -/
theorem OnlyAdds.counted (h : OnlyAdds filter i file fails writes) (hwrites : writes = true)
    (hnew : i.Writes filter (serversOf file fails)) : (serversOf file fails).length ≤
      (i.merged filter (readBase file fails)).servers.length % 2 ^ 32 := by
  have hrun := run_of_writes hwrites hnew
  have hread := @readBase_written filter i file fails
  rcases h.kept with hsame | ⟨met, hmet, added, hadded, -⟩
  · by_cases hbase : readBase file fails = none
    · rw [serversOf, hbase]
      exact Nat.zero_le _
    · obtain ⟨met, hmet⟩ := Option.ne_none_iff_exists'.mp hbase
      obtain ⟨b, -, rfl, -⟩ := readBase_eq_some hmet
      rw [← hrun, hsame] at hread
      have hlen := congrArg (fun base => ((base.map ServerMet.servers).getD []).length) hread
      exact hlen.trans_le (List.length_take_le ..)
  · rw [hrun, hread] at hmet
    obtain rfl := Option.some.inj hmet
    have hlen := congrArg List.length hadded
    rw [List.length_take, List.length_append] at hlen
    omega

/-- What comes in only adds to the file exactly when, where it is written, the merged list can be
    counted, and no server of a file that was not used is lost. -/
theorem only_adds_iff (filter : Option IpFilter) (i : Ingestion) (file : Option Bytes)
    (fails writes : Bool) : OnlyAdds filter i file fails writes ↔
      (writes = true → i.Writes filter (serversOf file fails) →
        (serversOf file fails).length + (i.newAddrs filter (serversOf file fails)).card < 2 ^ 32 ∧
          CameBack filter i file fails) := by
  rw [← length_merged]
  constructor
  · intro h hwrites hnew
    have hrun := run_of_writes hwrites hnew
    have hlt : (i.merged filter (readBase file fails)).servers.length < 2 ^ 32 := by
      have hcounted := h.counted hwrites hnew
      have hfew := i.card_newAddrs_lt filter (serversOf file fails)
      rw [length_merged] at hcounted ⊢
      omega
    refine ⟨hlt, fun b hb hnone => ?_⟩
    have hread := readBase_written_of_lt hlt
    rcases h.unused b hb hnone with hsame | ⟨lost, met, hlost, hmet, hall⟩
    · rw [← hrun, hsame, hb] at hread
      obtain ⟨b', hb', -, hparsed⟩ := readBase_eq_some hread
      obtain rfl := Option.some.inj hb'
      exact ⟨_, hparsed, fun s hs => (mem_merged_iff hnone).mp (hb ▸ hs)⟩
    · rw [hrun, hread] at hmet
      obtain rfl := Option.some.inj hmet
      exact ⟨lost, hlost, fun s hs => (mem_merged_iff hnone).mp (hall s hs)⟩
  · intro h
    by_cases hwritten : writes = true ∧ i.Writes filter (serversOf file fails)
    · obtain ⟨hlt, hback⟩ := h hwritten.1 hwritten.2
      have hrun := run_of_writes hwritten.1 hwritten.2
      have hread := readBase_written_of_lt hlt
      refine
        { kept := .inr ⟨_, hrun ▸ hread, extends_merged⟩
          garbage := fun hgarbage => ?_
          again := fun _ _ writes' => ?_
          unused := fun b hb hnone => .inr ?_ }
      · exact absurd ((parses_of_writes hwritten.2).symm.trans hgarbage) (by decide)
      · rw [hrun, run_written hlt writes', hread]
      · obtain ⟨lost, hlost, hall⟩ := hback b hb hnone
        exact ⟨lost, _, hlost, hrun ▸ hread, fun s hs => (mem_merged_iff hnone).mpr (hall s hs)⟩
    · have hrun : i.run filter fails writes file = file := by rw [run_eq, if_neg hwritten]
      refine
        { kept := .inl hrun, garbage := fun _ => hrun
          again := fun hwrites hread writes' => ?_
          unused := fun _ _ _ => .inl hrun }
      have hidle : ¬i.Writes filter (serversOf file fails) := fun hnew => hwritten ⟨hwrites, hnew⟩
      obtain rfl := hread.resolve_right hidle
      rw [hrun, run_eq, if_neg fun hnew => hidle hnew.2]

/-- A server of the user's own, and one that a server tells of. -/
def ownList : ServerMet := ⟨SERVER_MET_HEADER, [⟨0x0100007F, 4661, []⟩]⟩

def toldList : ServerMet := ⟨SERVER_MET_HEADER, [⟨0x08080808, 4661, []⟩]⟩

def told : Ingestion := .discovered [(0x08080808, 4661)] (by decide)

/-- A list that one read fails on is replaced by what a server told, and so is one that lacks its
    last byte. -/
theorem unused_list_replaced :
    ¬OnlyAdds none told (some (writeServerMet ownList)) true true ∧
      ¬OnlyAdds none told (some (writeServerMet ownList).dropLast) false true := by
  have hread : readBase (some (writeServerMet toldList)) false = some toldList := by decide
  constructor
  · intro h
    have hrun : told.run none true true (some (writeServerMet ownList)) =
        some (writeServerMet toldList) := by decide
    have hown : readServerMet (writeServerMet ownList) = .ok ownList := by decide
    rcases h.unused _ rfl rfl with hsame | ⟨lost, met, hlost, hmet, hall⟩
    · exact absurd (hrun.symm.trans hsame) (by decide)
    · rw [hown] at hlost
      rw [hrun, hread] at hmet
      cases hlost
      cases hmet
      exact absurd (hall ⟨0x0100007F, 4661, []⟩ List.mem_cons_self) (by decide)
  · intro h
    have hrun : told.run none false true (some (writeServerMet ownList).dropLast) =
        some (writeServerMet toldList) := by decide
    rcases h.unused _ rfl (by decide) with hsame | ⟨lost, -, hlost, -⟩
    · exact absurd (hrun.symm.trans hsame) (by decide)
    · have hgarbage : (readServerMet (writeServerMet ownList).dropLast).toOption = none := by decide
      rw [hlost] at hgarbage
      cases hgarbage

end PadMule.Engine
