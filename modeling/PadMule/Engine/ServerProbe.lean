import PadMule.Engine.LibraryAgrees
import PadMule.Engine.ServerList

/-
  `mule-engine/src/engine.rs`: the status ping of the listed servers, and the pruning of dead ones.

  A round pings every server that the blocklist lets it ping and folds answers and silence into a
  memory of misses. Pruning keeps what the rows of its own round show alive, pinned or connected.
  But a row is also not alive where the round never ran, where the server was never reached, and
  where it has never answered and is still being checked. So a prune removes the dead alone exactly
  if its round runs and each server that nothing protects has answered, now or lately, or was
  silent in this round and the two before it (`prune_removes_dead_iff`).

  Reading and writing `server.met` does not fail here; what was written reads back
  (`Files.readServerMet_writeServerMet_of_lt`). The `ip:port` texts stand as the addresses.
-/

namespace PadMule.Engine.ServerProbe

open PadMule.Proto PadMule.Files LossyUtf8 LibraryAgrees

def OP_GLOBSERVSTATRES : UInt8 := 0x97
def OP_SERVER_DESC_RES : UInt8 := 0xA3
def INV_SERV_DESC_LEN : UInt16 := 0xF0FF
def SERV_STAT_CHALLENGE_MARK : UInt32 := 0x55AA0000
def ST_SERVERNAME : UInt8 := 0x01
def ST_DESCRIPTION : UInt8 := 0x0B
def PROBE_MISSES_BEFORE_DEAD : Nat := 3

/-! ## Answers -/

def servStatChallenge (seed : UInt16) : UInt32 := SERV_STAT_CHALLENGE_MARK ||| seed.toUInt32

def descReqChallenge (seed : UInt16) : UInt32 :=
  (seed.toUInt32 <<< 16) ||| INV_SERV_DESC_LEN.toUInt32

/-- The challenge, the users and the files. -/
def parseServStatRes (payload : Bytes) : Option (UInt32 × UInt32 × UInt32) :=
  let read : Reader (UInt32 × UInt32 × UInt32) := do
    return (← readU32, ← readU32, ← readU32)
  (read payload).toOption.map Prod.fst

structure ServerDesc where
  name : String
  description : String

/-- The tags of a description, as many as can be read. -/
def descTags : Nat → Bytes → ServerDesc → ServerDesc
  | 0, _, desc => desc
  | count + 1, r, desc =>
    match readTag r with
    | .error _ => desc
    | .ok (tag, r) =>
      let desc := match tag.name, tag.value with
        | .id id, .str bytes =>
          if id = ST_SERVERNAME then { desc with name := fromUtf8Lossy bytes }
          else if id = ST_DESCRIPTION then { desc with description := fromUtf8Lossy bytes }
          else desc
        | _, _ => desc
      descTags count r desc

def parseServerDescRes (payload : Bytes) (expectedChallenge : UInt32) : Option ServerDesc :=
  if 8 ≤ payload.length ∧ (readU16 payload).toOption.map Prod.fst = some INV_SERV_DESC_LEN ∧
      (readU32 payload).toOption.map Prod.fst = some expectedChallenge then
    match readU32 (payload.drop 4) with
    | .error _ => none
    | .ok (count, r) => some (descTags count.toNat r ⟨"", ""⟩)
  else
    match readStringU16 payload with
    | .error _ => none
    | .ok (name, r) =>
      let description := ((readStringU16 r).toOption.map Prod.fst).getD []
      some ⟨fromUtf8Lossy name, fromUtf8Lossy description⟩

def trim (s : String) : String := String.ofList (trimMatches isWhitespace s.toList)

/-! ## The rows -/

def addrOf (s : Server) : SocketAddr := .v4 (ipFromMetU32 s.ip) s.port

structure ServerEntry where
  addr : SocketAddr
  name : String
  users : Option UInt32
  files : Option UInt32
  alive : Bool
  connected : Bool
  pinned : Bool
  checking : Bool

/-- What is remembered of a server. -/
structure ProbeHealth where
  users : UInt32
  files : UInt32
  misses : Nat
  answered : Bool

/-- What a round starts from. -/
structure Env where
  /-- None if there is no file, or none that can be read. -/
  met : Option ServerMet
  pinned : List SocketAddr
  connected : Option SocketAddr
  offline : Bool
  ipFilter : Option IpFilter

structure Datagram where
  src : SocketAddr
  bytes : Bytes

/-- What a round meets. -/
structure Round where
  binds : Bool
  /-- The random numbers for each row. -/
  seeds : Nat → UInt16 × UInt16
  /-- Whether the status ping could be sent. -/
  sends : SocketAddr → Bool
  /-- What comes in before the time is over. -/
  datagrams : List Datagram

def blocklistForbidsSend (filter : Option IpFilter) : SocketAddr → Bool
  | .v4 ip _ => isRoutablePublicV4 ip && filter.any (·.isBlocked ip)
  | .v6 _ _ => false

/-- The UDP port of the status ping. -/
def statusAddr : SocketAddr → Option SocketAddr
  | .v4 ip port => if port.toNat + 4 < 65536 then some (.v4 ip (port + 4)) else none
  | .v6 ip port => if port.toNat + 4 < 65536 then some (.v6 ip (port + 4)) else none

namespace Env

def servers (env : Env) : List Server := (env.met.map ServerMet.servers).getD []

def forbids (env : Env) (a : SocketAddr) : Bool := blocklistForbidsSend env.ipFilter a

/-- Pinned, or the one we are connected to. -/
def protects (env : Env) (a : SocketAddr) : Bool :=
  a ∈ env.pinned || env.connected = some a

def entry (env : Env) (s : Server) : ServerEntry where
  addr := addrOf s
  name := (tagString s.tags ST_SERVERNAME).getD ""
  users := none
  files := none
  alive := false
  connected := env.connected = some (addrOf s)
  pinned := addrOf s ∈ env.pinned
  checking := false

def rows (env : Env) : List ServerEntry := env.servers.map env.entry

end Env

/-! ## One round -/

/-- The rows while answers are collected, and what is still waited for. -/
structure Collecting where
  rows : List ServerEntry
  learned : List (SocketAddr × String)
  awaitingStatus : Nat
  awaitingName : Nat

namespace Collecting

def senderIndex (env : Env) (rows : List ServerEntry) (src : SocketAddr) : Option Nat :=
  rows.findIdx? fun e => !env.forbids e.addr && statusAddr e.addr = some src

def onStatus (c : Collecting) (i : Nat) (users files : UInt32) : Collecting :=
  { c with
    awaitingStatus := c.awaitingStatus - if c.rows[i]?.any ServerEntry.alive then 0 else 1
    rows := c.rows.modify i fun e =>
      { e with alive := true, users := some users, files := some files } }

def onName (c : Collecting) (i : Nat) (name : String) : Collecting :=
  match c.rows[i]? with
  | none => c
  | some e =>
    if name = "" || e.name ≠ "" then c
    else
      { c with
        rows := c.rows.modify i fun e => { e with name }
        learned := c.learned ++ [(e.addr, name)]
        awaitingName := c.awaitingName - 1 }

/-- Only what a pinged server says, to the challenge that it was sent, is believed. -/
def onDatagram (env : Env) (r : Round) (c : Collecting) (g : Datagram) : Collecting :=
  match g.bytes, senderIndex env c.rows g.src with
  | p :: op :: payload, some i =>
    if p ≠ PROT_EDONKEY then c
    else if op = OP_GLOBSERVSTATRES then
      match parseServStatRes payload with
      | some (challenge, users, files) =>
        if challenge = servStatChallenge (r.seeds i).1 then c.onStatus i users files else c
      | none => c
    else if op = OP_SERVER_DESC_RES then
      let desc := parseServerDescRes payload (descReqChallenge (r.seeds i).2)
      c.onName i ((desc.map fun d => trim d.name).getD "")
    else c
  | _, _ => c

def collect (env : Env) (r : Round) (c : Collecting) : List Datagram → Collecting
  | [] => c
  | g :: gs =>
    if c.awaitingStatus = 0 ∧ c.awaitingName = 0 then c
    else collect env r (c.onDatagram env r g) gs

def start (env : Env) : Collecting where
  rows := env.rows
  learned := []
  awaitingStatus := env.rows.countP fun e => !env.forbids e.addr
  awaitingName := env.rows.countP fun e => !env.forbids e.addr && e.name = ""

end Collecting

structure ProbeVerdict where
  alive : Bool
  checking : Bool
  users : UInt32
  files : UInt32

/-- The misses are counted up to 255. -/
def foldProbeRound (h : ProbeHealth) (answered : Bool) (users files : UInt32) :
    ProbeHealth × ProbeVerdict :=
  if answered then (⟨users, files, 0, true⟩, ⟨true, false, users, files⟩)
  else
    let h := { h with misses := min (h.misses + 1) 255 }
    if PROBE_MISSES_BEFORE_DEAD ≤ h.misses then (h, ⟨false, false, 0, 0⟩)
    else (h, ⟨h.answered, !h.answered, h.users, h.files⟩)

abbrev Health := SocketAddr → Option ProbeHealth

def Health.memory (health : Health) (a : SocketAddr) : ProbeHealth :=
  (health a).getD ⟨0, 0, 0, false⟩

def ServerEntry.told (e : ServerEntry) (seen : ProbeVerdict) : ServerEntry :=
  { e with
    alive := seen.alive
    checking := seen.checking
    users := if seen.alive then some seen.users else e.users
    files := if seen.alive then some seen.files else e.files }

/-- What the round says of a row, and what is remembered. -/
def ServerEntry.round (e : ServerEntry) (health : Health) : ProbeHealth × ProbeVerdict :=
  foldProbeRound (health.memory e.addr) e.alive (e.users.getD 0) (e.files.getD 0)

def Health.after (health : Health) (e : ServerEntry) : Health :=
  Function.update health e.addr (some (e.round health).1)

/-- The rows, one after the other. -/
def foldRows : Health → List ServerEntry → Health × List ServerEntry
  | health, [] => (health, [])
  | health, e :: es =>
    let rest := foldRows (health.after e) es
    (rest.1, e.told (e.round health).2 :: rest.2)

def nameTag (name : String) : Tag := .ofId ST_SERVERNAME (.str (utf8 name))

def giveName (learned : SocketAddr × String) (s : Server) : Server :=
  match learned.1 with
  | .v4 ip port =>
    if s.ip = swapBytes ip && s.port = port && (tagString s.tags ST_SERVERNAME).isNone then
      { s with tags := s.tags ++ [nameTag learned.2] }
    else s
  | .v6 _ _ => s

def persistServerNames (met : ServerMet) (learned : List (SocketAddr × String)) : ServerMet :=
  { met with servers := learned.foldl (fun servers l => servers.map (giveName l)) met.servers }

structure World where
  env : Env
  health : Health
  /-- History: in how many rounds in a row a server was pinged and silent. -/
  streak : SocketAddr → Nat

namespace World

def new (env : Env) : World := ⟨env, fun _ => none, fun _ => 0⟩

/-- Whether the round gets to its pings. -/
def runs (w : World) (r : Round) : Bool :=
  !(w.env.offline || w.env.rows.isEmpty) && r.binds

def collected (w : World) (r : Round) : Collecting :=
  (Collecting.start w.env).collect w.env r r.datagrams

/-- The server was sent a status ping in this round, -/
def pinged (w : World) (r : Round) (a : SocketAddr) : Bool :=
  w.runs r && w.env.rows.any (·.addr = a) && !w.env.forbids a && (statusAddr a).isSome && r.sends a

/-- and answered it. -/
def answers (w : World) (r : Round) (a : SocketAddr) : Bool :=
  (w.collected r).rows.any fun e => e.addr = a && e.alive

/-- The next world, and the rows for the screen. -/
def probeServerList (w : World) (r : Round) : World × List ServerEntry :=
  let streak a := if w.pinged r a && !w.answers r a then w.streak a + 1 else 0
  if !w.runs r then ({ w with streak }, w.env.rows)
  else
    let collected := w.collected r
    let folded := foldRows w.health collected.rows
    let health a := if folded.2.any (·.addr = a) then folded.1 a else none
    let met := w.env.met.map fun met => persistServerNames met collected.learned
    (⟨{ w.env with met }, health, streak⟩, folded.2)

/-- The next world, and how many were removed. -/
def pruneDeadServers (w : World) (r : Round) : World × Nat :=
  let (w, rows) := w.probeServerList r
  let keep := (rows.filter fun e => e.alive || e.pinned || e.connected).map ServerEntry.addr
  match w.env.met with
  | none => (w, 0)
  | some met =>
    let servers := met.servers.filter fun s => addrOf s ∈ keep
    ({ w with env.met := some { met with servers } }, met.servers.length - servers.length)

end World

inductive Op where
  | probe (r : Round)
  | prune (r : Round)
  /-- The user, the crawl, the connection and the blocklist go on. -/
  | becomes (env : Env)

def step (w : World) : Op → Option World
  | .probe r => some (w.probeServerList r).1
  | .prune r => some (w.pruneDeadServers r).1
  | .becomes env => some { w with env }

/-! ## What is asked of a prune -/

/-- Named by its own answer, or as it was. -/
def NamedAs (s s' : Server) : Prop :=
  s' = s ∨ tagString s.tags ST_SERVERNAME = none ∧
    ∃ name, s' = { s with tags := s.tags ++ [nameTag name] }

structure RemovesDead (w : World) (r : Round) : Prop where
  dead : ∀ s ∈ w.env.servers,
    addrOf s ∉ (w.pruneDeadServers r).1.env.servers.map addrOf →
      w.env.protects (addrOf s) = false ∧ (w.env.forbids (addrOf s) = true ∨
        PROBE_MISSES_BEFORE_DEAD ≤ (w.pruneDeadServers r).1.streak (addrOf s))
  /-- A server that was not asked, or is still being checked, stays. -/
  awaited : ∀ e ∈ (w.probeServerList r).2, w.pinged r e.addr = false ∨ e.checking = true →
    w.env.forbids e.addr = false →
      e.addr ∈ (w.pruneDeadServers r).1.env.servers.map addrOf
  order : ∃ named : Server → Server, (∀ s ∈ w.env.servers, NamedAs s (named s)) ∧
    (w.pruneDeadServers r).1.env.servers = (w.env.servers.map named).filter fun s =>
      addrOf s ∈ (w.pruneDeadServers r).1.env.servers.map addrOf

def Prunes (w : World) : Op → Prop
  | .prune r => RemovesDead w r
  | .probe _ | .becomes _ => True

/-- It answered once, and has missed fewer rounds since than make a server dead. -/
def World.vouched (w : World) (a : SocketAddr) : Bool :=
  (w.health.memory a).answered &&
    (w.health.memory a).misses + 1 < PROBE_MISSES_BEFORE_DEAD

def Ok (w : World) : Op → Prop
  | .prune r => ∀ s ∈ w.env.servers, w.env.protects (addrOf s) = true ∨
      w.env.forbids (addrOf s) = true ∨ w.runs r = true ∧ (w.answers r (addrOf s) = true ∨
        w.vouched (addrOf s) = true ∨ w.pinged r (addrOf s) = true ∧
          PROBE_MISSES_BEFORE_DEAD ≤ w.streak (addrOf s) + 1)
  | .probe _ | .becomes _ => True

/-! ## What stays of a row -/

/-- What no answer changes. -/
def ServerEntry.key (e : ServerEntry) : SocketAddr × Bool × Bool := (e.addr, e.connected, e.pinned)

theorem map_modify_of_eq {α β : Type} {f : α → α} {g : α → β} (h : ∀ x, g (f x) = g x)
    (l : List α) (i : Nat) : (l.modify i f).map g = l.map g := by
  induction l generalizing i with
  | nil => rw [List.modify_nil]
  | cons x l ih =>
    cases i with
    | zero => rw [List.modify_zero_cons, List.map_cons, List.map_cons, h]
    | succ i => rw [List.modify_succ_cons, List.map_cons, List.map_cons, ih]

namespace Collecting

theorem keys_onName (c : Collecting) (i : Nat) (name : String) :
    (c.onName i name).rows.map ServerEntry.key = c.rows.map ServerEntry.key := by
  unfold onName
  split
  · rfl
  · split_ifs
    · rfl
    · refine map_modify_of_eq (fun _ => ?_) c.rows i
      rfl

theorem keys_onDatagram (env : Env) (r : Round) (c : Collecting) (g : Datagram) :
    (c.onDatagram env r g).rows.map ServerEntry.key = c.rows.map ServerEntry.key := by
  unfold onDatagram
  split
  · split_ifs
    · rfl
    · split
      · split_ifs
        · refine map_modify_of_eq (fun _ => ?_) c.rows _
          rfl
        · rfl
      · rfl
    · exact keys_onName c _ _
    · rfl
  · rfl

theorem keys_collect (env : Env) (r : Round) (c : Collecting) (gs : List Datagram) :
    (c.collect env r gs).rows.map ServerEntry.key = c.rows.map ServerEntry.key := by
  induction gs generalizing c with
  | nil => rfl
  | cons g gs ih =>
    rw [collect]
    split_ifs
    · rfl
    · rw [ih, keys_onDatagram]

end Collecting

theorem keys_foldRows (health : Health) (rows : List ServerEntry) :
    (foldRows health rows).2.map ServerEntry.key = rows.map ServerEntry.key := by
  induction rows generalizing health with
  | nil => rfl
  | cons e es ih =>
    rw [foldRows, List.map_cons, List.map_cons, ih]
    rfl

/-! ## What the memory makes of a round -/

def ProbeHealth.vouches (h : ProbeHealth) : Bool :=
  h.answered && h.misses + 1 < PROBE_MISSES_BEFORE_DEAD

theorem round_answered {e : ServerEntry} (h : e.alive = true) (health : Health) :
    e.round health = (⟨e.users.getD 0, e.files.getD 0, 0, true⟩,
      ⟨true, false, e.users.getD 0, e.files.getD 0⟩) := by
  rw [ServerEntry.round, h]
  rfl

/-- One more silent round. -/
theorem round_silent {e : ServerEntry} (h : e.alive = false) (health : Health) :
    (e.round health).1 = { health.memory e.addr with
        misses := min ((health.memory e.addr).misses + 1) 255 } ∧
      (e.round health).2.alive = (health.memory e.addr).vouches ∧
        ((e.round health).2.checking = true →
          (health.memory e.addr).misses + 1 < PROBE_MISSES_BEFORE_DEAD) := by
  rw [ServerEntry.round, h]
  generalize health.memory e.addr = m
  have hcap : PROBE_MISSES_BEFORE_DEAD ≤ min (m.misses + 1) 255 ↔
      PROBE_MISSES_BEFORE_DEAD ≤ m.misses + 1 := by
    unfold PROBE_MISSES_BEFORE_DEAD
    omega
  rw [foldProbeRound, if_neg Bool.false_ne_true]
  dsimp only
  split_ifs with hdead
  · have hmany := hcap.mp hdead
    refine ⟨rfl, ?_, False.elim⟩
    rw [ProbeHealth.vouches, decide_eq_false (by omega), Bool.and_false]
  · have hfew : m.misses + 1 < PROBE_MISSES_BEFORE_DEAD := by
      rw [hcap] at hdead
      omega
    refine ⟨rfl, ?_, fun _ => hfew⟩
    rw [ProbeHealth.vouches, decide_eq_true hfew, Bool.and_true]

theorem memory_after (health : Health) (e : ServerEntry) (a : SocketAddr) :
    (health.after e).memory a = if a = e.addr then (e.round health).1 else health.memory a := by
  unfold Health.memory Health.after
  rw [Function.update_apply]
  split_ifs <;> rfl

/-- A silent round leaves one miss more, up to 255. -/
theorem misses_after {e : ServerEntry} (h : e.alive = false) (health : Health) :
    ((health.after e).memory e.addr).misses = min ((health.memory e.addr).misses + 1) 255 := by
  rw [memory_after, if_pos rfl, (round_silent h health).1]

/-- A memory vouches for no more once it has counted a miss. -/
theorem vouches_of_after {e : ServerEntry} (h : e.alive = false) {health : Health}
    (hlater : ((health.after e).memory e.addr).vouches = true) :
    (health.memory e.addr).vouches = true := by
  rw [memory_after, if_pos rfl, (round_silent h health).1] at hlater
  obtain ⟨hanswered, hfew⟩ := Bool.and_eq_true_iff.mp hlater
  refine Bool.and_eq_true_iff.mpr ⟨hanswered, decide_eq_true ?_⟩
  have hcount := of_decide_eq_true hfew
  unfold PROBE_MISSES_BEFORE_DEAD at hcount ⊢
  dsimp only at hcount
  omega

/-- A row is alive if one of its address has answered, or the memory vouches for it. -/
theorem alive_foldRows (health : Health) (rows : List ServerEntry) (a : SocketAddr) :
    (∃ e ∈ (foldRows health rows).2, e.addr = a ∧ e.alive = true) ↔
      (∃ e ∈ rows, e.addr = a ∧ e.alive = true) ∨
        (∃ e ∈ rows, e.addr = a) ∧ (health.memory a).vouches = true := by
  induction rows generalizing health with
  | nil => simp [foldRows]
  | cons e es ih =>
    rw [foldRows]
    dsimp only
    simp only [List.mem_cons, exists_eq_or_imp]
    rw [ih]
    by_cases ha : e.addr = a
    · subst ha
      cases halive : e.alive with
      | true => simp [round_answered halive, ServerEntry.told]
      | false =>
        simp only [ServerEntry.told, (round_silent halive health).2.1, true_and,
          Bool.false_eq_true, false_or, true_or]
        constructor
        · rintro (hvouches | hes | ⟨-, hvouches⟩)
          · exact .inr hvouches
          · exact .inl hes
          · exact .inr (vouches_of_after halive hvouches)
        · rintro (hes | hvouches)
          · exact .inr (.inl hes)
          · exact .inl hvouches
    · rw [memory_after, if_neg (Ne.symm ha)]
      simp only [ServerEntry.told, ha, false_and, false_or]

/-- A row that is being checked has missed little, unless its address has answered. -/
theorem checking_foldRows {health : Health} {rows : List ServerEntry} {e : ServerEntry}
    (he : e ∈ (foldRows health rows).2) (hchecking : e.checking = true) :
    (health.memory e.addr).misses + 1 < PROBE_MISSES_BEFORE_DEAD ∨
      ∃ e' ∈ rows, e'.addr = e.addr ∧ e'.alive = true := by
  induction rows generalizing health with
  | nil => cases he
  | cons d es ih =>
    rw [foldRows] at he
    rcases List.mem_cons.mp he with rfl | he
    · cases halive : d.alive with
      | true =>
        rw [ServerEntry.told, round_answered halive] at hchecking
        exact absurd hchecking Bool.false_ne_true
      | false => exact .inl ((round_silent halive health).2.2 hchecking)
    · rcases ih he with hfew | ⟨e', he', haddr, halive⟩
      · by_cases ha : e.addr = d.addr
        · cases halive : d.alive with
          | true => exact .inr ⟨d, List.mem_cons_self, ha.symm, halive⟩
          | false =>
            rw [ha, misses_after halive] at hfew
            rw [ha]
            refine .inl ?_
            unfold PROBE_MISSES_BEFORE_DEAD at hfew ⊢
            omega
        · rw [memory_after, if_neg ha] at hfew
          exact .inl hfew
      · exact .inr ⟨e', List.mem_cons_of_mem d he', haddr, halive⟩

/-- What is silent is not forgotten. -/
theorem misses_le_foldRows (health : Health) {rows : List ServerEntry} {a : SocketAddr}
    (hsilent : ∀ e ∈ rows, e.addr = a → e.alive = false) :
    min (health.memory a).misses 255 ≤ ((foldRows health rows).1.memory a).misses := by
  induction rows generalizing health with
  | nil => exact Nat.min_le_left _ _
  | cons e es ih =>
    obtain ⟨he, hes⟩ := List.forall_mem_cons.mp hsilent
    refine le_trans ?_ (ih (health.after e) hes)
    by_cases ha : e.addr = a
    · subst ha
      rw [misses_after (he rfl)]
      omega
    · rw [memory_after, if_neg (Ne.symm ha)]

/-- A silent round is counted. -/
theorem misses_foldRows (health : Health) {rows : List ServerEntry} {a : SocketAddr}
    (hlisted : ∃ e ∈ rows, e.addr = a) (hsilent : ∀ e ∈ rows, e.addr = a → e.alive = false) :
    min ((health.memory a).misses + 1) 255 ≤ ((foldRows health rows).1.memory a).misses := by
  induction rows generalizing health with
  | nil => simp at hlisted
  | cons e es ih =>
    obtain ⟨he, hes⟩ := List.forall_mem_cons.mp hsilent
    by_cases ha : e.addr = a
    · subst ha
      refine le_trans ?_ (misses_le_foldRows (health.after e) hes)
      rw [misses_after (he rfl)]
      omega
    · have hlisted' : ∃ e ∈ es, e.addr = a := by simpa [ha] using hlisted
      refine le_trans ?_ (ih (health.after e) hlisted' hes)
      rw [memory_after, if_neg (Ne.symm ha)]

/-! ## Names -/

theorem namedAs_giveName (learned : SocketAddr × String) (s : Server) :
    NamedAs s (giveName learned s) := by
  unfold giveName
  split
  · split_ifs with hnew
    · simp only [Bool.and_eq_true] at hnew
      exact .inr ⟨Option.isNone_iff_eq_none.mp hnew.2, learned.2, rfl⟩
    · exact .inl rfl
  · exact .inl rfl

/-- Whoever has a name keeps it. -/
theorem giveName_of_named {s : Server} (h : tagString s.tags ST_SERVERNAME ≠ none)
    (learned : SocketAddr × String) : giveName learned s = s := by
  rcases namedAs_giveName learned s with hsame | ⟨hnone, -⟩
  · exact hsame
  · exact absurd hnone h

theorem tagString_nameTag (tags : List Tag) (name : String) :
    tagString (tags ++ [nameTag name]) ST_SERVERNAME ≠ none := by
  unfold tagString tagStr
  rw [List.findSome?_append]
  cases tags.findSome? _ <;> simp [nameTag, Tag.ofId]

theorem foldl_giveName_of_named {s : Server} (h : tagString s.tags ST_SERVERNAME ≠ none)
    (learned : List (SocketAddr × String)) : learned.foldl (fun s l => giveName l s) s = s := by
  induction learned with
  | nil => rfl
  | cons l learned ih => rw [List.foldl_cons, giveName_of_named h, ih]

/-- The first name is the last one. -/
theorem namedAs_foldl (learned : List (SocketAddr × String)) (s : Server) :
    NamedAs s (learned.foldl (fun s l => giveName l s) s) := by
  induction learned with
  | nil => exact .inl rfl
  | cons l learned ih =>
    rw [List.foldl_cons]
    rcases namedAs_giveName l s with hsame | ⟨hnone, name, hnamed⟩
    · rw [hsame]
      exact ih
    · rw [hnamed, foldl_giveName_of_named (tagString_nameTag s.tags name)]
      exact .inr ⟨hnone, name, rfl⟩

theorem addrOf_namedAs {s s' : Server} (h : NamedAs s s') : addrOf s' = addrOf s := by
  rcases h with rfl | ⟨-, name, rfl⟩ <;> rfl

theorem servers_persistServerNames (met : ServerMet) (learned : List (SocketAddr × String)) :
    (persistServerNames met learned).servers =
      met.servers.map fun s => learned.foldl (fun s l => giveName l s) s := by
  unfold persistServerNames
  dsimp only
  induction learned generalizing met with
  | nil => simp
  | cons l learned ih =>
    rw [List.foldl_cons]
    have hrest := ih { met with servers := met.servers.map (giveName l) }
    dsimp only at hrest
    rw [hrest, List.map_map]
    rfl

/-! ## What a round leaves -/

namespace World

variable {w w' : World} {r : Round} {a : SocketAddr}

theorem rows_probe (w : World) (r : Round) : (w.probeServerList r).2 =
    if w.runs r then (foldRows w.health (w.collected r).rows).2 else w.env.rows := by
  unfold probeServerList
  cases w.runs r <;> rfl

theorem answers_iff :
    w.answers r a = true ↔ ∃ e ∈ (w.collected r).rows, e.addr = a ∧ e.alive = true := by
  simp [answers]

theorem of_pinged (h : w.pinged r a = true) :
    w.runs r = true ∧ ∃ e ∈ w.env.rows, e.addr = a := by
  simp only [pinged, Bool.and_eq_true, List.any_eq_true, decide_eq_true_eq] at h
  exact h.1.1.1

theorem keys_probe (w : World) (r : Round) :
    (w.probeServerList r).2.map ServerEntry.key = w.env.rows.map ServerEntry.key := by
  rw [rows_probe]
  split_ifs
  · exact (keys_foldRows _ _).trans (Collecting.keys_collect _ _ _ _)
  · rfl

theorem addr_of_keys {l l' : List ServerEntry}
    (h : l.map ServerEntry.key = l'.map ServerEntry.key) :
    (∃ e ∈ l, e.addr = a) ↔ ∃ e ∈ l', e.addr = a := by
  have haddrs : l.map ServerEntry.addr = l'.map ServerEntry.addr := by
    simpa [ServerEntry.key, Function.comp_def] using congrArg (List.map Prod.fst) h
  rw [← List.mem_map, ← List.mem_map, haddrs]

theorem listed_iff (env : Env) : (∃ e ∈ env.rows, e.addr = a) ↔ a ∈ env.servers.map addrOf := by
  simp [Env.rows, Env.entry]

/-- A server is shown alive if the round ran, and it answered or the memory vouches for it. -/
theorem alive_probe (ha : a ∈ w.env.servers.map addrOf) :
    (∃ e ∈ (w.probeServerList r).2, e.addr = a ∧ e.alive = true) ↔
      w.runs r = true ∧ (w.answers r a = true ∨ w.vouched a = true) := by
  rw [rows_probe]
  split_ifs with hruns
  · have hlisted : ∃ e ∈ (w.collected r).rows, e.addr = a :=
      (addr_of_keys (Collecting.keys_collect _ _ _ _)).mpr ((listed_iff w.env).mpr ha)
    rw [alive_foldRows, and_iff_right hruns, and_iff_right hlisted, answers_iff]
    exact Iff.rfl
  · have hnone : ¬ ∃ e ∈ w.env.rows, e.addr = a ∧ e.alive = true := by
      simp [Env.rows, Env.entry]
    exact iff_of_false hnone fun h => hruns h.1

theorem streak_probe (w : World) (r : Round) (a : SocketAddr) :
    (w.probeServerList r).1.streak a =
      if w.pinged r a && !w.answers r a then w.streak a + 1 else 0 := by
  unfold probeServerList
  dsimp only
  cases w.runs r <;> rfl

theorem streak_prune (w : World) (r : Round) :
    (w.pruneDeadServers r).1.streak = (w.probeServerList r).1.streak := by
  unfold pruneDeadServers
  dsimp only
  split <;> rfl

/-- A round leaves the list as it is, but for names. -/
theorem servers_probe (w : World) (r : Round) : ∃ named : Server → Server,
    (∀ s, NamedAs s (named s)) ∧
      (w.probeServerList r).1.env.servers = w.env.servers.map named := by
  unfold probeServerList
  dsimp only
  split_ifs
  · exact ⟨id, fun s => .inl rfl, by rw [List.map_id]⟩
  · refine ⟨fun s => (w.collected r).learned.foldl (fun s l => giveName l s) s,
      namedAs_foldl _, ?_⟩
    unfold Env.servers
    cases w.env.met with
    | none => rfl
    | some met => exact servers_persistServerNames met _

/-- The rows that pruning keeps, by address. -/
def kept (w : World) (r : Round) : List SocketAddr :=
  ((w.probeServerList r).2.filter fun e => e.alive || e.pinned || e.connected).map ServerEntry.addr

theorem servers_prune (w : World) (r : Round) : (w.pruneDeadServers r).1.env.servers =
    (w.probeServerList r).1.env.servers.filter fun s => addrOf s ∈ w.kept r := by
  unfold pruneDeadServers Env.servers
  dsimp only
  cases hmet : (w.probeServerList r).1.env.met with
  | none => simp [hmet]
  | some met => rfl

theorem flags_probe {e : ServerEntry} (he : e ∈ (w.probeServerList r).2) :
    e.connected = decide (w.env.connected = some e.addr) ∧
      e.pinned = decide (e.addr ∈ w.env.pinned) := by
  have hmem : e.key ∈ w.env.rows.map ServerEntry.key :=
    keys_probe w r ▸ List.mem_map_of_mem he
  obtain ⟨d, hd, hkey⟩ := List.mem_map.mp hmem
  obtain ⟨s, -, rfl⟩ := List.mem_map.mp hd
  simp only [ServerEntry.key, Env.entry, Prod.mk.injEq] at hkey
  rw [← hkey.1, ← hkey.2.1, ← hkey.2.2]
  exact ⟨rfl, rfl⟩

theorem mem_kept (ha : a ∈ w.env.servers.map addrOf) : a ∈ w.kept r ↔
    w.env.protects a = true ∨ w.runs r = true ∧ (w.answers r a = true ∨ w.vouched a = true) := by
  rw [← alive_probe ha, kept, List.mem_map]
  constructor
  · rintro ⟨e, he, rfl⟩
    obtain ⟨he, hkeep⟩ := List.mem_filter.mp he
    obtain ⟨hconnected, hpinned⟩ := flags_probe he
    cases halive : e.alive with
    | true => exact .inr ⟨e, he, rfl, halive⟩
    | false =>
      rw [halive, hconnected, hpinned, Bool.false_or] at hkeep
      exact .inl hkeep
  · rintro (hprotects | ⟨e, he, haddr, halive⟩)
    · obtain ⟨e, he, rfl⟩ := (addr_of_keys (keys_probe w r)).mpr ((listed_iff w.env).mpr ha)
      obtain ⟨hconnected, hpinned⟩ := flags_probe he
      refine ⟨e, List.mem_filter.mpr ⟨he, ?_⟩, rfl⟩
      rw [hconnected, hpinned, Bool.or_assoc]
      exact Bool.or_eq_true_iff.mpr (.inr hprotects)
    · exact ⟨e, List.mem_filter.mpr ⟨he, by rw [halive]; rfl⟩, haddr⟩

/-- What is left of the list, by address. -/
theorem mem_prune (ha : a ∈ w.env.servers.map addrOf) :
    a ∈ (w.pruneDeadServers r).1.env.servers.map addrOf ↔ w.env.protects a = true ∨
      w.runs r = true ∧ (w.answers r a = true ∨ w.vouched a = true) := by
  rw [← mem_kept ha, servers_prune, List.mem_map]
  obtain ⟨named, hnamed, hservers⟩ := servers_probe w r
  rw [hservers]
  constructor
  · rintro ⟨s, hs, rfl⟩
    exact of_decide_eq_true (List.mem_filter.mp hs).2
  · intro hkept
    obtain ⟨s, hs, rfl⟩ := List.mem_map.mp ha
    refine ⟨named s, List.mem_filter.mpr ⟨List.mem_map_of_mem hs, ?_⟩, addrOf_namedAs (hnamed s)⟩
    rw [addrOf_namedAs (hnamed s)]
    exact decide_eq_true hkept

/-- What is kept stays in order, with its tags. -/
theorem order_prune (w : World) (r : Round) :
    ∃ named : Server → Server, (∀ s ∈ w.env.servers, NamedAs s (named s)) ∧
      (w.pruneDeadServers r).1.env.servers = (w.env.servers.map named).filter fun s =>
        addrOf s ∈ (w.pruneDeadServers r).1.env.servers.map addrOf := by
  obtain ⟨named, hnamed, hservers⟩ := servers_probe w r
  refine ⟨named, fun s _ => hnamed s, ?_⟩
  rw [servers_prune, hservers]
  refine List.filter_congr fun s hs => decide_eq_decide.mpr ?_
  constructor
  · exact fun hkept => List.mem_map_of_mem (List.mem_filter.mpr ⟨hs, decide_eq_true hkept⟩)
  · intro hmem
    obtain ⟨s', hs', haddr⟩ := List.mem_map.mp hmem
    exact haddr ▸ of_decide_eq_true (List.mem_filter.mp hs').2

/-! ## The memory and the silence -/

/-- The memory counts at least the rounds in a row that were silent. -/
def Inv (w : World) : Prop := ∀ a, min (w.streak a) 255 ≤ (w.health.memory a).misses

theorem inv_new (env : Env) : (new env).Inv := fun _ => Nat.zero_le _

theorem Inv.probe (h : w.Inv) (r : Round) : (w.probeServerList r).1.Inv := by
  intro a
  rw [streak_probe]
  split_ifs with hsilent
  · obtain ⟨hpinged, hnot⟩ := Bool.and_eq_true_iff.mp hsilent
    obtain ⟨hruns, hlisted⟩ := of_pinged hpinged
    have hrows : ∃ e ∈ (w.collected r).rows, e.addr = a :=
      (addr_of_keys (Collecting.keys_collect _ _ _ _)).mpr hlisted
    have hquiet : ∀ e ∈ (w.collected r).rows, e.addr = a → e.alive = false := by
      intro e he haddr
      by_contra halive
      have hanswers : w.answers r a = true := answers_iff.mpr ⟨e, he, haddr, by simpa using halive⟩
      simp [hanswers] at hnot
    have hmissed := misses_foldRows w.health hrows hquiet
    have hstays : (foldRows w.health (w.collected r).rows).2.any (·.addr = a) = true := by
      simp only [List.any_eq_true, decide_eq_true_eq]
      exact (addr_of_keys (keys_foldRows _ _)).mpr hrows
    have hmemory : (w.probeServerList r).1.health.memory a =
        (foldRows w.health (w.collected r).rows).1.memory a := by
      unfold probeServerList
      dsimp only
      rw [if_neg (by simp [hruns])]
      unfold Health.memory
      dsimp only
      rw [if_pos hstays]
    rw [hmemory]
    have hinv := h a
    omega
  · exact Nat.zero_le _

theorem Inv.prune (h : w.Inv) (r : Round) : (w.pruneDeadServers r).1.Inv := by
  have hsame : (w.pruneDeadServers r).1.health = (w.probeServerList r).1.health := by
    unfold pruneDeadServers
    dsimp only
    split <;> rfl
  intro a
  rw [streak_prune, hsame]
  exact h.probe r a

theorem Inv.step {op : Op} (h : w.Inv) (hstep : step w op = some w') : w'.Inv := by
  cases op with
  | probe r =>
    obtain rfl := Option.some.inj hstep
    exact h.probe r
  | prune r =>
    obtain rfl := Option.some.inj hstep
    exact h.prune r
  | becomes env =>
    obtain rfl := Option.some.inj hstep
    exact h

/-- A server that is being checked was not silent for long. -/
theorem few_of_checking (h : w.Inv) {e : ServerEntry} (he : e ∈ (w.probeServerList r).2)
    (hchecking : e.checking = true) :
    w.streak e.addr + 1 < PROBE_MISSES_BEFORE_DEAD ∨ w.answers r e.addr = true := by
  rw [rows_probe] at he
  split_ifs at he
  · rcases checking_foldRows he hchecking with hfew | hanswered
    · have hinv := h e.addr
      unfold PROBE_MISSES_BEFORE_DEAD at hfew ⊢
      omega
    · exact .inr (answers_iff.mpr hanswered)
  · obtain ⟨s, -, rfl⟩ := List.mem_map.mp he
    exact absurd hchecking Bool.false_ne_true

/-- A prune removes the dead alone exactly under its condition. -/
theorem removesDead_iff (h : w.Inv) (r : Round) : RemovesDead w r ↔ Ok w (.prune r) := by
  have hcount (a : SocketAddr) : PROBE_MISSES_BEFORE_DEAD ≤ (w.pruneDeadServers r).1.streak a ↔
      w.pinged r a = true ∧ w.answers r a = false ∧
        PROBE_MISSES_BEFORE_DEAD ≤ w.streak a + 1 := by
    rw [streak_prune, streak_probe]
    cases w.pinged r a <;> cases w.answers r a <;> simp [PROBE_MISSES_BEFORE_DEAD]
  constructor
  · intro hdead s hs
    have ha := List.mem_map_of_mem (f := addrOf) hs
    by_cases hkept : addrOf s ∈ (w.pruneDeadServers r).1.env.servers.map addrOf
    · rcases (mem_prune ha).mp hkept with hprotects | ⟨hran, hanswers | hvouched⟩
      · exact .inl hprotects
      · exact .inr (.inr ⟨hran, .inl hanswers⟩)
      · exact .inr (.inr ⟨hran, .inr (.inl hvouched)⟩)
    · obtain ⟨-, hforbids | hsilent⟩ := hdead.dead s hs hkept
      · exact .inr (.inl hforbids)
      · obtain ⟨hpinged, -, hlong⟩ := (hcount _).mp hsilent
        exact .inr (.inr ⟨(of_pinged hpinged).1, .inr (.inr ⟨hpinged, hlong⟩)⟩)
  · intro hok
    have hdead (s : Server) (hs : s ∈ w.env.servers)
        (hgone : addrOf s ∉ (w.pruneDeadServers r).1.env.servers.map addrOf) :
        w.env.protects (addrOf s) = false ∧ (w.env.forbids (addrOf s) = true ∨
          PROBE_MISSES_BEFORE_DEAD ≤ (w.pruneDeadServers r).1.streak (addrOf s)) := by
      rw [mem_prune (List.mem_map_of_mem hs), not_or] at hgone
      obtain ⟨hprotects, hnot⟩ := hgone
      refine ⟨by simpa using hprotects, ?_⟩
      rcases hok s hs with hp | hforbids | ⟨hran, hanswers | hvouched | ⟨hpinged, hlong⟩⟩
      · exact absurd hp hprotects
      · exact .inl hforbids
      · exact absurd ⟨hran, .inl hanswers⟩ hnot
      · exact absurd ⟨hran, .inr hvouched⟩ hnot
      · have hquiet : w.answers r (addrOf s) = false := by
          by_contra hanswers
          exact hnot ⟨hran, .inl (by simpa using hanswers)⟩
        exact .inr ((hcount _).mpr ⟨hpinged, hquiet, hlong⟩)
    refine ⟨hdead, fun e he hwaits hforbids => ?_, order_prune w r⟩
    obtain ⟨s, hs, haddr⟩ := List.mem_map.mp
      ((listed_iff w.env).mp ((addr_of_keys (keys_probe w r)).mp ⟨e, he, rfl⟩))
    by_contra hgone
    rw [← haddr] at hgone hforbids
    obtain ⟨-, hforbids' | hsilent⟩ := hdead s hs hgone
    · exact Bool.false_ne_true (hforbids.symm.trans hforbids')
    · obtain ⟨hpinged, hquiet, hlong⟩ := (hcount _).mp hsilent
      rw [haddr] at hpinged hquiet hlong
      rcases hwaits with hnot | hchecking
      · exact Bool.false_ne_true (hnot.symm.trans hpinged)
      · rcases few_of_checking h he hchecking with hfew | hanswers
        · omega
        · exact Bool.false_ne_true (hquiet.symm.trans hanswers)

end World

open ServerProbe.World

/-- Every prune of a run removes the dead alone exactly if each meets its condition. -/
theorem prune_removes_dead_iff (env : Env) (ops : List Op) :
    Runs.Throughout step Prunes (.new env) ops ↔ Runs.Throughout step Ok (.new env) ops := by
  have hany (s : World) (op : Op) (s' : World) (h : s.Inv) {ok : World → Op → Prop}
      (_ : ok s op) (hstep : step s op = some s') : s'.Inv := h.step hstep
  have hiff (w : World) (op : Op) (h : w.Inv) : Prunes w op ↔ Ok w op := by
    cases op with
    | probe r => exact Iff.rfl
    | prune r => exact removesDead_iff h r
    | becomes env => exact Iff.rfl
  constructor
  · exact fun hprunes => hprunes.imp (fun s op s' h => hany s op s' h)
      (fun w op h => (hiff w op h).mp) (inv_new env)
  · exact fun hok => hok.imp (fun s op s' h => hany s op s' h)
      (fun w op h => (hiff w op h).mpr) (inv_new env)

/-- One server, and nobody to protect it. -/
def oneServer (offline : Bool) : Env :=
  ⟨some ⟨SERVER_MET_HEADER, [⟨0x08080808, 4661, []⟩]⟩, [], none, offline, none⟩

/-- Nothing comes back. -/
def silence : Round := ⟨true, fun _ => (1, 2), fun _ => true, []⟩

/-- Offline nobody is pinged, and a first silence is no death. -/
theorem prune_drops_unasked :
    ¬ Runs.Throughout step Prunes (.new (oneServer true)) [.prune silence] ∧
      ¬ Runs.Throughout step Prunes (.new (oneServer false)) [.prune silence] := by
  have hgone (offline : Bool) : ((World.new (oneServer offline)).pruneDeadServers
      silence).1.env.servers = [] := by cases offline <;> rfl
  have hstreak (offline : Bool) : ((World.new (oneServer offline)).pruneDeadServers
      silence).1.streak (.v4 0x08080808 4661) < PROBE_MISSES_BEFORE_DEAD := by
    cases offline <;> decide
  have hdrops (offline : Bool) :
      ¬ Runs.Throughout step Prunes (.new (oneServer offline)) [.prune silence] := by
    rintro ⟨hprune, -⟩
    obtain ⟨-, hforbids | hsilent⟩ := hprune.dead ⟨0x08080808, 4661, []⟩ (by simp [oneServer,
      World.new, Env.servers]) (by simp [hgone])
    · cases offline <;> exact absurd hforbids (by decide)
    · exact absurd (hstreak offline) (not_lt.mpr hsilent)
  exact ⟨hdrops true, hdrops false⟩

end PadMule.Engine.ServerProbe
