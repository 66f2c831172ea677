import PadMule.Engine.ServerLink
import PadMule.Engine.SharingPause

/-
  `mule-engine/src/engine.rs`: what a server login justifies, and how it ends.

  A HighID login makes us a Kad source (`server_high_id`), exempts the server's address from the
  blocklist (`server_probe_ip`), and gives us a connection to show and a search to go on with.
  Only the server dropping us ends all four: `disconnect_server`, a failed dial, a failed resume
  and `shutdown` each leave some of them, and `pause` leaves all. So the four are right in every
  state of a run exactly if no step is an exit that leaves one standing
  (`login_dies_with_its_link`).
-/

namespace PadMule.Engine

inductive EngineState where
  | stopped
  | running
  | paused
  | seeding
deriving DecidableEq

namespace ServerLogin

structure ServerInfo where
  addr : SocketAddr
  lowId : Bool
  relatedSearch : Bool
deriving DecidableEq

/-- What the engine holds of its server. -/
structure Session where
  state : EngineState
  offline : Bool
  server : Option ServerLink
  connection : Option ServerInfo
  /-- The server that the search for "load more" was made at. -/
  searchSession : Option SocketAddr
  flags : SharingPause.Flags
  serverProbeIp : UInt32
deriving DecidableEq

/-- The address that `set_server_probe_ip` stores: 0 exempts nobody. -/
def probeIp : Option SocketAddr → UInt32
  | some (.v4 ip _) => ip
  | _ => 0

namespace Session

/-- `Engine::new`. -/
def new (dir : SharingPause.ConfigDir) (offline : Bool) : Session :=
  ⟨.stopped, offline, none, none, none, .new dir, 0⟩

def isOnline (s : Session) : Bool := s.server.any ServerLink.isConnected

def notePublicId (s : Session) (id : UInt32) (lowId : Bool) : Session :=
  let effects := SharingPause.notePublicId s.flags.lastPublicId id lowId
  { s with flags := effects.foldl SharingPause.Effect.onFlags s.flags }

/-- `login` is what `login_request` builds. -/
def connectToServer (s : Session) (addr : SocketAddr) (login : LoginRequest)
    (outcome : LoginOutcome) : Session :=
  if s.offline then s
  else
    let dialing := { s with
      server := none
      connection := none
      searchSession := none
      serverProbeIp := probeIp (some addr) }
    match (ServerLink.new addr login).connect outcome with
    | (link, some (.connected id lowId relatedSearch)) =>
      { dialing.notePublicId id lowId with
        connection := some ⟨addr, lowId, relatedSearch⟩
        server := some link }
    | _ => dialing

def disconnectServer (s : Session) : Session :=
  { s with
    server := none
    connection := none
    searchSession := none
    serverProbeIp := probeIp none }

def pollServerDrop (s : Session) (closed : Bool) : Session :=
  match s.server with
  | none => s
  | some link =>
    match link.pollIncoming closed with
    | (link, false) => { s with server := some link }
    | (_, true) => { s with
        server := none
        connection := none
        searchSession := none
        flags := SharingPause.Effect.onFlags s.flags (.setServerHighId false)
        serverProbeIp := probeIp none }

def start (s : Session) : Session := if s.state = .running then s else { s with state := .running }

def pause (s : Session) : Session :=
  if s.state ≠ .running then s
  else { s with server := s.server.map ServerLink.pause, state := .paused }

def pauseForSeeding (s : Session) : Session :=
  if s.state ≠ .running then s else { s with state := .seeding }

/-- The server we were on did not come back. -/
def giveUp (s : Session) : Session :=
  { s with
    server := none
    connection := none
    searchSession := none
    serverProbeIp := probeIp none }

def resume (s : Session) (outcome : LoginOutcome) : Session :=
  match s.state with
  | .seeding => { s with state := .running }
  | .paused =>
    let s := { s with state := .running }
    if s.offline then s
    else
      match s.server with
      | none => s.giveUp
      | some link =>
        match link.resume outcome with
        | (link, some (.connected id lowId relatedSearch)) =>
          let connection := s.connection.map fun c => { c with lowId, relatedSearch }
          { s with server := some link, connection }.notePublicId id lowId
        | _ => s.giveUp
  | .stopped | .running => s

def shutdown (s : Session) : Session :=
  { s with server := none, connection := none, searchSession := none, state := .stopped }

/-- A `search` that was not refused. -/
def search (s : Session) : Session :=
  if s.offline then s else { s with searchSession := s.server.map ServerLink.addr }

def relatedSearch (s : Session) : Session :=
  if s.offline || !s.server.any ServerLink.relatedSearchSupported then s
  else { s with searchSession := none }

end Session

inductive SessionOp where
  | connectToServer (addr : SocketAddr) (login : LoginRequest) (outcome : LoginOutcome)
  | disconnectServer
  | pollServerDrop (closed : Bool)
  | start
  | pause
  | pauseForSeeding
  | resume (outcome : LoginOutcome)
  | shutdown
  | search
  | relatedSearch
deriving DecidableEq

def Session.step (s : Session) : SessionOp → Option Session
  | .connectToServer addr login outcome => some (s.connectToServer addr login outcome)
  | .disconnectServer => some s.disconnectServer
  | .pollServerDrop closed => some (s.pollServerDrop closed)
  | .start => some s.start
  | .pause => some s.pause
  | .pauseForSeeding => some s.pauseForSeeding
  | .resume outcome => some (s.resume outcome)
  | .shutdown => some s.shutdown
  | .search => some s.search
  | .relatedSearch => some s.relatedSearch

/-! ## What the login justifies -/

/-- The link is logged in, and the answer to that login was a HighID. -/
def Session.holdsHighId (s : Session) : Bool :=
  match s.server.map ServerLink.state with
  | some (.connected _ lowId _) => !lowId
  | _ => false

/-- The link is held through a pause. -/
def Session.suspended (s : Session) : Bool :=
  s.server.any fun link => link.state = .pausedForBackground

/-- What is told or granted for a server is what a login that lasts has justified. -/
@[mk_iff] structure Justified (s : Session) : Prop where
  highId : s.flags.serverHighId = s.holdsHighId
  probe : s.serverProbeIp = if s.isOnline then probeIp (s.server.map ServerLink.addr) else 0
  connection : s.isOnline = false → s.connection = none ∨ s.suspended = true
  search : s.isOnline = false → s.searchSession = none

/-- The step ends no login, or leaves nothing standing of the one it ends. -/
def Allowed (s : Session) : SessionOp → Prop
  | .connectToServer addr _ outcome =>
    s.offline = true ∨ outcome.accepted = true ∨
      s.holdsHighId = false ∧ probeIp (some addr) = 0
  | .disconnectServer => s.holdsHighId = false
  | .pause => s.state = .running → s.isOnline = true →
      s.holdsHighId = false ∧ probeIp (s.server.map ServerLink.addr) = 0 ∧ s.searchSession = none
  | .shutdown => s.isOnline = true →
      s.holdsHighId = false ∧ probeIp (s.server.map ServerLink.addr) = 0
  | .resume outcome => s.state = .paused → s.offline = false →
      outcome.accepted = true ∨ s.holdsHighId = false
  | .search => s.offline = true ∨ s.suspended = false
  | .pollServerDrop _ | .start | .pauseForSeeding | .relatedSearch => True

/-! ## Every held link -/

/-- A link that is held is logged in or suspended, and its server is the exempted one. -/
structure Held (s : Session) (link : ServerLink) : Prop where
  probe : s.serverProbeIp = probeIp (some link.addr)
  state : link.isConnected = true ∧ link.conn = true ∨
    link.state = .pausedForBackground ∧ link.conn = false

def Sound (s : Session) : Prop := ∀ link, s.server = some link → Held s link

theorem sound_of_none {s : Session} (h : s.server = none) : Sound s := by
  simp [Sound, h]

@[simp] theorem notePublicId_serverHighId (s : Session) (id : UInt32) (lowId : Bool) :
    (s.notePublicId id lowId).flags.serverHighId = !lowId := by
  cases lowId with
  | true => rfl
  | false =>
    simp only [Session.notePublicId, SharingPause.notePublicId]
    cases s.flags.lastPublicId with
    | none => rfl
    | some prev => by_cases hid : prev = id <;> simp [hid, SharingPause.Effect.onFlags]

/-- An accepted dial has a link that is logged in. -/
theorem connectToServer_accepted {s : Session} (addr : SocketAddr) (login : LoginRequest)
    {outcome : LoginOutcome} (honline : s.offline = false) (haccepted : outcome.accepted = true) :
    ∃ id lowId related, s.connectToServer addr login outcome = { s.notePublicId id lowId with
        server := some ⟨addr, login, true, .connected id lowId related⟩
        connection := some ⟨addr, lowId, related⟩
        searchSession := none
        serverProbeIp := probeIp (some addr) } := by
  obtain ⟨id, lowId, related, hlink⟩ :=
    ServerLink.establish_accepted (.new addr login) haccepted
  refine ⟨id, lowId, related, ?_⟩
  rw [Session.connectToServer, if_neg (by simp [honline])]
  simp only [ServerLink.connect, hlink]
  rfl

/-- Any other leaves no link, and its address exempted. -/
theorem connectToServer_refused {s : Session} {addr : SocketAddr} {login : LoginRequest}
    {outcome : LoginOutcome} (honline : s.offline = false) (hrefused : outcome.accepted = false) :
    s.connectToServer addr login outcome = { s with
      server := none
      connection := none
      searchSession := none
      serverProbeIp := probeIp (some addr) } := by
  rw [Session.connectToServer, if_neg (by simp [honline])]
  have hanswer := ServerLink.establish_refused (.new addr login) hrefused
  simp only [ServerLink.connect]
  generalize (ServerLink.new addr login).establish outcome = result at hanswer ⊢
  obtain ⟨link, answer⟩ := result
  obtain rfl | rfl : answer = none ∨ answer = some .rejected := hanswer
  · rfl
  · rfl

theorem pollServerDrop_closed {s : Session} {link : ServerLink} {closed : Bool}
    (hserver : s.server = some link) (hclosed : (link.conn && closed) = true) :
    s.pollServerDrop closed = { s with
      server := none
      connection := none
      searchSession := none
      flags := SharingPause.Effect.onFlags s.flags (.setServerHighId false)
      serverProbeIp := 0 } := by
  simp only [Session.pollServerDrop, hserver, ServerLink.pollIncoming, hclosed]
  rfl

theorem pollServerDrop_open {s : Session} {link : ServerLink} {closed : Bool}
    (hserver : s.server = some link) (hclosed : (link.conn && closed) = false) :
    s.pollServerDrop closed = s := by
  simp only [Session.pollServerDrop, hserver, ServerLink.pollIncoming, hclosed]
  show { s with server := some link } = s
  rw [← hserver]

/-- A link that is found closed goes; otherwise nothing changes. -/
theorem pollServerDrop_cases (s : Session) (closed : Bool) :
    s.pollServerDrop closed = s ∨ s.pollServerDrop closed = { s with
      server := none
      connection := none
      searchSession := none
      flags := SharingPause.Effect.onFlags s.flags (.setServerHighId false)
      serverProbeIp := 0 } := by
  cases hserver : s.server with
  | none => exact .inl (by simp only [Session.pollServerDrop, hserver])
  | some link =>
    cases hclosed : link.conn && closed with
    | true => exact .inr (pollServerDrop_closed hserver hclosed)
    | false => exact .inl (pollServerDrop_open hserver hclosed)

/-- A resume that tries no login leaves everything but the state. -/
theorem resume_idle {s : Session} (hidle : ¬(s.state = .paused ∧ s.offline = false))
    (outcome : LoginOutcome) : ∃ state, s.resume outcome = { s with state } := by
  rw [Session.resume]
  cases hstate : s.state with
  | paused =>
    have hoffline : s.offline = true := by simpa [hstate] using hidle
    exact ⟨.running, if_pos hoffline⟩
  | seeding => exact ⟨.running, rfl⟩
  | stopped => exact ⟨s.state, rfl⟩
  | running => exact ⟨s.state, rfl⟩

/-- Coming back from a pause without a login, or without a link to log in on, we give up. -/
theorem resume_refused {s : Session} {outcome : LoginOutcome} (hpaused : s.state = .paused)
    (honline : s.offline = false) (hrefused : s.server = none ∨ outcome.accepted = false) :
    s.resume outcome = { s with state := .running }.giveUp := by
  simp only [Session.resume, hpaused]
  rw [if_neg (by simp [honline])]
  cases hserver : s.server with
  | none => rfl
  | some link =>
    have hfailed : outcome.accepted = false := by simpa [hserver] using hrefused
    have hanswer := ServerLink.establish_refused link hfailed
    simp only [ServerLink.resume]
    generalize link.establish outcome = result at hanswer ⊢
    obtain ⟨link, answer⟩ := result
    obtain rfl | rfl : answer = none ∨ answer = some .rejected := hanswer
    · rfl
    · rfl

theorem resume_accepted {s : Session} {outcome : LoginOutcome} {link : ServerLink}
    (hpaused : s.state = .paused) (honline : s.offline = false) (hlink : s.server = some link)
    (haccepted : outcome.accepted = true) :
    ∃ id lowId related, s.resume outcome = { s.notePublicId id lowId with
        state := .running
        server := some { link with conn := true, state := .connected id lowId related }
        connection := s.connection.map fun c =>
          { c with lowId := lowId, relatedSearch := related } } := by
  obtain ⟨id, lowId, related, hestablish⟩ :=
    ServerLink.establish_accepted link haccepted
  refine ⟨id, lowId, related, ?_⟩
  simp only [Session.resume, hpaused]
  rw [if_neg (by simp [honline])]
  simp only [hlink, ServerLink.resume, hestablish]
  rfl

/-- What a resume comes to. -/
theorem resume_cases (s : Session) (outcome : LoginOutcome) :
    ¬(s.state = .paused ∧ s.offline = false) ∧ (∃ state, s.resume outcome = { s with state }) ∨
      (s.state = .paused ∧ s.offline = false) ∧
        ((s.server = none ∨ outcome.accepted = false) ∧
          s.resume outcome = { s with state := .running }.giveUp ∨
        ∃ link id lowId related, s.server = some link ∧ outcome.accepted = true ∧
          s.resume outcome = { s.notePublicId id lowId with
            state := .running
            server := some { link with conn := true, state := .connected id lowId related }
            connection := s.connection.map fun c =>
              { c with lowId := lowId, relatedSearch := related } }) := by
  by_cases hlogin : s.state = .paused ∧ s.offline = false
  · refine .inr ⟨hlogin, ?_⟩
    by_cases hrefused : s.server = none ∨ outcome.accepted = false
    · exact .inl ⟨hrefused, resume_refused hlogin.1 hlogin.2 hrefused⟩
    · obtain ⟨hserver, haccepted⟩ := not_or.mp hrefused
      rw [Bool.not_eq_false] at haccepted
      obtain ⟨link, hlink⟩ := Option.ne_none_iff_exists'.mp hserver
      obtain ⟨id, lowId, related, hresume⟩ :=
        resume_accepted hlogin.1 hlogin.2 hlink haccepted
      exact .inr ⟨link, id, lowId, related, hlink, haccepted, hresume⟩
  · exact .inl ⟨hlogin, resume_idle hlogin outcome⟩

/-! ## One step -/

theorem Sound.of_eq {s s' : Session} (h : Sound s) (hserver : s'.server = s.server)
    (hprobe : s'.serverProbeIp = s.serverProbeIp) : Sound s' := by
  intro link hlink
  obtain ⟨hip, hstate⟩ := h link (hserver ▸ hlink)
  exact ⟨hprobe.trans hip, hstate⟩

/-- A login leaves a sound session behind. -/
theorem sound_of_login {s : Session} (link : ServerLink) {id : UInt32} {lowId related : Bool}
    (hserver : s.server = some { link with conn := true, state := .connected id lowId related })
    (hprobe : s.serverProbeIp = probeIp (some link.addr)) : Sound s := by
  intro link' hlink'
  obtain rfl := Option.some.inj (hserver.symm.trans hlink')
  exact ⟨hprobe, .inl ⟨rfl, rfl⟩⟩

theorem Sound.step {s s' : Session} {op : SessionOp} (h : Sound s) (hstep : s.step op = some s') :
    Sound s' := by
  cases op with
  | connectToServer addr login outcome =>
    obtain rfl := Option.some.inj hstep
    cases hoffline : s.offline with
    | true =>
      rw [Session.connectToServer, if_pos hoffline]
      exact h
    | false =>
      cases haccepted : outcome.accepted with
      | true =>
        obtain ⟨id, lowId, related, hconnect⟩ :=
          connectToServer_accepted addr login hoffline haccepted
        rw [hconnect]
        exact sound_of_login ⟨addr, login, false, .disconnected⟩ rfl rfl
      | false => exact sound_of_none (by rw [connectToServer_refused hoffline haccepted])
  | disconnectServer =>
    obtain rfl := Option.some.inj hstep
    exact sound_of_none rfl
  | pollServerDrop closed =>
    obtain rfl := Option.some.inj hstep
    rcases pollServerDrop_cases s closed with hsame | hdropped
    · rw [hsame]
      exact h
    · rw [hdropped]
      exact sound_of_none rfl
  | start =>
    obtain rfl := Option.some.inj hstep
    refine h.of_eq ?_ ?_ <;> rw [Session.start] <;> split <;> rfl
  | pause =>
    obtain rfl := Option.some.inj hstep
    rw [Session.pause]
    split_ifs
    · exact h
    · intro link hlink
      obtain ⟨old, hold, rfl⟩ := Option.map_eq_some_iff.mp hlink
      exact ⟨(h old hold).probe, .inr ⟨rfl, rfl⟩⟩
  | pauseForSeeding =>
    obtain rfl := Option.some.inj hstep
    refine h.of_eq ?_ ?_ <;> rw [Session.pauseForSeeding] <;> split <;> rfl
  | resume outcome =>
    obtain rfl := Option.some.inj hstep
    rcases resume_cases s outcome with ⟨-, state, hresume⟩ | ⟨-, ⟨-, hresume⟩ |
      ⟨link, id, lowId, related, hlink, -, hresume⟩⟩
    · rw [hresume]
      exact h.of_eq rfl rfl
    · rw [hresume]
      exact sound_of_none rfl
    · rw [hresume]
      exact sound_of_login link rfl (h link hlink).probe
  | shutdown =>
    obtain rfl := Option.some.inj hstep
    exact sound_of_none rfl
  | search =>
    obtain rfl := Option.some.inj hstep
    refine h.of_eq ?_ ?_ <;> rw [Session.search] <;> split <;> rfl
  | relatedSearch =>
    obtain rfl := Option.some.inj hstep
    refine h.of_eq ?_ ?_ <;> rw [Session.relatedSearch] <;> split <;> rfl

/-! ## What a step leaves standing -/

theorem justified_none_iff {s : Session} (hserver : s.server = none) :
    Justified s ↔ s.flags.serverHighId = false ∧ s.serverProbeIp = 0 ∧ s.connection = none ∧
      s.searchSession = none := by
  simp [justified_iff, Session.holdsHighId, Session.isOnline, Session.suspended, hserver]

theorem justified_login {s : Session} (link : ServerLink) {id : UInt32} {lowId related : Bool}
    (hserver : s.server = some { link with conn := true, state := .connected id lowId related })
    (hhigh : s.flags.serverHighId = !lowId) (hprobe : s.serverProbeIp = probeIp (some link.addr)) :
    Justified s := by
  have honline : s.isOnline = true := by rw [Session.isOnline, hserver]; rfl
  refine ⟨?_, ?_, fun hoff => ?_, fun hoff => ?_⟩
  · rw [hhigh, Session.holdsHighId, hserver]
    rfl
  · rw [if_pos honline, hprobe, hserver]
    rfl
  · exact absurd hoff (by simp [honline])
  · exact absurd hoff (by simp [honline])

theorem holdsHighId_offline {s : Session} (h : s.isOnline = false) : s.holdsHighId = false := by
  rw [Session.holdsHighId]
  rw [Session.isOnline] at h
  cases hserver : s.server with
  | none => rfl
  | some link =>
    rw [hserver] at h
    cases hstate : link.state with
    | connected id lowId related => simp [ServerLink.isConnected, hstate] at h
    | disconnected | connecting | pausedForBackground | rejected => simp [hstate]

/-- Without a login neither the flag nor the exemption stands. -/
theorem Justified.offline {s : Session} (h : Justified s) (hoffline : s.isOnline = false) :
    s.holdsHighId = false ∧ s.flags.serverHighId = false ∧ s.serverProbeIp = 0 := by
  have hlow := holdsHighId_offline hoffline
  exact ⟨hlow, h.highId.trans hlow, by rw [h.probe, if_neg (by simp [hoffline])]⟩

theorem justified_connectToServer_iff {s : Session} (hgood : Justified s) (addr : SocketAddr)
    (login : LoginRequest) (outcome : LoginOutcome) :
    Justified (s.connectToServer addr login outcome) ↔
      Allowed s (.connectToServer addr login outcome) := by
  cases hoffline : s.offline with
  | true =>
    rw [Session.connectToServer, if_pos hoffline]
    exact iff_of_true hgood (.inl hoffline)
  | false =>
    cases haccepted : outcome.accepted with
    | true =>
      obtain ⟨id, lowId, related, hconnect⟩ :=
        connectToServer_accepted addr login hoffline haccepted
      rw [hconnect]
      refine iff_of_true ?_ (.inr (.inl haccepted))
      exact justified_login ⟨addr, login, false, .disconnected⟩ rfl (by simp) rfl
    | false =>
      rw [connectToServer_refused hoffline haccepted, justified_none_iff rfl, hgood.highId]
      simp [Allowed, hoffline, haccepted]

theorem justified_pollServerDrop {s : Session} (hgood : Justified s) (closed : Bool) :
    Justified (s.pollServerDrop closed) := by
  rcases pollServerDrop_cases s closed with hsame | hdropped
  · rw [hsame]
    exact hgood
  · rw [hdropped]
    exact (justified_none_iff rfl).mpr ⟨rfl, rfl, rfl, rfl⟩

theorem justified_pause_iff {s : Session} (hgood : Justified s) :
    Justified s.pause ↔ Allowed s .pause := by
  by_cases hrunning : s.state = .running
  · rw [Session.pause, if_neg (by simp [hrunning])]
    have hoffline : Session.isOnline { s with
        server := s.server.map ServerLink.pause, state := .paused } = false := by
      cases s.server <;> simp [Session.isOnline, ServerLink.pause, ServerLink.isConnected]
    have hkeeps : s.connection = none ∨ (s.server.map ServerLink.pause).any
        (fun link => link.state = .pausedForBackground) = true := by
      cases hserver : s.server with
      | none =>
        refine .inl ((hgood.connection ?_).resolve_right ?_) <;>
          simp [Session.isOnline, Session.suspended, hserver]
      | some link => exact .inr (by simp [ServerLink.pause])
    have hleft : Justified { s with server := s.server.map ServerLink.pause, state := .paused } ↔
        s.flags.serverHighId = false ∧ s.serverProbeIp = 0 ∧ s.searchSession = none := by
      rw [justified_iff, holdsHighId_offline hoffline, hoffline]
      simp [Session.suspended, hkeeps]
    rw [hleft]
    cases honline : s.isOnline with
    | true => simp [Allowed, hrunning, honline, hgood.highId, hgood.probe]
    | false =>
      obtain ⟨-, hhigh, hprobe⟩ := hgood.offline honline
      refine iff_of_true ⟨hhigh, hprobe, hgood.search honline⟩ fun _ hon => ?_
      exact absurd hon (by simp [honline])
  · rw [Session.pause, if_pos hrunning]
    exact iff_of_true hgood fun h => absurd h hrunning

theorem justified_shutdown_iff {s : Session} (hgood : Justified s) :
    Justified s.shutdown ↔ Allowed s .shutdown := by
  rw [justified_none_iff rfl]
  show s.flags.serverHighId = false ∧ s.serverProbeIp = 0 ∧ _ ↔ _
  cases honline : s.isOnline with
  | true => simp [Allowed, honline, hgood.highId, hgood.probe, Session.shutdown]
  | false =>
    obtain ⟨-, hhigh, hprobe⟩ := hgood.offline honline
    exact iff_of_true ⟨hhigh, hprobe, rfl, rfl⟩ fun hon => absurd hon (by simp [honline])

theorem justified_search_iff {s : Session} (hsound : Sound s) (hgood : Justified s) :
    Justified s.search ↔ Allowed s .search := by
  cases hoffline : s.offline with
  | true =>
    rw [Session.search, if_pos hoffline]
    exact iff_of_true hgood (.inl hoffline)
  | false =>
    rw [Session.search, if_neg (by simp [hoffline])]
    have hleft : Justified { s with searchSession := s.server.map ServerLink.addr } ↔
        (s.isOnline = false → s.server.map ServerLink.addr = none) :=
      ⟨fun h => h.search, fun h => ⟨hgood.highId, hgood.probe, hgood.connection, h⟩⟩
    rw [hleft]
    cases hserver : s.server with
    | none => simp [Allowed, Session.suspended, hserver]
    | some link =>
      rcases (hsound link hserver).state with ⟨hconnected, -⟩ | ⟨hpaused, -⟩
      · have hstate : link.state ≠ .pausedForBackground := fun h => by
          simp [ServerLink.isConnected, h] at hconnected
        simp [Allowed, Session.isOnline, Session.suspended, hserver, hconnected, hstate]
      · simp [Allowed, Session.isOnline, Session.suspended, hserver, hpaused, hoffline,
          ServerLink.isConnected]

theorem justified_resume_iff {s : Session} (hsound : Sound s) (hgood : Justified s)
    (outcome : LoginOutcome) :
    Justified (s.resume outcome) ↔ Allowed s (.resume outcome) := by
  rcases resume_cases s outcome with ⟨hidle, state, hresume⟩ | ⟨⟨hpaused, honline⟩,
    ⟨hrefused, hresume⟩ | ⟨link, id, lowId, related, hlink, haccepted, hresume⟩⟩
  · rw [hresume]
    have hsame : Justified { s with state } :=
      ⟨hgood.highId, hgood.probe, hgood.connection, hgood.search⟩
    exact iff_of_true hsame fun hpaused honline => absurd ⟨hpaused, honline⟩ hidle
  · have hlow : outcome.accepted = true → s.holdsHighId = false := fun haccepted => by
      have hserver : s.server = none := hrefused.resolve_right (by simp [haccepted])
      exact holdsHighId_offline (by rw [Session.isOnline, hserver]; rfl)
    have hallowed : Allowed s (.resume outcome) ↔ s.holdsHighId = false := by
      refine ⟨fun h => (h hpaused honline).elim hlow id, fun h _ _ => .inr h⟩
    rw [hresume, justified_none_iff rfl, hallowed, ← hgood.highId]
    simp [Session.giveUp, probeIp]
  · rw [hresume]
    refine iff_of_true ?_ fun _ _ => .inl haccepted
    exact justified_login link rfl (by simp) (hsound link hlink).probe

/-- From a session that is justified, a step leads to one exactly if it is allowed. -/
theorem justified_step_iff {s s' : Session} {op : SessionOp} (hsound : Sound s)
    (hgood : Justified s) (hstep : s.step op = some s') : Justified s' ↔ Allowed s op := by
  cases op with
  | connectToServer addr login outcome =>
    obtain rfl := Option.some.inj hstep
    exact justified_connectToServer_iff hgood addr login outcome
  | disconnectServer =>
    obtain rfl := Option.some.inj hstep
    rw [justified_none_iff rfl]
    simp [Allowed, Session.disconnectServer, hgood.highId, probeIp]
  | pollServerDrop closed =>
    obtain rfl := Option.some.inj hstep
    exact iff_of_true (justified_pollServerDrop hgood closed) trivial
  | start =>
    obtain rfl := Option.some.inj hstep
    refine iff_of_true ?_ trivial
    rw [Session.start]
    split_ifs
    · exact hgood
    · exact ⟨hgood.highId, hgood.probe, hgood.connection, hgood.search⟩
  | pause =>
    obtain rfl := Option.some.inj hstep
    exact justified_pause_iff hgood
  | pauseForSeeding =>
    obtain rfl := Option.some.inj hstep
    refine iff_of_true ?_ trivial
    rw [Session.pauseForSeeding]
    split_ifs
    · exact hgood
    · exact ⟨hgood.highId, hgood.probe, hgood.connection, hgood.search⟩
  | resume outcome =>
    obtain rfl := Option.some.inj hstep
    exact justified_resume_iff hsound hgood outcome
  | shutdown =>
    obtain rfl := Option.some.inj hstep
    exact justified_shutdown_iff hgood
  | search =>
    obtain rfl := Option.some.inj hstep
    exact justified_search_iff hsound hgood
  | relatedSearch =>
    obtain rfl := Option.some.inj hstep
    refine iff_of_true ?_ trivial
    rw [Session.relatedSearch]
    split_ifs
    · exact hgood
    · exact ⟨hgood.highId, hgood.probe, hgood.connection, fun _ => rfl⟩

/-- The four facts are right in every state of a run exactly if every step is allowed. -/
theorem login_dies_with_its_link (dir : SharingPause.ConfigDir) (offline : Bool)
    (ops : List SessionOp) :
    Runs.Always Session.step Justified (.new dir offline) ops ↔
      Runs.Throughout Session.step Allowed (.new dir offline) ops := by
  refine Runs.always_iff_throughout (fun _ _ _ => Sound.step) (fun s op hnone => ?_)
    (fun _ _ _ => justified_step_iff) (sound_of_none rfl) ⟨rfl, rfl, ?_, ?_⟩ ops
  · cases op <;> cases hnone
  · exact fun _ => .inl rfl
  · exact fun _ => rfl

/-- A server at 203.0.113.7, and what we tell it. -/
def someServer : SocketAddr := .v4 0xCB007107 4661

def someLogin : LoginRequest :=
  ⟨.fill 16 1, 0, 4662, ['p', 'a', 'd', 'M', 'u', 'l', 'e'], 0x011D⟩

def loginThenDisconnect : List SessionOp :=
  [.start, .connectToServer someServer someLogin (.answered ⟨0x01020304, none⟩), .disconnectServer]

def deadDial : List SessionOp := [.start, .connectToServer someServer someLogin .timedOut]

/-- A HighID outlives the disconnect, and an address stays exempted that never took our call. -/
theorem exits_leave_standing :
    ¬Runs.Always Session.step Justified (.new ⟨false, false⟩ false) loginThenDisconnect ∧
      ¬Runs.Always Session.step Justified (.new ⟨false, false⟩ false) deadDial := by
  refine ⟨fun h => ?_, fun h => ?_⟩
  · obtain ⟨s, hrun, hhigh⟩ : ∃ s, Runs.run Session.step (.new ⟨false, false⟩ false)
        loginThenDisconnect = some s ∧ s.flags.serverHighId ≠ s.holdsHighId :=
      ⟨_, rfl, by decide⟩
    exact hhigh (h.run hrun).highId
  · obtain ⟨s, hrun, hoffline, hprobe⟩ : ∃ s, Runs.run Session.step (.new ⟨false, false⟩ false)
        deadDial = some s ∧ s.isOnline = false ∧ s.serverProbeIp ≠ 0 :=
      ⟨_, rfl, by decide, by decide⟩
    exact hprobe ((h.run hrun).offline hoffline).2.2

end ServerLogin

end PadMule.Engine
