import PadMule.Proto.Hash

/-
  `mule-engine/src/link.rs` and `connection.rs`: the link to one eD2k server.

  A login ends with the server's OP_IDCHANGE, with an error on the socket, or with the caller's
  timeout, which leaves the link as it stood when the future was dropped. What the link tells the
  UI on its event stream is left out.
-/

namespace PadMule.Engine

inductive SocketAddr where
  | v4 (ip : UInt32) (port : UInt16)
  | v6 (ip : BitVec 128) (port : UInt16)
deriving DecidableEq

def HIGHEST_LOWID : UInt32 := 16777216

def SRV_TCPFLG_RELATEDSEARCH : UInt32 := 0x40

def isLowId (id : UInt32) : Bool := id < HIGHEST_LOWID

/-- The server's login answer, with the fields that a login reads. -/
structure IdChange where
  newId : UInt32
  tcpFlags : Option UInt32
deriving DecidableEq

def IdChange.isRejected (ic : IdChange) : Bool := ic.newId = 0

inductive ServerState where
  | disconnected
  | connecting
  | connected (id : UInt32) (lowId relatedSearch : Bool)
  | pausedForBackground
  | rejected
deriving DecidableEq

structure LoginRequest where
  userHash : Hash16
  clientId : UInt32
  tcpPort : UInt16
  nick : List Char
  serverFlags : UInt32
deriving DecidableEq

/-- What `login_handshake` makes of the answer. -/
def IdChange.state (ic : IdChange) : ServerState :=
  if ic.isRejected then .rejected
  else .connected ic.newId (isLowId ic.newId)
    (ic.tcpFlags.any fun f => f &&& SRV_TCPFLG_RELATEDSEARCH ≠ 0)

/-- How an attempt to log in ends. -/
inductive LoginOutcome where
  | answered (ic : IdChange)
  | failed
  /-- The caller dropped the attempt at an await. -/
  | timedOut
deriving DecidableEq

/-- The server answered the login with an id. -/
def LoginOutcome.accepted : LoginOutcome → Bool
  | .answered ic => !ic.isRejected
  | .failed | .timedOut => false

structure ServerLink where
  addr : SocketAddr
  login : LoginRequest
  /-- Whether the link holds a socket. -/
  conn : Bool
  state : ServerState
deriving DecidableEq

namespace ServerLink

def new (addr : SocketAddr) (login : LoginRequest) : ServerLink :=
  ⟨addr, login, false, .disconnected⟩

def isConnected (link : ServerLink) : Bool :=
  match link.state with
  | .connected _ _ _ => true
  | _ => false

def relatedSearchSupported (link : ServerLink) : Bool :=
  match link.state with
  | .connected _ _ relatedSearch => relatedSearch
  | _ => false

/-- The link after the attempt, and the state that an attempt which was not dropped returns. -/
def establish (link : ServerLink) : LoginOutcome → ServerLink × Option ServerState
  | .answered ic => ({ link with conn := true, state := ic.state }, some ic.state)
  | .failed => ({ link with conn := false, state := .disconnected }, none)
  | .timedOut => ({ link with state := .connecting }, none)

def connect (link : ServerLink) (outcome : LoginOutcome) : ServerLink × Option ServerState :=
  link.establish outcome

def resume (link : ServerLink) (outcome : LoginOutcome) : ServerLink × Option ServerState :=
  link.establish outcome

def pause (link : ServerLink) : ServerLink :=
  { link with conn := false, state := .pausedForBackground }

def disconnect (link : ServerLink) : ServerLink :=
  { link with conn := false, state := .disconnected }

/-- `poll_incoming`; `closed` if one of its reads finds the connection at its end or broken. -/
def pollIncoming (link : ServerLink) (closed : Bool) : ServerLink × Bool :=
  if link.conn && closed then ({ link with conn := false, state := .disconnected }, true)
  else (link, false)

@[simp] theorem establish_addr (link : ServerLink) (outcome : LoginOutcome) :
    (link.establish outcome).1.addr = link.addr := by
  cases outcome <;> rfl

@[simp] theorem establish_login (link : ServerLink) (outcome : LoginOutcome) :
    (link.establish outcome).1.login = link.login := by
  cases outcome <;> rfl

/-- An accepted login leaves a socket and the state it returns. -/
theorem establish_accepted (link : ServerLink) {outcome : LoginOutcome}
    (h : outcome.accepted = true) : ∃ id lowId related,
      link.establish outcome = ({ link with conn := true, state := .connected id lowId related },
        some (.connected id lowId related)) := by
  cases outcome with
  | answered ic =>
    have hstate : ic.state = .connected ic.newId (isLowId ic.newId)
        (ic.tcpFlags.any fun f => f &&& SRV_TCPFLG_RELATEDSEARCH ≠ 0) :=
      if_neg (by simpa [LoginOutcome.accepted] using h)
    exact ⟨_, _, _, by rw [establish, hstate]⟩
  | failed => cases h
  | timedOut => cases h

/-- One that is not accepted tells nobody of a login. -/
theorem establish_refused (link : ServerLink) {outcome : LoginOutcome}
    (h : outcome.accepted = false) :
    (link.establish outcome).2 = none ∨ (link.establish outcome).2 = some .rejected := by
  cases outcome with
  | answered ic =>
    have hrejected : ic.isRejected = true := by simpa [LoginOutcome.accepted] using h
    exact .inr (congrArg some (if_pos hrejected))
  | failed => exact .inl rfl
  | timedOut => exact .inl rfl

end ServerLink

end PadMule.Engine
