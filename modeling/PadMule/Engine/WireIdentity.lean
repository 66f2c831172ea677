import PadMule.Engine.ServerLogin
import PadMule.Engine.UniqueDest

/-
  `mule-engine/src/engine.rs` and `link.rs`: under which name we show up on the wire.

  The listener reads the `WireIdentity` cell for each connection it accepts, a fetch worker for
  each dial, and `connect_to_server` for each login. Two values are kept past the moment they are
  read: the HELLO of a dial that has not begun, and the login request in a server link, which
  `ServerLink::resume` sends again after any number of settings changes. So every connection shows
  the settings it is opened under exactly if none of the two goes out after the settings it was
  made from have changed (`shown_identity_current`).
-/

namespace PadMule.Engine

open Paths

def DEFAULT_NICK : List Char := "padMule".toList

def INCOGNITO_NICK : List Char := "https://amule-org.github.io".toList

def MAX_NICK_LEN : Nat := 50

def DEFAULT_SERVER_FLAGS : UInt32 := 0x011D

/-- `char::is_control`, the Unicode category Cc. -/
def isControl (c : Char) : Bool := c.toNat < 0x20 || (0x7F ≤ c.toNat && c.toNat ≤ 0x9F)

def sanitizeNick (input : List Char) : List Char :=
  let cleaned := input.filter fun c => !isControl c
  let nick := trimMatches isWhitespace ((trimMatches isWhitespace cleaned).take MAX_NICK_LEN)
  if nick = [] then DEFAULT_NICK else nick

structure WireIdentity where
  nick : List Char
  incognito : Bool
deriving DecidableEq

def WireIdentity.effectiveNick (wire : WireIdentity) : List Char :=
  if wire.incognito ∧ wire.nick = DEFAULT_NICK then INCOGNITO_NICK else wire.nick

/-- What a HELLO or HELLOANSWER says, less the capability flags. -/
structure HelloInfo where
  userHash : Hash16
  clientId : UInt32
  tcpPort : UInt16
  nick : List Char
  kadUdpPort : UInt16
  incognito : Bool
deriving DecidableEq

/-- The userhash, and the ports as they are advertised since the start. -/
structure Advertised where
  userHash : Hash16
  tcpPort : UInt16
  kadUdpPort : UInt16
deriving DecidableEq

variable (me : Advertised)

def WireIdentity.hello (wire : WireIdentity) : HelloInfo where
  userHash := me.userHash
  clientId := 0
  tcpPort := me.tcpPort
  nick := wire.effectiveNick
  kadUdpPort := me.kadUdpPort
  incognito := wire.incognito

def WireIdentity.loginRequest (wire : WireIdentity) : LoginRequest where
  userHash := me.userHash
  clientId := 0
  tcpPort := me.tcpPort
  nick := wire.effectiveNick
  serverFlags := DEFAULT_SERVER_FLAGS

/-! ## Connections and the settings they are opened under -/

inductive Declared where
  | hello (hello : HelloInfo)
  | helloAnswer (hello : HelloInfo)
  | login (login : LoginRequest)
deriving DecidableEq

/-- What a connection declares, and what the settings are when it is opened. -/
structure Opening where
  declared : Declared
  settings : WireIdentity
deriving DecidableEq

/-- The name is the effective one, and the marker tag goes or stays with the flag. -/
def Opening.Current (o : Opening) : Prop :=
  match o.declared with
  | .hello hello | .helloAnswer hello =>
    hello.nick = o.settings.effectiveNick ∧ hello.incognito = o.settings.incognito
  | .login login => login.nick = o.settings.effectiveNick

structure WireWorld where
  session : ServerLogin.Session
  wire : WireIdentity
  /-- The settings that the login request of the present link was made from. -/
  loginFrom : WireIdentity
  /-- The HELLOs of workers that have not dialled yet, and the settings they were made from. -/
  hellos : List (HelloInfo × WireIdentity)
  opened : List Opening

def WireWorld.new (dir : SharingPause.ConfigDir) (offline : Bool) : WireWorld :=
  ⟨.new dir offline, ⟨DEFAULT_NICK, true⟩, ⟨DEFAULT_NICK, true⟩, [], []⟩

inductive WireOp where
  | setNickname (nick : List Char)
  | setIncognito (on : Bool)
  | connectToServer (addr : SocketAddr) (outcome : LoginOutcome)
  /-- Any other call of the engine. -/
  | session (op : ServerLogin.SessionOp)
  /-- A fetch worker takes a source and builds the HELLO. -/
  | buildHello
  /-- The session of the worker opens its connection. -/
  | dial (worker : Nat)
  | accept
deriving DecidableEq

/-- The login that a resume opens. -/
def ServerLogin.Session.resumedLogin (s : Session) : Option LoginRequest :=
  if s.state = .paused ∧ s.offline = false then s.server.map ServerLink.login else none

namespace WireWorld

def opens (w : WireWorld) (declared : Declared) : List Opening := ⟨declared, w.wire⟩ :: w.opened

def step (w : WireWorld) : WireOp → Option WireWorld
  | .setNickname nick => some { w with wire := { w.wire with nick := sanitizeNick nick } }
  | .setIncognito on => some { w with wire := { w.wire with incognito := on } }
  | .connectToServer addr outcome =>
    let login := w.wire.loginRequest me
    let session := w.session.connectToServer addr login outcome
    if w.session.offline then some { w with session }
    else some { w with session, loginFrom := w.wire, opened := w.opens (.login login) }
  | .session (.connectToServer _ _ _) => none
  | .session (.resume outcome) =>
    let session := w.session.resume outcome
    match w.session.resumedLogin with
    | none => some { w with session }
    | some login => some { w with session, opened := w.opens (.login login) }
  | .session op => (w.session.step op).map fun session => { w with session }
  | .buildHello => some { w with hellos := w.hellos ++ [(w.wire.hello me, w.wire)] }
  | .dial worker =>
    match w.hellos[worker]? with
    | none => none
    | some (hello, _) =>
      some { w with hellos := w.hellos.eraseIdx worker, opened := w.opens (.hello hello) }
  | .accept => some { w with opened := w.opens (.helloAnswer (w.wire.hello me)) }

/-- Every connection showed the settings it was opened under. -/
def Current (w : WireWorld) : Prop := ∀ o ∈ w.opened, o.Current

/-- A dial or a resume goes out under the settings its HELLO or login was made from. -/
def Unchanged (w : WireWorld) : WireOp → Prop
  | .dial worker => ∀ hello settings, w.hellos[worker]? = some (hello, settings) →
      settings.effectiveNick = w.wire.effectiveNick ∧ settings.incognito = w.wire.incognito
  | .session (.resume _) => w.session.resumedLogin ≠ none →
      w.loginFrom.effectiveNick = w.wire.effectiveNick
  | _ => True

end WireWorld

/-! ## What is kept was made from known settings -/

/-- Only `connect_to_server` makes a link; every other call keeps the login of the one it finds. -/
theorem ServerLogin.Session.step_login {s s' : ServerLogin.Session} {op : ServerLogin.SessionOp}
    (hop : ∀ addr login outcome, op ≠ .connectToServer addr login outcome)
    (hstep : s.step op = some s') {link' : ServerLink} (hlink' : s'.server = some link') :
    ∃ link, s.server = some link ∧ link'.login = link.login := by
  cases op with
  | connectToServer addr login outcome => exact absurd rfl (hop addr login outcome)
  | disconnectServer =>
    obtain rfl := Option.some.inj hstep
    cases hlink'
  | pollServerDrop closed =>
    obtain rfl := Option.some.inj hstep
    rcases pollServerDrop_cases s closed with hsame | hdropped
    · rw [hsame] at hlink'
      exact ⟨link', hlink', rfl⟩
    · rw [hdropped] at hlink'
      cases hlink'
  | start =>
    obtain rfl := Option.some.inj hstep
    rw [ServerLogin.Session.start] at hlink'
    split_ifs at hlink'
    all_goals exact ⟨link', hlink', rfl⟩
  | pause =>
    obtain rfl := Option.some.inj hstep
    rw [ServerLogin.Session.pause] at hlink'
    split_ifs at hlink'
    · exact ⟨link', hlink', rfl⟩
    · obtain ⟨link, hlink, rfl⟩ := Option.map_eq_some_iff.mp hlink'
      exact ⟨link, hlink, rfl⟩
  | pauseForSeeding =>
    obtain rfl := Option.some.inj hstep
    rw [ServerLogin.Session.pauseForSeeding] at hlink'
    split_ifs at hlink'
    all_goals exact ⟨link', hlink', rfl⟩
  | resume outcome =>
    obtain rfl := Option.some.inj hstep
    rcases resume_cases s outcome with ⟨-, state, hresume⟩ | ⟨-, ⟨-, hresume⟩ |
      ⟨link, id, lowId, related, hlink, -, hresume⟩⟩
    · rw [hresume] at hlink'
      exact ⟨link', hlink', rfl⟩
    · rw [hresume] at hlink'
      cases hlink'
    · rw [hresume] at hlink'
      exact ⟨link, hlink, (congrArg ServerLink.login (Option.some.inj hlink')).symm⟩
  | shutdown =>
    obtain rfl := Option.some.inj hstep
    cases hlink'
  | search =>
    obtain rfl := Option.some.inj hstep
    rw [ServerLogin.Session.search] at hlink'
    split_ifs at hlink'
    all_goals exact ⟨link', hlink', rfl⟩
  | relatedSearch =>
    obtain rfl := Option.some.inj hstep
    rw [ServerLogin.Session.relatedSearch] at hlink'
    split_ifs at hlink'
    all_goals exact ⟨link', hlink', rfl⟩

namespace WireWorld

/-- What is kept was made by the two constructors, from the settings recorded with it. -/
structure Made (w : WireWorld) : Prop where
  hellos : ∀ hello settings, (hello, settings) ∈ w.hellos → hello = settings.hello me
  login : ∀ link, w.session.server = some link → link.login = w.loginFrom.loginRequest me

/-- A call that is not `connect_to_server` keeps what was made. -/
theorem Made.call {w : WireWorld} (h : w.Made me) {session : ServerLogin.Session}
    (op : ServerLogin.SessionOp)
    (hop : ∀ addr login outcome, op ≠ .connectToServer addr login outcome)
    (hstep : w.session.step op = some session) (opened : List Opening) :
    ({ w with session, opened } : WireWorld).Made me := by
  refine ⟨h.hellos, fun link' hlink' => ?_⟩
  obtain ⟨link, hlink, hlogin⟩ := ServerLogin.Session.step_login hop hstep hlink'
  exact hlogin.trans (h.login link hlink)

theorem Made.step {w w' : WireWorld} {op : WireOp} (h : w.Made me)
    (hstep : w.step me op = some w') : w'.Made me := by
  cases op with
  | setNickname nick =>
    obtain rfl := Option.some.inj hstep
    exact ⟨h.hellos, h.login⟩
  | setIncognito on =>
    obtain rfl := Option.some.inj hstep
    exact ⟨h.hellos, h.login⟩
  | connectToServer addr outcome =>
    simp only [WireWorld.step] at hstep
    cases hoffline : w.session.offline with
    | true =>
      rw [if_pos hoffline, ServerLogin.Session.connectToServer, if_pos hoffline] at hstep
      obtain rfl := Option.some.inj hstep
      exact h
    | false =>
      rw [if_neg (by simp [hoffline])] at hstep
      obtain rfl := Option.some.inj hstep
      refine ⟨h.hellos, fun link hlink => ?_⟩
      cases haccepted : outcome.accepted with
      | true =>
        obtain ⟨id, lowId, related, hconnect⟩ :=
          ServerLogin.connectToServer_accepted addr (w.wire.loginRequest me) hoffline haccepted
        simp only [hconnect, Option.some.injEq] at hlink
        exact congrArg ServerLink.login hlink.symm
      | false =>
        simp only [ServerLogin.connectToServer_refused hoffline haccepted] at hlink
        cases hlink
  | session op =>
    cases op with
    | connectToServer addr login outcome => cases hstep
    | resume outcome =>
      simp only [WireWorld.step] at hstep
      cases hlogin : w.session.resumedLogin with
      | none =>
        simp only [hlogin, Option.some.injEq] at hstep
        exact hstep ▸ h.call me (.resume outcome) (by simp) rfl w.opened
      | some login =>
        simp only [hlogin, Option.some.injEq] at hstep
        exact hstep ▸ h.call me (.resume outcome) (by simp) rfl _
    | disconnectServer | pollServerDrop | start | pause | pauseForSeeding | shutdown | search
    | relatedSearch =>
      simp only [WireWorld.step] at hstep
      obtain ⟨session, hcall, rfl⟩ := Option.map_eq_some_iff.mp hstep
      exact h.call me _ (by simp) hcall w.opened
  | buildHello =>
    obtain rfl := Option.some.inj hstep
    refine ⟨fun hello settings hmem => ?_, h.login⟩
    rcases List.mem_append.mp hmem with hmem | hmem
    · exact h.hellos hello settings hmem
    · cases List.mem_singleton.mp hmem
      rfl
  | dial worker =>
    simp only [WireWorld.step] at hstep
    split at hstep
    · cases hstep
    · obtain rfl := Option.some.inj hstep
      exact ⟨fun hello settings hmem => h.hellos hello settings (List.mem_of_mem_eraseIdx hmem),
        h.login⟩
  | accept =>
    obtain rfl := Option.some.inj hstep
    exact ⟨h.hellos, h.login⟩

theorem current_opens {w : WireWorld} (hcurrent : w.Current) (declared : Declared) :
    (∀ o ∈ w.opens declared, o.Current) ↔ Opening.Current ⟨declared, w.wire⟩ := by
  rw [opens, List.forall_mem_cons]
  exact and_iff_left hcurrent

/-- What is read as it is needed is current, what was kept is if the settings are the same. -/
theorem current_step_iff {w w' : WireWorld} {op : WireOp} (hmade : w.Made me)
    (hcurrent : w.Current) (hstep : w.step me op = some w') : w'.Current ↔ w.Unchanged op := by
  cases op with
  | setNickname nick =>
    obtain rfl := Option.some.inj hstep
    exact iff_of_true hcurrent trivial
  | setIncognito on =>
    obtain rfl := Option.some.inj hstep
    exact iff_of_true hcurrent trivial
  | connectToServer addr outcome =>
    refine iff_of_true ?_ trivial
    simp only [WireWorld.step] at hstep
    split_ifs at hstep
    · obtain rfl := Option.some.inj hstep
      exact hcurrent
    · obtain rfl := Option.some.inj hstep
      exact (current_opens hcurrent _).mpr rfl
  | session op =>
    cases op with
    | connectToServer addr login outcome => cases hstep
    | resume outcome =>
      simp only [WireWorld.step] at hstep
      cases hlogin : w.session.resumedLogin with
      | none =>
        simp only [hlogin, Option.some.injEq] at hstep
        exact iff_of_true (hstep ▸ hcurrent) fun hne => absurd hlogin hne
      | some login =>
        simp only [hlogin, Option.some.injEq] at hstep
        subst hstep
        have hresumed : login = w.loginFrom.loginRequest me := by
          rw [ServerLogin.Session.resumedLogin] at hlogin
          split_ifs at hlogin
          obtain ⟨link, hlink, rfl⟩ := Option.map_eq_some_iff.mp hlogin
          exact hmade.login link hlink
        refine (current_opens hcurrent _).trans ?_
        rw [hresumed]
        exact ⟨fun hname _ => hname, fun h => h (by simp [hlogin])⟩
    | disconnectServer | pollServerDrop | start | pause | pauseForSeeding | shutdown | search
    | relatedSearch =>
      simp only [WireWorld.step] at hstep
      obtain ⟨session, hcall, rfl⟩ := Option.map_eq_some_iff.mp hstep
      exact iff_of_true hcurrent trivial
  | buildHello =>
    obtain rfl := Option.some.inj hstep
    exact iff_of_true hcurrent trivial
  | dial worker =>
    simp only [WireWorld.step] at hstep
    cases hhello : w.hellos[worker]? with
    | none => simp [hhello] at hstep
    | some built =>
      obtain ⟨hello, settings⟩ := built
      simp only [hhello, Option.some.injEq] at hstep
      subst hstep
      obtain rfl := hmade.hellos hello settings (List.mem_of_getElem? hhello)
      refine (current_opens hcurrent _).trans ⟨fun hshown hello' settings' hsame => ?_, fun h => ?_⟩
      · obtain ⟨rfl, rfl⟩ := Prod.mk.inj (Option.some.inj (hhello.symm.trans hsame))
        exact hshown
      · exact h _ _ hhello
  | accept =>
    obtain rfl := Option.some.inj hstep
    exact iff_of_true ((current_opens hcurrent _).mpr ⟨rfl, rfl⟩) trivial

/-- A step that is not taken sends nothing. -/
theorem unchanged_of_none {w : WireWorld} {op : WireOp} (hnone : w.step me op = none) :
    w.Unchanged op := by
  cases op with
  | dial worker =>
    intro hello settings hhello
    simp [WireWorld.step, hhello] at hnone
  | session op =>
    cases op with
    | resume outcome =>
      simp only [WireWorld.step] at hnone
      split at hnone <;> cases hnone
    | connectToServer | disconnectServer | pollServerDrop | start | pause | pauseForSeeding
    | shutdown | search | relatedSearch => trivial
  | setNickname | setIncognito | connectToServer | buildHello | accept => trivial

end WireWorld

/-- Every connection of a run shows the settings it is opened under exactly if no dial and no
    resume goes out after what it sends was made from other settings. -/
theorem shown_identity_current (dir : SharingPause.ConfigDir) (offline : Bool) (ops : List WireOp) :
    Runs.Always (WireWorld.step me) WireWorld.Current (.new dir offline) ops ↔
      Runs.Throughout (WireWorld.step me) WireWorld.Unchanged (.new dir offline) ops := by
  have hmade : WireWorld.Made me (.new dir offline) :=
    ⟨by simp [WireWorld.new], by simp [WireWorld.new, ServerLogin.Session.new]⟩
  have hcurrent : WireWorld.Current (.new dir offline) := by
    simp [WireWorld.Current, WireWorld.new]
  exact Runs.always_iff_throughout (fun _ _ _ => WireWorld.Made.step me)
    (fun _ _ => WireWorld.unchanged_of_none me) (fun _ _ _ => WireWorld.current_step_iff me)
    hmade hcurrent ops

/-- A new name during a pause: the login of the resume still carries the old one. -/
def renamedWhilePaused : List WireOp :=
  [.session .start, .connectToServer ServerLogin.someServer (.answered ⟨0x01020304, none⟩),
    .session .pause, .setNickname ['b', 'o', 'b'], .session (.resume (.answered ⟨0x01020304, none⟩))]

theorem resume_shows_old_name :
    ¬Runs.Always (WireWorld.step ⟨.fill 16 1, 4662, 4672⟩) WireWorld.Current
      (.new ⟨false, false⟩ false) renamedWhilePaused := by
  intro h
  obtain ⟨w, o, rest, hrun, hopened, hstale⟩ : ∃ w o rest,
      Runs.run (WireWorld.step ⟨.fill 16 1, 4662, 4672⟩) (.new ⟨false, false⟩ false)
        renamedWhilePaused = some w ∧ w.opened = o :: rest ∧ ¬o.Current := by
    refine ⟨_, _, _, rfl, rfl, ?_⟩
    show ¬_ = _
    decide
  exact hstale (h.run hrun o (hopened ▸ List.mem_cons_self))

end PadMule.Engine
