import PadMule.Engine.SearchFilters
import PadMule.Engine.ServerLogin
import PadMule.Engine.ServerRequests

/-
  `mule-engine/src/engine.rs`: `search`, `related_search` and `search_more`, and which query a page
  of more results belongs to.

  OP_QUERY_MORE_RESULT has no body: the server goes on with the last query of the login. So the
  search session is dropped wherever that query changes: at a search, a related search, a dial and
  a disconnect. A resume logs in again and keeps it, and the session's only guard is the server's
  address. So every page that is asked for continues the search on screen exactly if none is asked
  for over a login that a resume made after the search (`paging_continues_iff`).
-/

namespace PadMule.Engine.SearchPaging

open PadMule.Proto
open Catalog (RankedFile catalog catalogWithOrigins)
open Search (SearchFilters searchParams applySearchFilters)
open SearchTree (SearchParams)
open ServerRequests (ServerSearchOutcome)

def SERVER_SEARCH_MIN_INTERVAL : Nat := 2 * 10 ^ 9
def MAX_MORE_SEARCH_REQ : Nat := 5

def ORIGIN_SERVER : UInt8 := 1
def ORIGIN_KAD : UInt8 := 2
def ORIGIN_GLOBAL : UInt8 := 4

/-- Times are in nanoseconds. -/
def throttleWaitSecs (last : Option Nat) (now interval : Nat) : Option Nat :=
  last.bind fun last =>
    let remaining := interval - (now - last)
    if remaining = 0 then none
    else some (remaining / 10 ^ 9 + if 0 < remaining % 10 ^ 9 then 1 else 0)

def hexDigit (nibble : UInt8) : Char :=
  ['0', '1', '2', '3', '4', '5', '6', '7', '8', '9', 'A', 'B', 'C', 'D', 'E', 'F'].getD
    nibble.toNat '0'

def relatedKeyword (hash : Hash16) : List Char :=
  "related::".toList ++ hash.bytes.flatMap fun (b : UInt8) =>
    [hexDigit (b >>> 4), hexDigit (b &&& 0x0f)]

/-- `Vec::resize` -/
def resize (v : List UInt8) (n : Nat) (x : UInt8) : List UInt8 :=
  v.take n ++ List.replicate (n - v.length) x

/-! ## The engine and its server -/

/-- One login: a dial, and how often it was resumed. -/
structure Login where
  dial : Nat
  resumes : Nat
deriving DecidableEq

/-- Where a row is from. The server answers for the query it holds, on the login it has. -/
inductive Channel where
  | server (held : Option SearchParams) (login : Login)
  | kad
  | global
deriving DecidableEq

def Channel.origin : Channel → UInt8
  | .server _ _ => ORIGIN_SERVER
  | .kad => ORIGIN_KAD
  | .global => ORIGIN_GLOBAL

structure SearchSession where
  serverAddr : SocketAddr
  combined : List SearchResultFile
  origins : List UInt8
  filters : SearchFilters
  serverMore : Bool
  moreReqs : Nat
  /-- History: where each row is from. -/
  sources : List Channel
  /-- History: what was searched for, on which login, and as which search. -/
  query : SearchParams
  login : Login
  number : Nat

/-- History: one OP_QUERY_MORE_RESULT, sent for the search session of `search`. -/
structure More where
  search : Nat
  query : SearchParams
  searchedOn : Login
  /-- What the server holds, on the login that it goes out on. -/
  held : Option SearchParams
  login : Login
deriving DecidableEq

structure World where
  /-- Of the search session this has the address alone. -/
  session : ServerLogin.Session
  searchSession : Option SearchSession
  lastServerSearch : Option Nat
  /-- What the server holds on the present login. -/
  held : Option SearchParams
  login : Login
  /-- History: the searches so far. -/
  searches : Nat
  mores : List More

/-- How a request on the link goes. -/
inductive Exchange where
  /-- It could not be written. -/
  | sendError
  /-- It was written, and reading the answer failed. -/
  | readError
  | returned (outcome : ServerSearchOutcome)

namespace Exchange

def sent : Exchange → Bool
  | .sendError => false
  | .readError | .returned _ => true

/-- Anything but a page is the empty one. -/
def page : Exchange → SearchResultPage
  | .returned (.page p) => p
  | _ => ⟨[], false⟩

end Exchange

inductive SearchOutcome where
  | results (ranked : List RankedFile) (moreAvailable : Bool)
  | throttled (waitSecs : Nat)

def SearchSession.ranked (s : SearchSession) : List RankedFile :=
  applySearchFilters (catalogWithOrigins s.combined s.origins) s.filters

namespace World

def new (dir : SharingPause.ConfigDir) (offline : Bool) : World :=
  ⟨.new dir offline, none, none, none, ⟨0, 0⟩, 0, []⟩

def connected (w : World) : Option SocketAddr := w.session.server.map ServerLink.addr

/-- Without a socket `request` writes nothing. -/
def writes (w : World) (exchange : Exchange) : Bool :=
  w.session.server.any ServerLink.conn && exchange.sent

def pageOf (w : World) (exchange : Exchange) : SearchResultPage :=
  if w.writes exchange then exchange.page else ⟨[], false⟩

/-- The server, asked for `params`. -/
def ask (w : World) (params : SearchParams) (exchange : Exchange) : World :=
  if w.writes exchange then { w with held := some params } else w

/-- Each row of a page, by the query that it answers. -/
def answers (w : World) (page : SearchResultPage) : List Channel :=
  List.replicate page.files.length (.server w.held w.login)

/-- The labels of the rows of a search, which are set a channel at a time. -/
def originsOf (page : SearchResultPage) (kadFiles globalFiles : List SearchResultFile) :
    List UInt8 :=
  let combined := page.files
  let origins := List.replicate combined.length ORIGIN_SERVER
  let combined := combined ++ kadFiles
  let origins := resize origins combined.length ORIGIN_KAD
  let combined := combined ++ globalFiles
  resize origins combined.length ORIGIN_GLOBAL

/-- The search session that a search leaves, once the server was asked. -/
def found (w : World) (params : SearchParams) (filters : SearchFilters)
    (page : SearchResultPage) (kadFiles globalFiles : List SearchResultFile)
    (serverAddr : SocketAddr) : SearchSession where
  serverAddr
  combined := page.files ++ kadFiles ++ globalFiles
  origins := originsOf page kadFiles globalFiles
  filters
  serverMore := page.more
  moreReqs := 0
  sources := w.answers page ++ List.replicate kadFiles.length .kad ++
    List.replicate globalFiles.length .global
  query := params
  login := w.login
  number := w.searches + 1

/-- `kadFiles` as `kad_to_search` makes them, and `globalFiles` if they were asked for. -/
def search (w : World) (keyword : List Char) (filters : SearchFilters) (now : Nat)
    (exchange : Exchange) (kadFiles globalFiles : List SearchResultFile) :
    World × SearchOutcome :=
  if w.session.offline || (trimMatches isWhitespace keyword).isEmpty then (w, .results [] false)
  else
    let wait := if w.session.server.isSome then
      throttleWaitSecs w.lastServerSearch now SERVER_SEARCH_MIN_INTERVAL else none
    match wait with
    | some waitSecs => (w, .throttled waitSecs)
    | none =>
      let params := searchParams keyword filters
      let page := w.pageOf exchange
      let asked := w.ask params exchange
      let combined := page.files ++ kadFiles ++ globalFiles
      let origins := originsOf page kadFiles globalFiles
      ({ asked with
          session := w.session.search
          searchSession := w.connected.map (asked.found params filters page kadFiles globalFiles)
          lastServerSearch := if w.session.server.isSome then some now else w.lastServerSearch
          searches := w.searches + 1 },
        .results (applySearchFilters (catalogWithOrigins combined origins) filters)
          (page.more && w.connected.isSome))

def relatedSearch (w : World) (hash : Hash16) (now : Nat) (exchange : Exchange) :
    World × SearchOutcome :=
  if w.session.offline || !w.session.server.any ServerLink.relatedSearchSupported then
    (w, .results [] false)
  else
    match throttleWaitSecs w.lastServerSearch now SERVER_SEARCH_MIN_INTERVAL with
    | some waitSecs => (w, .throttled waitSecs)
    | none =>
      let params : SearchParams := ⟨relatedKeyword hash, none, none, none, none, none⟩
      ({ w.ask params exchange with
          session := w.session.relatedSearch
          searchSession := none
          lastServerSearch := some now },
        .results (catalog (w.pageOf exchange).files) false)

def canPage (w : World) : Bool :=
  !w.session.offline && w.searchSession.any fun s =>
    w.connected = some s.serverAddr && s.serverMore && s.moreReqs < MAX_MORE_SEARCH_REQ

/-- `s` with the next page. -/
def grown (w : World) (s : SearchSession) (page : SearchResultPage) : SearchSession :=
  let combined := s.combined ++ page.files
  { s with
    combined
    origins := resize s.origins combined.length ORIGIN_SERVER
    serverMore := page.more
    moreReqs := s.moreReqs + 1
    sources := s.sources ++ w.answers page }

def searchMore (w : World) (exchange : Exchange) : World × SearchOutcome :=
  match w.searchSession with
  | none => (w, .results [] false)
  | some s =>
    if !w.canPage then (w, .results s.ranked false)
    else
      let s' := w.grown s (w.pageOf exchange)
      let more : More := ⟨s.number, s.query, s.login, w.held, w.login⟩
      ({ w with
          searchSession := some s'
          mores := if w.writes exchange then w.mores ++ [more] else w.mores },
        .results s'.ranked (s'.serverMore && s'.moreReqs < MAX_MORE_SEARCH_REQ))

/-- The search session goes where its address goes. -/
def withSession (w : World) (session : ServerLogin.Session) : World :=
  { w with
    session
    searchSession := if session.searchSession.isSome then w.searchSession else none }

/-- A server that has just let us in holds no query. -/
def loggedIn (w : World) (login : Login) : World := { w with held := none, login }

def connectToServer (w : World) (addr : SocketAddr) (login : LoginRequest)
    (outcome : LoginOutcome) : World :=
  if w.session.offline then w
  else
    let w := w.withSession (w.session.connectToServer addr login outcome)
    if w.session.isOnline then w.loggedIn ⟨w.login.dial + 1, 0⟩ else w

def resume (w : World) (outcome : LoginOutcome) : World :=
  let tries := w.session.state = .paused && !w.session.offline
  let w := w.withSession (w.session.resume outcome)
  if tries && w.session.isOnline then w.loggedIn ⟨w.login.dial, w.login.resumes + 1⟩ else w

end World

inductive Op where
  | search (keyword : List Char) (filters : SearchFilters) (now : Nat) (exchange : Exchange)
      (kadFiles globalFiles : List SearchResultFile)
  | relatedSearch (hash : Hash16) (now : Nat) (exchange : Exchange)
  | searchMore (exchange : Exchange)
  | connectToServer (addr : SocketAddr) (login : LoginRequest) (outcome : LoginOutcome)
  | disconnectServer
  | pollServerDrop (closed : Bool)
  | start
  | pause
  | pauseForSeeding
  | resume (outcome : LoginOutcome)
  | shutdown

def step (w : World) : Op → Option World
  | .search keyword filters now exchange kadFiles globalFiles =>
    some (w.search keyword filters now exchange kadFiles globalFiles).1
  | .relatedSearch hash now exchange => some (w.relatedSearch hash now exchange).1
  | .searchMore exchange => some (w.searchMore exchange).1
  | .connectToServer addr login outcome => some (w.connectToServer addr login outcome)
  | .disconnectServer => some (w.withSession w.session.disconnectServer)
  | .pollServerDrop closed => some (w.withSession (w.session.pollServerDrop closed))
  | .start => some (w.withSession w.session.start)
  | .pause => some (w.withSession w.session.pause)
  | .pauseForSeeding => some (w.withSession w.session.pauseForSeeding)
  | .resume outcome => some (w.resume outcome)
  | .shutdown => some (w.withSession w.session.shutdown)

/-! ## What is asked of the pages -/

/-- The rows are labelled by where they are from, and all of the server's answer this search. -/
structure SearchSession.Coherent (s : SearchSession) : Prop where
  length : s.combined.length = s.origins.length
  origins : s.origins = s.sources.map Channel.origin
  one : ∀ held login, .server held login ∈ s.sources → held = some s.query ∧ login = s.login

structure World.Continues (w : World) : Prop where
  mores : ∀ m ∈ w.mores, m.held = some m.query ∧ m.login = m.searchedOn
  capped : ∀ n, w.mores.countP (·.search = n) ≤ MAX_MORE_SEARCH_REQ
  coherent : ∀ s, w.searchSession = some s → s.Coherent

/-- A page that is asked for is asked for on the login of the search: no resume came between. -/
def Ok (w : World) : Op → Prop
  | .searchMore exchange => w.canPage = true → w.writes exchange = true →
      ∀ s, w.searchSession = some s → s.login.resumes = w.login.resumes
  | _ => True

/-! ## Rows and their labels -/

theorem resize_length_add (v : List UInt8) (n : Nat) (x : UInt8) :
    resize v (v.length + n) x = v ++ List.replicate n x := by
  rw [resize, List.take_of_length_le (Nat.le_add_right _ _), Nat.add_sub_cancel_left]

namespace World

variable {w w' : World}

theorem origins_answers (w : World) (page : SearchResultPage) :
    (w.answers page).map Channel.origin = List.replicate page.files.length ORIGIN_SERVER :=
  List.map_replicate

/-- Rows come from a request that was written. -/
theorem files_pageOf {exchange : Exchange} (h : w.writes exchange = false) :
    w.pageOf exchange = ⟨[], false⟩ := by
  rw [pageOf, h]
  rfl

theorem writes_of_more {exchange : Exchange} (h : (w.pageOf exchange).more = true) :
    w.writes exchange = true := by
  by_contra hwrites
  rw [files_pageOf (by simpa using hwrites)] at h
  exact Bool.false_ne_true h

theorem writes_of_files {exchange : Exchange} (h : (w.pageOf exchange).files ≠ []) :
    w.writes exchange = true := by
  by_contra hwrites
  rw [files_pageOf (by simpa using hwrites)] at h
  exact h rfl

theorem held_ask {exchange : Exchange} (params : SearchParams) (h : w.writes exchange = true) :
    (w.ask params exchange).held = some params := by
  rw [ask, if_pos h]

@[simp] theorem ask_session (w : World) (params : SearchParams) (exchange : Exchange) :
    (w.ask params exchange).session = w.session := by
  unfold ask
  split <;> rfl

@[simp] theorem ask_login (w : World) (params : SearchParams) (exchange : Exchange) :
    (w.ask params exchange).login = w.login := by
  unfold ask
  split <;> rfl

@[simp] theorem ask_searches (w : World) (params : SearchParams) (exchange : Exchange) :
    (w.ask params exchange).searches = w.searches := by
  unfold ask
  split <;> rfl

@[simp] theorem ask_mores (w : World) (params : SearchParams) (exchange : Exchange) :
    (w.ask params exchange).mores = w.mores := by
  unfold ask
  split <;> rfl

theorem originsOf_eq (page : SearchResultPage) (kadFiles globalFiles : List SearchResultFile) :
    originsOf page kadFiles globalFiles = List.replicate page.files.length ORIGIN_SERVER ++
      List.replicate kadFiles.length ORIGIN_KAD ++
      List.replicate globalFiles.length ORIGIN_GLOBAL := by
  have hkad := resize_length_add (List.replicate page.files.length ORIGIN_SERVER)
    kadFiles.length ORIGIN_KAD
  have hglobal := resize_length_add (List.replicate page.files.length ORIGIN_SERVER ++
    List.replicate kadFiles.length ORIGIN_KAD) globalFiles.length ORIGIN_GLOBAL
  simp only [List.length_append, List.length_replicate] at hkad hglobal
  simp only [originsOf, List.length_append]
  rw [hkad, hglobal]

/-- The rows of a new search. -/
theorem coherent_found (w : World) (params : SearchParams) (filters : SearchFilters)
    (exchange : Exchange) (kadFiles globalFiles : List SearchResultFile) (addr : SocketAddr) :
    ((w.ask params exchange).found params filters (w.pageOf exchange) kadFiles globalFiles
      addr).Coherent := by
  constructor
  · simp [found, originsOf_eq]
  · simp only [found, originsOf_eq]
    rw [List.map_append, List.map_append, origins_answers, List.map_replicate, List.map_replicate]
    rfl
  · intro held login hmem
    obtain ⟨hfiles, hchannel⟩ : (w.pageOf exchange).files.length ≠ 0 ∧
        Channel.server held login = .server (w.ask params exchange).held w.login := by
      simpa [found, answers] using hmem
    have hwrites := writes_of_files fun hnil => hfiles (List.length_eq_zero_iff.mpr hnil)
    rw [held_ask params hwrites] at hchannel
    obtain ⟨rfl, rfl⟩ := Channel.server.inj hchannel
    exact ⟨rfl, (ask_login w params exchange).symm⟩

/-- A page keeps the labels, and adds rows of the query that the server holds. -/
theorem coherent_grown {s : SearchSession} (h : s.Coherent) {page : SearchResultPage}
    (hsame : page.files ≠ [] → w.held = some s.query ∧ w.login = s.login) :
    (w.grown s page).Coherent := by
  have hlabels : (w.grown s page).origins =
      s.origins ++ List.replicate page.files.length ORIGIN_SERVER := by
    show resize s.origins (s.combined ++ page.files).length ORIGIN_SERVER = _
    rw [List.length_append, h.length, resize_length_add]
  constructor
  · rw [hlabels]
    simp [grown, h.length]
  · rw [hlabels]
    show _ = (s.sources ++ w.answers page).map Channel.origin
    rw [List.map_append, origins_answers, h.origins]
  · intro held login hmem
    rcases List.mem_append.mp hmem with hold | hnew
    · exact h.one held login hold
    · obtain ⟨hfiles, hchannel⟩ := List.mem_replicate.mp hnew
      obtain ⟨rfl, rfl⟩ := Channel.server.inj hchannel
      exact hsame fun hnil => hfiles (by rw [hnil]; rfl)

/-! ## What always holds -/

/-- The search session is that of the last search, and was made on this dial. While its login
    lasts, the server holds its query as long as there is more to ask for. -/
structure Live (w : World) (s : SearchSession) : Prop where
  number : s.number = w.searches
  capped : s.moreReqs ≤ MAX_MORE_SEARCH_REQ
  written : w.mores.countP (·.search = s.number) ≤ s.moreReqs
  dial : s.login.dial = w.login.dial
  resumes : s.login.resumes ≤ w.login.resumes
  held : s.serverMore = true → s.login = w.login → w.held = some s.query

structure Inv (w : World) : Prop where
  addr : w.session.searchSession = w.searchSession.map SearchSession.serverAddr
  past : ∀ m ∈ w.mores, m.search ≤ w.searches
  capped : ∀ n, w.mores.countP (·.search = n) ≤ MAX_MORE_SEARCH_REQ
  live : ∀ s, w.searchSession = some s → w.Live s

theorem inv_new (dir : SharingPause.ConfigDir) (offline : Bool) : Inv (.new dir offline) :=
  ⟨rfl, by simp [new], by simp [new], by simp [new]⟩

theorem continues_new (dir : SharingPause.ConfigDir) (offline : Bool) :
    Continues (.new dir offline) :=
  ⟨by simp [new], by simp [new], by simp [new]⟩

/-- A call that at most ends the search session. -/
theorem searchSession_withSession {session : ServerLogin.Session} {s : SearchSession}
    (hs : (w.withSession session).searchSession = some s) : w.searchSession = some s := by
  unfold withSession at hs
  dsimp only at hs
  split_ifs at hs
  exact hs

theorem Inv.withSession (h : Inv w) {session : ServerLogin.Session}
    (hkeeps : session.searchSession = none ∨ session.searchSession = w.session.searchSession) :
    Inv (w.withSession session) := by
  refine ⟨?_, h.past, h.capped, fun s hs => ?_⟩
  · rcases hkeeps with hnone | hsame
    · simp [World.withSession, hnone]
    · have haddr : session.searchSession = w.searchSession.map SearchSession.serverAddr :=
        hsame.trans h.addr
      cases hs : w.searchSession <;> simp [World.withSession, haddr, hs]
  · obtain ⟨hnumber, hcapped, hwritten, hdial, hresumes, hheld⟩ :=
      h.live s (searchSession_withSession hs)
    exact ⟨hnumber, hcapped, hwritten, hdial, hresumes, hheld⟩

theorem Continues.withSession (h : Continues w) (session : ServerLogin.Session) :
    Continues (w.withSession session) :=
  ⟨h.mores, h.capped, fun s hs => h.coherent s (searchSession_withSession hs)⟩

theorem Continues.loggedIn (h : Continues w) (login : Login) : Continues (w.loggedIn login) :=
  ⟨h.mores, h.capped, h.coherent⟩

/-! ## Searches -/

theorem online_of_not_idle {busy : Bool} (h : ¬(w.session.offline || busy) = true) :
    w.session.offline = false :=
  (Bool.or_eq_false_iff.mp (Bool.eq_false_iff.mpr h)).1

/-- A search that is refused changes nothing. -/
theorem search_cases (w : World) (keyword : List Char) (filters : SearchFilters) (now : Nat)
    (exchange : Exchange) (kadFiles globalFiles : List SearchResultFile) :
    (w.search keyword filters now exchange kadFiles globalFiles).1 = w ∨
      w.session.offline = false ∧ ∃ lastServerSearch,
        (w.search keyword filters now exchange kadFiles globalFiles).1 =
          { w.ask (searchParams keyword filters) exchange with
            session := w.session.search
            searchSession := w.connected.map ((w.ask (searchParams keyword filters) exchange).found
              (searchParams keyword filters) filters (w.pageOf exchange) kadFiles globalFiles)
            lastServerSearch
            searches := w.searches + 1 } := by
  unfold search
  split_ifs with hidle hserver
  · exact .inl rfl
  · dsimp only
    split
    · exact .inl rfl
    · exact .inr ⟨online_of_not_idle hidle, _, rfl⟩
  · exact .inr ⟨online_of_not_idle hidle, _, rfl⟩

theorem relatedSearch_cases (w : World) (hash : Hash16) (now : Nat) (exchange : Exchange) :
    (w.relatedSearch hash now exchange).1 = w ∨
      (w.session.offline || !w.session.server.any ServerLink.relatedSearchSupported) = false ∧
        (w.relatedSearch hash now exchange).1 =
          { w.ask ⟨relatedKeyword hash, none, none, none, none, none⟩ exchange with
            session := w.session.relatedSearch
            searchSession := none
            lastServerSearch := some now } := by
  unfold relatedSearch
  split_ifs with hidle
  · exact .inl rfl
  · split
    · exact .inl rfl
    · exact .inr ⟨by simpa using hidle, rfl⟩

theorem Inv.search (h : Inv w) (keyword : List Char) (filters : SearchFilters) (now : Nat)
    (exchange : Exchange) (kadFiles globalFiles : List SearchResultFile) :
    Inv (w.search keyword filters now exchange kadFiles globalFiles).1 := by
  rcases search_cases w keyword filters now exchange kadFiles globalFiles with
    hsame | ⟨honline, last, hsearch⟩
  · rw [hsame]
    exact h
  · rw [hsearch]
    -- no request has this number yet
    have hnone : w.mores.countP (·.search = w.searches + 1) = 0 := by
      refine List.countP_eq_zero.mpr fun m hm => ?_
      have hpast := h.past m hm
      simp only [decide_eq_true_eq]
      omega
    refine ⟨?_, fun m hm => ?_, ?_, fun s hs => ?_⟩
    · simp [ServerLogin.Session.search, honline, connected, Function.comp_def, found]
    · rw [ask_mores] at hm
      exact Nat.le_succ_of_le (h.past m hm)
    · simpa using h.capped
    · obtain ⟨addr, -, rfl⟩ := Option.map_eq_some_iff.mp hs
      refine ⟨by simp [found], Nat.zero_le _, ?_, by simp [found], by simp [found], ?_⟩
      · simp only [found, ask_searches, ask_mores]
        exact hnone.le
      · intro hmore _
        exact held_ask _ (writes_of_more hmore)

theorem Continues.search (h : Continues w) (keyword : List Char) (filters : SearchFilters)
    (now : Nat) (exchange : Exchange) (kadFiles globalFiles : List SearchResultFile) :
    Continues (w.search keyword filters now exchange kadFiles globalFiles).1 := by
  rcases search_cases w keyword filters now exchange kadFiles globalFiles with
    hsame | ⟨-, last, hsearch⟩
  · rw [hsame]
    exact h
  · rw [hsearch]
    refine ⟨by simpa using h.mores, by simpa using h.capped, fun s hs => ?_⟩
    obtain ⟨addr, -, rfl⟩ := Option.map_eq_some_iff.mp hs
    exact coherent_found w _ filters exchange kadFiles globalFiles addr

theorem Inv.relatedSearch (h : Inv w) (hash : Hash16) (now : Nat) (exchange : Exchange) :
    Inv (w.relatedSearch hash now exchange).1 := by
  rcases relatedSearch_cases w hash now exchange with hsame | ⟨hasks, hsearch⟩
  · rw [hsame]
    exact h
  · rw [hsearch]
    refine ⟨?_, by simpa using h.past, by simpa using h.capped, fun s hs => by cases hs⟩
    simp [ServerLogin.Session.relatedSearch, hasks]

theorem Continues.relatedSearch (h : Continues w) (hash : Hash16) (now : Nat)
    (exchange : Exchange) : Continues (w.relatedSearch hash now exchange).1 := by
  rcases relatedSearch_cases w hash now exchange with hsame | ⟨-, hsearch⟩
  · rw [hsame]
    exact h
  · rw [hsearch]
    exact ⟨by simpa using h.mores, by simpa using h.capped, fun s hs => by cases hs⟩

/-! ## More of it -/

theorem searchMore_cases (w : World) (exchange : Exchange) :
    w.canPage = false ∧ (w.searchMore exchange).1 = w ∨
      ∃ s, w.canPage = true ∧ w.searchSession = some s ∧ (w.searchMore exchange).1 = { w with
        searchSession := some (w.grown s (w.pageOf exchange))
        mores := if w.writes exchange then
          w.mores ++ [⟨s.number, s.query, s.login, w.held, w.login⟩] else w.mores } := by
  unfold searchMore
  cases hs : w.searchSession with
  | none => exact .inl ⟨by simp [canPage, hs], rfl⟩
  | some s =>
    dsimp only
    cases hpage : w.canPage with
    | true => exact .inr ⟨s, rfl, rfl, rfl⟩
    | false => exact .inl ⟨rfl, rfl⟩

theorem canPage_eq {s : SearchSession} (hs : w.searchSession = some s) :
    w.canPage = (!w.session.offline && (decide (w.connected = some s.serverAddr) &&
      s.serverMore && decide (s.moreReqs < MAX_MORE_SEARCH_REQ))) := by
  rw [canPage, hs]
  rfl

theorem of_canPage {s : SearchSession} (hs : w.searchSession = some s) (h : w.canPage = true) :
    w.session.offline = false ∧ w.connected = some s.serverAddr ∧ s.serverMore = true ∧
      s.moreReqs < MAX_MORE_SEARCH_REQ := by
  simpa [canPage_eq hs, and_assoc] using h

/-- The button stays on as long as there is another page to ask for. -/
theorem searchMore_button {exchange : Exchange} {ranked : List RankedFile} {more : Bool}
    (h : (w.searchMore exchange).2 = .results ranked more) :
    (w.searchMore exchange).1.canPage = more := by
  unfold searchMore at h ⊢
  cases hs : w.searchSession with
  | none =>
    rw [hs] at h
    obtain ⟨-, rfl⟩ := SearchOutcome.results.inj h
    simp [canPage, hs]
  | some s =>
    rw [hs] at h
    dsimp only at h ⊢
    cases hpage : w.canPage with
    | false =>
      rw [hpage] at h
      obtain ⟨-, rfl⟩ := SearchOutcome.results.inj h
      exact hpage
    | true =>
      rw [hpage] at h
      obtain ⟨-, rfl⟩ := SearchOutcome.results.inj h
      obtain ⟨honline, haddr, -⟩ := of_canPage hs hpage
      refine (canPage_eq rfl).trans ?_
      show (!w.session.offline && (decide (w.connected = some s.serverAddr) && _ && _)) = _
      simp only [honline, haddr, decide_true, Bool.not_false, Bool.true_and]

/-- One more request is counted for its own search. -/
theorem countP_append (mores : List More) (more : More) (n : Nat) :
    (mores ++ [more]).countP (·.search = n) =
      mores.countP (·.search = n) + if more.search = n then 1 else 0 := by
  simp [List.countP_append, List.countP_cons]

theorem Inv.searchMore (h : Inv w) (exchange : Exchange) : Inv (w.searchMore exchange).1 := by
  rcases searchMore_cases w exchange with ⟨-, hsame⟩ | ⟨s, hpage, hs, hmore⟩
  · rw [hsame]
    exact h
  · rw [hmore]
    obtain ⟨-, -, hserver, hreqs⟩ := of_canPage hs hpage
    obtain ⟨hnumber, -, hwritten, hdial, hresumes, hheld⟩ := h.live s hs
    have hcount : (if w.writes exchange then
        w.mores ++ [⟨s.number, s.query, s.login, w.held, w.login⟩] else w.mores).countP
          (·.search = s.number) ≤ s.moreReqs + 1 := by
      split_ifs
      · rw [countP_append, if_pos rfl]
        omega
      · omega
    refine ⟨h.addr.trans (by rw [hs]; rfl), fun m hm => ?_, fun n => ?_, fun t ht => ?_⟩
    · dsimp only at hm
      split_ifs at hm
      · rcases List.mem_append.mp hm with hm | hm
        · exact h.past m hm
        · rw [List.mem_singleton.mp hm]
          exact hnumber.le
      · exact h.past m hm
    · by_cases hn : n = s.number
      · subst hn
        exact hcount.trans hreqs
      · dsimp only
        split_ifs
        · rw [countP_append, if_neg (Ne.symm hn)]
          exact h.capped n
        · exact h.capped n
    · obtain rfl := Option.some.inj ht
      exact ⟨hnumber, hreqs, hcount, hdial, hresumes, fun _ => hheld hserver⟩

/-- A page continues the search on screen exactly if no resume came between. -/
theorem continues_searchMore_iff (hi : Inv w) (h : Continues w) (exchange : Exchange) :
    Continues (w.searchMore exchange).1 ↔ Ok w (.searchMore exchange) := by
  rcases searchMore_cases w exchange with ⟨hpage, hsame⟩ | ⟨s, hpage, hs, hmore⟩
  · rw [hsame]
    exact iff_of_true h fun hcan => absurd (hcan.symm.trans hpage) (by simp)
  · have hinv := hi.searchMore exchange
    rw [hmore] at hinv ⊢
    have hlive := hi.live s hs
    obtain ⟨-, -, hserver, -⟩ := of_canPage hs hpage
    constructor
    · intro hc _ hwrites t ht
      obtain rfl := Option.some.inj (hs.symm.trans ht)
      have hlast := hc.mores ⟨s.number, s.query, s.login, w.held, w.login⟩
        (by simp [hwrites])
      exact (congrArg Login.resumes hlast.2).symm
    · intro hok
      have hlogin (hwrites : w.writes exchange = true) : s.login = w.login := by
        have hresumes := hok hpage hwrites s hs
        have hdial := hlive.dial
        cases hsl : s.login
        cases hwl : w.login
        rw [hsl, hwl] at hresumes hdial
        exact congrArg₂ Login.mk hdial hresumes
      refine ⟨fun m hm => ?_, hinv.capped, fun t ht => ?_⟩
      · dsimp only at hm
        split_ifs at hm with hwrites
        · rcases List.mem_append.mp hm with hm | hm
          · exact h.mores m hm
          · rw [List.mem_singleton.mp hm]
            exact ⟨hlive.held hserver (hlogin hwrites), (hlogin hwrites).symm⟩
        · exact h.mores m hm
      · obtain rfl := Option.some.inj ht
        refine coherent_grown (h.coherent s hs) fun hfiles => ?_
        have hsame := hlogin (writes_of_files hfiles)
        exact ⟨hlive.held hserver hsame, hsame.symm⟩

/-! ## Logins -/

/-- A new dial has dropped the search session. -/
theorem Inv.connectToServer (h : Inv w) (addr : SocketAddr) (login : LoginRequest)
    (outcome : LoginOutcome) : Inv (w.connectToServer addr login outcome) := by
  unfold World.connectToServer
  split_ifs with hoffline
  · exact h
  · have hnone : (w.session.connectToServer addr login outcome).searchSession = none := by
      have honline : w.session.offline = false := by simpa using hoffline
      cases haccepted : outcome.accepted with
      | true =>
        obtain ⟨id, lowId, related, hconnect⟩ :=
          ServerLogin.connectToServer_accepted addr login honline haccepted
        rw [hconnect]
      | false => rw [ServerLogin.connectToServer_refused honline haccepted]
    have hinv := h.withSession (.inl hnone)
    have hdropped : (w.withSession
        (w.session.connectToServer addr login outcome)).searchSession = none := by
      simp [World.withSession, hnone]
    dsimp only
    split_ifs
    · refine ⟨hinv.addr, hinv.past, hinv.capped, fun s hs => ?_⟩
      exact absurd (hdropped.symm.trans hs) (by simp)
    · exact hinv

theorem searchSession_resume (s : ServerLogin.Session) (outcome : LoginOutcome) :
    (s.resume outcome).searchSession = none ∨
      (s.resume outcome).searchSession = s.searchSession := by
  rcases ServerLogin.resume_cases s outcome with ⟨-, state, hresume⟩ | ⟨-, ⟨-, hresume⟩ |
    ⟨link, id, lowId, related, -, -, hresume⟩⟩
  · rw [hresume]
    exact .inr rfl
  · rw [hresume]
    exact .inl rfl
  · rw [hresume]
    exact .inr rfl

/-- A resumed login is none that the search was made on. -/
theorem Inv.resume (h : Inv w) (outcome : LoginOutcome) : Inv (w.resume outcome) := by
  have hinv := h.withSession (searchSession_resume w.session outcome)
  unfold World.resume
  dsimp only
  split_ifs
  · refine ⟨hinv.addr, hinv.past, hinv.capped, fun s hs => ?_⟩
    obtain ⟨hnumber, hcapped, hwritten, hdial, hresumes, -⟩ := hinv.live s hs
    refine ⟨hnumber, hcapped, hwritten, hdial, Nat.le_succ_of_le hresumes, fun _ hlogin => ?_⟩
    have hsame : s.login.resumes = w.login.resumes + 1 := congrArg Login.resumes hlogin
    have hle : s.login.resumes ≤ w.login.resumes := hresumes
    omega
  · exact hinv

theorem Continues.connectToServer (h : Continues w) (addr : SocketAddr) (login : LoginRequest)
    (outcome : LoginOutcome) : Continues (w.connectToServer addr login outcome) := by
  unfold World.connectToServer
  dsimp only
  split_ifs
  · exact h
  · exact (h.withSession _).loggedIn _
  · exact h.withSession _

theorem Continues.resume (h : Continues w) (outcome : LoginOutcome) :
    Continues (w.resume outcome) := by
  unfold World.resume
  dsimp only
  split_ifs
  · exact (h.withSession _).loggedIn _
  · exact h.withSession _

/-! ## Runs -/

/-- The calls that are no search and no login end the search session, or leave its address. -/
theorem searchSession_pollServerDrop (s : ServerLogin.Session) (closed : Bool) :
    (s.pollServerDrop closed).searchSession = none ∨
      (s.pollServerDrop closed).searchSession = s.searchSession := by
  rcases ServerLogin.pollServerDrop_cases s closed with hsame | hdropped
  · rw [hsame]
    exact .inr rfl
  · rw [hdropped]
    exact .inl rfl

end World

open SearchPaging.World

theorem Inv.step {w w' : World} {op : Op} (h : Inv w) (hstep : step w op = some w') :
    Inv w' := by
  cases op with
  | search keyword filters now exchange kadFiles globalFiles =>
    obtain rfl := Option.some.inj hstep
    exact h.search keyword filters now exchange kadFiles globalFiles
  | relatedSearch hash now exchange =>
    obtain rfl := Option.some.inj hstep
    exact h.relatedSearch hash now exchange
  | searchMore exchange =>
    obtain rfl := Option.some.inj hstep
    exact h.searchMore exchange
  | connectToServer addr login outcome =>
    obtain rfl := Option.some.inj hstep
    exact h.connectToServer addr login outcome
  | disconnectServer =>
    obtain rfl := Option.some.inj hstep
    exact h.withSession (.inl rfl)
  | pollServerDrop closed =>
    obtain rfl := Option.some.inj hstep
    exact h.withSession (searchSession_pollServerDrop w.session closed)
  | start =>
    obtain rfl := Option.some.inj hstep
    refine h.withSession (.inr ?_)
    rw [ServerLogin.Session.start]
    split_ifs <;> rfl
  | pause =>
    obtain rfl := Option.some.inj hstep
    refine h.withSession (.inr ?_)
    rw [ServerLogin.Session.pause]
    split_ifs <;> rfl
  | pauseForSeeding =>
    obtain rfl := Option.some.inj hstep
    refine h.withSession (.inr ?_)
    rw [ServerLogin.Session.pauseForSeeding]
    split_ifs <;> rfl
  | resume outcome =>
    obtain rfl := Option.some.inj hstep
    exact h.resume outcome
  | shutdown =>
    obtain rfl := Option.some.inj hstep
    exact h.withSession (.inl rfl)

theorem continues_step_iff {w w' : World} {op : Op} (hi : Inv w) (h : Continues w)
    (hstep : step w op = some w') : Continues w' ↔ Ok w op := by
  cases op with
  | search keyword filters now exchange kadFiles globalFiles =>
    obtain rfl := Option.some.inj hstep
    exact iff_of_true (h.search keyword filters now exchange kadFiles globalFiles) trivial
  | relatedSearch hash now exchange =>
    obtain rfl := Option.some.inj hstep
    exact iff_of_true (h.relatedSearch hash now exchange) trivial
  | searchMore exchange =>
    obtain rfl := Option.some.inj hstep
    exact continues_searchMore_iff hi h exchange
  | connectToServer addr login outcome =>
    obtain rfl := Option.some.inj hstep
    exact iff_of_true (h.connectToServer addr login outcome) trivial
  | resume outcome =>
    obtain rfl := Option.some.inj hstep
    exact iff_of_true (h.resume outcome) trivial
  | disconnectServer | pollServerDrop | start | pause | pauseForSeeding | shutdown =>
    obtain rfl := Option.some.inj hstep
    exact iff_of_true (h.withSession _) trivial

/-- Every page continues the search on screen exactly if each is asked for on the login of its
    search. -/
theorem paging_continues_iff (dir : SharingPause.ConfigDir) (offline : Bool) (ops : List Op) :
    Runs.Always step Continues (.new dir offline) ops ↔
      Runs.Throughout step Ok (.new dir offline) ops :=
  Runs.always_iff_throughout (fun _ _ _ => Inv.step) (fun _ op hnone => by cases op <;> cases hnone)
    (fun _ _ _ => continues_step_iff) (inv_new dir offline) (continues_new dir offline) ops

/-- A search with more to come, and a pause before the rest of it. -/
def searchThenPause : List Op :=
  [.start, .connectToServer ServerLogin.someServer ServerLogin.someLogin
      (.answered ⟨0x01020304, none⟩),
    .search ['l', 'i', 'n', 'u', 'x'] ⟨none, none, none⟩ 0 (.returned (.page ⟨[], true⟩)) [] [],
    .pause, .resume (.answered ⟨0x01020304, none⟩), .searchMore (.returned .noAnswer)]

/-- After the resume the server is asked for more of a query that it does not hold. -/
theorem resume_keeps_search_session :
    ¬ Runs.Always step Continues (.new ⟨true, false⟩ false) searchThenPause := by
  intro h
  obtain ⟨w, hrun, hmore⟩ : ∃ w, Runs.run step (.new ⟨true, false⟩ false) searchThenPause = some w ∧
      ∃ m ∈ w.mores, m.held ≠ some m.query :=
    ⟨_, rfl, _, .head _, (Option.some_ne_none _).symm⟩
  obtain ⟨m, hm, hheld⟩ := hmore
  exact hheld ((h.run hrun).mores m hm).1

end PadMule.Engine.SearchPaging
