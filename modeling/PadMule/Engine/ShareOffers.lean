import PadMule.Engine.ServeSession
import PadMule.Engine.ServerLogin
import PadMule.Lib.LossyUtf8

/-
  `offer_shared_to`, `maintain_shares` and what changes the library: what the server is told of it.

  A dirty flag asks the next beat for an offer. A finished download, a verification that dropped
  something, a login that came back and the sharing switch raise it; unsharing a file does not, and
  a beat lowers it before an offer that may fail. So the last offer of a login is right in every
  state with the flag down exactly if no file among those it lists is taken out while the flag is
  down, and no offer that was needed is cut short (`offers_current_iff`).

  A download that finishes enters the library and raises the flag in two steps, between which the
  engine goes on; an offer reads the library when it begins and is written while downloads finish.
-/

namespace PadMule.Engine.ShareOffers

/-- aMule's cap of an OP_OFFERFILES. -/
def MAX_OFFER : Nat := 200

/-- What an offer lists: the newest files, the newest first. -/
def offersOf (shared : List SharedFile) : List OfferedFile :=
  (shared.reverse.take MAX_OFFER).map fun s => ⟨s.hash, LossyUtf8.fromUtf8Lossy s.name, s.size⟩

structure World where
  session : ServerLogin.Session
  shared : List SharedFile
  /-- Finished downloads that are in the library and have not raised the flag. -/
  unmarked : Nat
  /-- The offer that is being written. -/
  offering : Option (List OfferedFile)
  /-- History: the last offer that was written whole on this login. -/
  offered : Option (List OfferedFile)
  /-- History: whether we were sharing, for each offer that was begun. -/
  begun : List Bool
deriving DecidableEq

namespace World

/-- A running engine with the library it has loaded, and without a server. -/
def new (dir : SharingPause.ConfigDir) (offline : Bool) (shared : List SharedFile) : World :=
  ⟨{ ServerLogin.Session.new dir offline with state := .running }, shared, 0, none, none, []⟩

def sharing (w : World) : Bool := w.session.flags.sharing

def sharedDirty (w : World) : Bool := w.session.flags.sharedDirty

def setDirty (w : World) (dirty : Bool) : World :=
  { w with session.flags.sharedDirty := dirty }

/-- Up to the write, which holds up the engine. -/
def offerSharedTo (w : World) : World :=
  if !w.sharing then w
  else if offersOf w.shared = [] then w
  else { w with offering := some (offersOf w.shared), begun := w.begun ++ [w.sharing] }

def connectToServer (w : World) (addr : SocketAddr) (login : LoginRequest)
    (outcome : LoginOutcome) : World :=
  if w.session.offline then w
  else
    let w := { w with session := w.session.connectToServer addr login outcome, offered := none }
    if w.session.isOnline then w.offerSharedTo else w

def resume (w : World) (outcome : LoginOutcome) : World :=
  let session := w.session.resume outcome
  if w.session.state = .paused && !w.session.offline then
    let w := { w with session, offered := none }
    if session.isOnline then w.setDirty true else w
  else { w with session }

def setSharing (w : World) (on : Bool) : World :=
  { w with
    session.flags :=
      (SharingPause.setSharing on).foldl SharingPause.Effect.onFlags w.session.flags }

def maintainShares (w : World) : World :=
  if !w.sharedDirty then w
  else if !w.session.isOnline then w
  else (w.setDirty false).offerSharedTo

def unshareFile (w : World) (hash : Hash16) : World :=
  { w with shared := w.shared.filter fun s => s.hash ≠ hash }

/-- The file itself goes too, which is no matter here. -/
def deleteSharedFile (w : World) (hash : Hash16) : World :=
  if (w.shared.find? fun s => s.hash = hash).isNone then w else w.unshareFile hash

def verifySharedLibrary (w : World) (disk : Disk) : World :=
  if w.shared.all (SharedFile.onDisk disk) then w
  else { w with shared := w.shared.filter (SharedFile.onDisk disk) }.setDirty true

end World

/-- How the write of an offer ends. -/
inductive OfferOutcome where
  | written
  /-- Cut off by its timeout, or failed. -/
  | cut
deriving DecidableEq

/-- The calls of the engine, which wait while an offer is written. -/
inductive Call where
  | connectToServer (addr : SocketAddr) (login : LoginRequest) (outcome : LoginOutcome)
  | disconnectServer
  | pollServerDrop (closed : Bool)
  | pause
  | pauseForSeeding
  | resume (outcome : LoginOutcome)
  | setSharing (on : Bool)
  | maintainShares
  | unshareFile (hash : Hash16)
  | deleteSharedFile (hash : Hash16)
  | verifySharedLibrary (disk : Disk)

inductive Op where
  | call (call : Call)
  /-- The running offer's write ends. -/
  | offerEnds (outcome : OfferOutcome)
  /-- A finished download enters the library. -/
  | finishPush (f : SharedFile)
  /-- It raises the flag. -/
  | finishMark

def World.call (w : World) : Call → World
  | .connectToServer addr login outcome => w.connectToServer addr login outcome
  | .disconnectServer => { w with session := w.session.disconnectServer }
  | .pollServerDrop closed => { w with session := w.session.pollServerDrop closed }
  | .pause => { w with session := w.session.pause }
  | .pauseForSeeding => { w with session := w.session.pauseForSeeding }
  | .resume outcome => w.resume outcome
  | .setSharing on => w.setSharing on
  | .maintainShares => w.maintainShares
  | .unshareFile hash => w.unshareFile hash
  | .deleteSharedFile hash => w.deleteSharedFile hash
  | .verifySharedLibrary disk => w.verifySharedLibrary disk

def step (w : World) : Op → Option World
  | .call call => if w.offering.isSome then none else some (w.call call)
  | .offerEnds outcome => w.offering.map fun offers =>
      { w with offering := none, offered := if outcome = .written then some offers else w.offered }
  | .finishPush f => some { w with shared := w.shared ++ [f], unmarked := w.unmarked + 1 }
  | .finishMark =>
    if w.unmarked = 0 then none else some { w.setDirty true with unmarked := w.unmarked - 1 }

/-! ## What is asked of the offers -/

/-- No call is under way, and the server should know the library. -/
structure World.Settled (w : World) : Prop where
  idle : w.offering = none
  marked : w.unmarked = 0
  online : w.session.isOnline = true
  sharing : w.sharing = true
  clean : w.sharedDirty = false

/-- The last whole offer of this login lists what is to be listed. -/
def World.Listed (w : World) : Prop := w.shared = [] ∨ w.offered = some (offersOf w.shared)

structure Current (w : World) : Prop where
  listed : w.Settled → w.Listed
  /-- Nothing was offered while sharing was off. -/
  consented : ∀ sharing ∈ w.begun, sharing = true

/-- A file leaves the library only with the flag up, or from behind those that an offer lists. An
    offer is cut short only if another will follow, or nothing had changed. -/
def Ok (w : World) : Op → Prop
  | .call (.unshareFile hash) | .call (.deleteSharedFile hash) => w.Settled →
      (w.unshareFile hash).shared = [] ∨
        offersOf (w.unshareFile hash).shared = offersOf w.shared
  | .offerEnds outcome => w.offering.isSome = true → outcome = .written ∨ w.unmarked ≠ 0 ∨
      w.sharedDirty = true ∨ w.offered = some (offersOf w.shared)
  | _ => True

/-! ## One offer -/

theorem offersOf_eq_nil {shared : List SharedFile} : offersOf shared = [] ↔ shared = [] := by
  simp [offersOf, MAX_OFFER]

namespace World

variable {w w' : World}

/-- The offer that is being written is needed, and lists the library as long as the flag is
    down. -/
structure Busy (w : World) (offers : List OfferedFile) : Prop where
  online : w.session.isOnline = true
  sharing : w.sharing = true
  nonempty : w.shared ≠ []
  lists : w.unmarked = 0 → w.sharedDirty = false → offers = offersOf w.shared

def Inv (w : World) : Prop := ∀ offers, w.offering = some offers → w.Busy offers

theorem inv_of_idle (h : w.offering = none) : w.Inv := by
  intro offers hoffers
  exact absurd (h.symm.trans hoffers) (by simp)

theorem current_of_not_settled (hconsented : ∀ sharing ∈ w.begun, sharing = true)
    (h : ¬ w.Settled) : Current w :=
  ⟨fun hs => absurd hs h, hconsented⟩

theorem not_settled_of_offline (h : w.session.isOnline = false) : ¬ w.Settled := by
  intro hs
  exact absurd (hs.online.symm.trans h) (by simp)

theorem not_settled_of_dirty (h : w.sharedDirty = true) : ¬ w.Settled := by
  intro hs
  exact absurd (hs.clean.symm.trans h) (by simp)

theorem inv_offerSharedTo (hidle : w.offering = none) (honline : w.session.isOnline = true) :
    w.offerSharedTo.Inv := by
  unfold offerSharedTo
  split_ifs with hsharing hempty
  · exact inv_of_idle hidle
  · exact inv_of_idle hidle
  · intro offers hoffers
    exact ⟨honline, by simpa [sharing] using hsharing, fun h => hempty (offersOf_eq_nil.mpr h),
      fun _ _ => (Option.some.inj hoffers).symm⟩

/-- An offer that does not begin is not needed. -/
theorem current_offerSharedTo (hconsented : ∀ sharing ∈ w.begun, sharing = true) :
    Current w.offerSharedTo := by
  unfold offerSharedTo
  split_ifs with hsharing hempty
  · refine current_of_not_settled hconsented fun hs => ?_
    rw [hs.sharing] at hsharing
    exact Bool.false_ne_true hsharing
  · exact ⟨fun _ => .inl (offersOf_eq_nil.mp hempty), hconsented⟩
  · refine current_of_not_settled (fun sharing hmem => ?_) fun hs => absurd hs.idle (by simp)
    rcases List.mem_append.mp hmem with hmem | hmem
    · exact hconsented sharing hmem
    · rw [List.mem_singleton.mp hmem]
      simpa using hsharing

/-! ## The calls -/

/-- What the offers depend on is as it was. -/
theorem current_of_same (h : Current w) (hidle : w'.offering = w.offering)
    (hmarked : w'.unmarked = w.unmarked) (honline : w'.session.isOnline = w.session.isOnline)
    (hflags : w'.session.flags = w.session.flags) (hshared : w'.shared = w.shared)
    (hoffered : w'.offered = w.offered) (hbegun : w'.begun = w.begun) : Current w' := by
  constructor
  · intro hs
    have hsharing : w.sharing = w'.sharing := by rw [sharing, sharing, hflags]
    have hdirty : w.sharedDirty = w'.sharedDirty := by rw [sharedDirty, sharedDirty, hflags]
    have hold : w.Settled := ⟨hidle ▸ hs.idle, hmarked ▸ hs.marked, honline ▸ hs.online,
      hsharing.trans hs.sharing, hdirty.trans hs.clean⟩
    rw [Listed, hshared, hoffered]
    exact h.listed hold
  · rw [hbegun]
    exact h.consented

theorem current_connectToServer (h : Current w) (addr : SocketAddr) (login : LoginRequest)
    (outcome : LoginOutcome) : Current (w.connectToServer addr login outcome) := by
  unfold connectToServer
  split_ifs with hoffline
  · exact h
  · dsimp only
    split_ifs with honline
    · exact current_offerSharedTo h.consented
    · exact current_of_not_settled h.consented (not_settled_of_offline (by simpa using honline))

theorem current_resume (h : Current w) (outcome : LoginOutcome) : Current (w.resume outcome) := by
  unfold resume
  dsimp only
  split_ifs with hlogin honline
  · exact current_of_not_settled h.consented (not_settled_of_dirty rfl)
  · exact current_of_not_settled h.consented (not_settled_of_offline (by simpa using honline))
  · obtain ⟨state, hresume⟩ :=
      ServerLogin.resume_idle (s := w.session) (by simpa using hlogin) outcome
    rw [hresume]
    exact current_of_same h rfl rfl rfl rfl rfl rfl rfl

theorem current_pollServerDrop (h : Current w) (closed : Bool) :
    Current { w with session := w.session.pollServerDrop closed } := by
  rcases ServerLogin.pollServerDrop_cases w.session closed with hsame | hdropped
  · rw [hsame]
    exact h
  · rw [hdropped]
    exact current_of_not_settled h.consented (not_settled_of_offline rfl)

theorem current_pause (h : Current w) : Current { w with session := w.session.pause } := by
  rw [ServerLogin.Session.pause]
  split_ifs
  · exact h
  · refine current_of_not_settled h.consented (not_settled_of_offline ?_)
    cases w.session.server with
    | none => rfl
    | some link => rfl

theorem current_pauseForSeeding (h : Current w) :
    Current { w with session := w.session.pauseForSeeding } := by
  rw [ServerLogin.Session.pauseForSeeding]
  split_ifs
  · exact h
  · exact current_of_same h rfl rfl rfl rfl rfl rfl rfl

theorem current_setSharing (h : Current w) (on : Bool) : Current (w.setSharing on) := by
  cases on with
  | true => exact current_of_not_settled h.consented (not_settled_of_dirty rfl)
  | false =>
    refine current_of_not_settled h.consented fun hs => ?_
    exact Bool.false_ne_true hs.sharing

theorem current_maintainShares (h : Current w) : Current w.maintainShares := by
  unfold maintainShares
  split_ifs
  · exact h
  · exact h
  · exact current_offerSharedTo h.consented

theorem current_verifySharedLibrary (h : Current w) (disk : Disk) :
    Current (w.verifySharedLibrary disk) := by
  unfold verifySharedLibrary
  split_ifs
  · exact h
  · exact current_of_not_settled h.consented (not_settled_of_dirty rfl)

/-- Nobody is told of a file that is not shared any more. -/
theorem current_unshareFile_iff (h : Current w) (hash : Hash16) :
    Current (w.unshareFile hash) ↔ Ok w (.call (.unshareFile hash)) := by
  have hsettled : (w.unshareFile hash).Settled ↔ w.Settled :=
    ⟨fun hs => ⟨hs.idle, hs.marked, hs.online, hs.sharing, hs.clean⟩,
      fun hs => ⟨hs.idle, hs.marked, hs.online, hs.sharing, hs.clean⟩⟩
  have hlisted (hs : w.Settled) : (w.unshareFile hash).Listed ↔
      (w.unshareFile hash).shared = [] ∨
        offersOf (w.unshareFile hash).shared = offersOf w.shared := by
    rcases h.listed hs with hempty | hoffered
    · have hempty' : (w.unshareFile hash).shared = [] := by simp [unshareFile, hempty]
      exact iff_of_true (.inl hempty') (.inl hempty')
    · have hsame : (w.unshareFile hash).offered = w.offered := rfl
      rw [Listed, hsame, hoffered, Option.some_inj]
      exact or_congr_right eq_comm
  constructor
  · exact fun hc hs => (hlisted hs).mp (hc.listed (hsettled.mpr hs))
  · exact fun hok => ⟨fun hs => (hlisted (hsettled.mp hs)).mpr (hok (hsettled.mp hs)), h.consented⟩

theorem deleteSharedFile_eq (w : World) (hash : Hash16) :
    w.deleteSharedFile hash = w.unshareFile hash := by
  unfold deleteSharedFile
  split_ifs with hnone
  · have hall : w.shared.filter (fun s => s.hash ≠ hash) = w.shared :=
      List.filter_eq_self.mpr (by simpa using hnone)
    rw [unshareFile, hall]
  · rfl

/-- The write of an offer has ended. -/
theorem current_offerEnds_iff (hi : w.Inv) (h : Current w) {offers : List OfferedFile}
    (hoffering : w.offering = some offers) (outcome : OfferOutcome) :
    Current { w with
      offering := none
      offered := if outcome = .written then some offers else w.offered } ↔
      Ok w (.offerEnds outcome) := by
  have hbusy := hi offers hoffering
  constructor
  · intro hc _
    by_cases hwritten : outcome = .written
    · exact .inl hwritten
    · by_cases hmarked : w.unmarked = 0
      · cases hdirty : w.sharedDirty with
        | true => exact .inr (.inr (.inl rfl))
        | false =>
          have hlisted := hc.listed ⟨rfl, hmarked, hbusy.online, hbusy.sharing, hdirty⟩
          rw [if_neg hwritten] at hlisted
          exact .inr (.inr (.inr (hlisted.resolve_left hbusy.nonempty)))
      · exact .inr (.inl hmarked)
  · intro hok
    refine ⟨fun hs => .inr ?_, h.consented⟩
    dsimp only
    rcases hok (by rw [hoffering, Option.isSome_some]) with rfl | hmarked | hdirty | hoffered
    · rw [if_pos rfl, hbusy.lists hs.marked hs.clean]
    · exact absurd hs.marked hmarked
    · exact absurd (hdirty.symm.trans hs.clean) (by simp)
    · split_ifs
      · rw [hbusy.lists hs.marked hs.clean]
      · exact hoffered

/-! ## Runs -/

theorem inv_call (hidle : w.offering = none) (call : Call) : (w.call call).Inv := by
  cases call with
  | connectToServer addr login outcome =>
    rw [World.call, connectToServer]
    split_ifs
    · exact inv_of_idle hidle
    · dsimp only
      split_ifs with honline
      · exact inv_offerSharedTo hidle honline
      · exact inv_of_idle hidle
  | maintainShares =>
    rw [World.call, maintainShares]
    split_ifs with hclean hoffline
    · exact inv_of_idle hidle
    · exact inv_of_idle hidle
    · have honline : w.session.isOnline = true := by simpa using hoffline
      exact inv_offerSharedTo hidle honline
  | resume outcome =>
    rw [World.call, resume]
    dsimp only
    split_ifs
    · exact inv_of_idle hidle
    · exact inv_of_idle hidle
    · exact inv_of_idle hidle
  | deleteSharedFile hash =>
    rw [World.call, deleteSharedFile_eq]
    exact inv_of_idle hidle
  | verifySharedLibrary disk =>
    rw [World.call, verifySharedLibrary]
    split_ifs
    · exact inv_of_idle hidle
    · exact inv_of_idle hidle
  | disconnectServer | pollServerDrop | pause | pauseForSeeding | setSharing | unshareFile =>
    exact inv_of_idle hidle

theorem current_call_iff (h : Current w) (call : Call) :
    Current (w.call call) ↔ Ok w (.call call) := by
  cases call with
  | connectToServer addr login outcome =>
    exact iff_of_true (current_connectToServer h addr login outcome) trivial
  | disconnectServer =>
    exact iff_of_true (current_of_not_settled h.consented (not_settled_of_offline rfl)) trivial
  | pollServerDrop closed => exact iff_of_true (current_pollServerDrop h closed) trivial
  | pause => exact iff_of_true (current_pause h) trivial
  | pauseForSeeding => exact iff_of_true (current_pauseForSeeding h) trivial
  | resume outcome => exact iff_of_true (current_resume h outcome) trivial
  | setSharing on => exact iff_of_true (current_setSharing h on) trivial
  | maintainShares => exact iff_of_true (current_maintainShares h) trivial
  | unshareFile hash => exact current_unshareFile_iff h hash
  | deleteSharedFile hash =>
    rw [World.call, deleteSharedFile_eq]
    exact current_unshareFile_iff h hash
  | verifySharedLibrary disk => exact iff_of_true (current_verifySharedLibrary h disk) trivial

theorem Inv.step {op : Op} (h : w.Inv) (hs : step w op = some w') : w'.Inv := by
  cases op with
  | call call =>
    obtain ⟨hbusy, hs⟩ := Option.ite_none_left_eq_some.mp hs
    obtain rfl := Option.some.inj hs
    exact inv_call (by simpa using hbusy) call
  | offerEnds outcome =>
    obtain ⟨offers, -, rfl⟩ := Option.map_eq_some_iff.mp hs
    exact inv_of_idle rfl
  | finishPush f =>
    obtain rfl := Option.some.inj hs
    intro offers hoffers
    have hbusy := h offers hoffers
    exact ⟨hbusy.online, hbusy.sharing, by simp, fun hmarked => absurd hmarked (by simp)⟩
  | finishMark =>
    obtain ⟨-, hs⟩ := Option.ite_none_left_eq_some.mp hs
    obtain rfl := Option.some.inj hs
    intro offers hoffers
    have hbusy := h offers hoffers
    exact ⟨hbusy.online, hbusy.sharing, hbusy.nonempty, fun _ hclean => by cases hclean⟩

theorem current_step_iff {op : Op} (hi : w.Inv) (h : Current w) (hs : step w op = some w') :
    Current w' ↔ Ok w op := by
  cases op with
  | call call =>
    obtain ⟨-, hs⟩ := Option.ite_none_left_eq_some.mp hs
    obtain rfl := Option.some.inj hs
    exact current_call_iff h call
  | offerEnds outcome =>
    obtain ⟨offers, hoffering, rfl⟩ := Option.map_eq_some_iff.mp hs
    exact current_offerEnds_iff hi h hoffering outcome
  | finishPush f =>
    obtain rfl := Option.some.inj hs
    refine iff_of_true (current_of_not_settled h.consented fun hs => ?_) trivial
    exact absurd hs.marked (Nat.succ_ne_zero _)
  | finishMark =>
    obtain ⟨-, hs⟩ := Option.ite_none_left_eq_some.mp hs
    obtain rfl := Option.some.inj hs
    exact iff_of_true (current_of_not_settled h.consented (not_settled_of_dirty rfl)) trivial

theorem ok_of_none {op : Op} (hs : step w op = none) : Ok w op := by
  cases op with
  | call call =>
    have hbusy : w.offering ≠ none := by simpa [step] using hs
    have hnot : ¬ w.Settled := fun h => hbusy h.idle
    cases call with
    | unshareFile hash => exact fun h => absurd h hnot
    | deleteSharedFile hash => exact fun h => absurd h hnot
    | _ => trivial
  | offerEnds outcome =>
    have hidle : w.offering = none := by simpa [step] using hs
    exact fun hbusy => by simp [hidle] at hbusy
  | finishPush f => trivial
  | finishMark => trivial

theorem current_new (dir : SharingPause.ConfigDir) (offline : Bool) (shared : List SharedFile) :
    Current (new dir offline shared) :=
  current_of_not_settled (fun _ h => absurd h List.not_mem_nil) (not_settled_of_offline rfl)

end World

/-- The server's picture is right in every state of a run, exactly if every step is one of those
    that keep it. -/
theorem offers_current_iff (dir : SharingPause.ConfigDir) (offline : Bool)
    (shared : List SharedFile) (ops : List Op) :
    Runs.Always step Current (.new dir offline shared) ops ↔
      Runs.Throughout step Ok (.new dir offline shared) ops :=
  Runs.always_iff_throughout (fun _ _ _ => World.Inv.step) (fun _ _ => World.ok_of_none)
    (fun _ _ _ => World.current_step_iff) (World.inv_of_idle rfl)
    (World.current_new dir offline shared) ops

/-- A file of one byte. -/
def tinyFile (n : UInt8) : SharedFile := ⟨.fill 16 n, 1, [n], [], "f", 0, "", none⟩

/-- Logged in and sharing, with an offer of two files that was written. -/
def offeredTwo : List Op :=
  [.call (.connectToServer ServerLogin.someServer ServerLogin.someLogin
      (.answered ⟨0x01020304, none⟩)), .offerEnds .written]

/-- A file that is unshared stays listed, and one that has finished stays unlisted where its offer
    was cut short. -/
theorem server_keeps_stale_list :
    ¬ Runs.Always step Current (.new ⟨true, false⟩ false [tinyFile 1, tinyFile 2])
        (offeredTwo ++ [.call (.unshareFile (.fill 16 1))]) ∧
      ¬ Runs.Always step Current (.new ⟨true, false⟩ false [tinyFile 1, tinyFile 2])
        (offeredTwo ++ [.finishPush (tinyFile 3), .finishMark, .call .maintainShares,
          .offerEnds .cut]) := by
  refine ⟨fun h => ?_, fun h => ?_⟩
  · obtain ⟨w, hrun, hsettled, hlisted⟩ : ∃ w, Runs.run step
        (.new ⟨true, false⟩ false [tinyFile 1, tinyFile 2])
        (offeredTwo ++ [.call (.unshareFile (.fill 16 1))]) = some w ∧ w.Settled ∧ ¬ w.Listed :=
      ⟨_, rfl, ⟨rfl, rfl, rfl, rfl, rfl⟩, by unfold World.Listed; decide +kernel⟩
    exact hlisted ((h.run hrun).listed hsettled)
  · obtain ⟨w, hrun, hsettled, hlisted⟩ : ∃ w, Runs.run step
        (.new ⟨true, false⟩ false [tinyFile 1, tinyFile 2])
        (offeredTwo ++ [.finishPush (tinyFile 3), .finishMark, .call .maintainShares,
          .offerEnds .cut]) = some w ∧ w.Settled ∧ ¬ w.Listed :=
      ⟨_, rfl, ⟨rfl, rfl, rfl, rfl, rfl⟩, by unfold World.Listed; decide +kernel⟩
    exact hlisted ((h.run hrun).listed hsettled)

end PadMule.Engine.ShareOffers
