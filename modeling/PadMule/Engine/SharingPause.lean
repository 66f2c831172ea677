import PadMule.Lib.Runs

/-
  `mule-engine/src/engine.rs`: whether we share, over logins, toggles, crashes and launches.

  `set_sharing` and `note_public_id` go through their stores and file operations one at a time,
  and the process may die between any two of them; `Engine::new` reads the two marker files.
  Each call has one step that settles it: the write or removal of its marker, or the first step
  where it writes none. A call cut off before that step has not happened for the next launch, one
  cut off after it has; so the history that the next launch answers for holds the settled calls,
  all that returned and some that did not (`sharing_waits_for_user`).
-/

namespace PadMule.Engine.SharingPause

/-! ## The decisions of the user and the server -/

inductive Event where
  /-- `Engine::new`. -/
  | started
  | setSharing (on : Bool)
  | notePublicId (id : UInt32) (lowId : Bool)
deriving DecidableEq

/-- Newest first. -/
abbrev History := List Event

/-- The last HighID id of this process. -/
def prevHighId : History → Option UInt32
  | [] => none
  | .started :: _ => none
  | .notePublicId id false :: _ => some id
  | .notePublicId _ true :: h | .setSharing _ :: h => prevHighId h

/-- The last `set_sharing` was on, and after it no HighID login reported an id other than the
    previous one of its process. -/
def Decided : History → Prop
  | [] => False
  | .setSharing on :: _ => on = true
  | .notePublicId id false :: h => (∀ prev, prevHighId h = some prev → prev = id) ∧ Decided h
  | .notePublicId _ true :: h | .started :: h => Decided h

/-! ## The two markers and the flags -/

/-- Which of the two marker files exist. -/
structure ConfigDir where
  /-- `sharing_on.txt` -/
  sharingPref : Bool
  /-- `sharing_paused_for_ip_change.txt` -/
  ipPause : Bool
deriving DecidableEq

/-- What the running engine holds. -/
structure Flags where
  sharing : Bool
  sharingPausedForIpChange : Bool
  /-- `status.ip_paused` -/
  ipPaused : Bool
  lastPublicId : Option UInt32
  serverHighId : Bool
  sharedDirty : Bool
deriving DecidableEq

/-- `Engine::new`. -/
def Flags.new (dir : ConfigDir) : Flags where
  sharing := !dir.ipPause && dir.sharingPref
  sharingPausedForIpChange := dir.ipPause
  ipPaused := dir.ipPause
  lastPublicId := none
  serverHighId := false
  sharedDirty := false

/-- One store or one file operation. -/
inductive Effect where
  | storeSharing (on : Bool)
  | writePref
  | removePref
  | setPaused (paused : Bool)
  | storeIpPaused (paused : Bool)
  | writePause
  | removePause
  | storeSharedDirty
  | setServerHighId (high : Bool)
  | setLastPublicId (id : UInt32)
deriving DecidableEq

def Effect.onFlags (e : Flags) : Effect → Flags
  | .storeSharing on => { e with sharing := on }
  | .setPaused paused => { e with sharingPausedForIpChange := paused }
  | .storeIpPaused paused => { e with ipPaused := paused }
  | .storeSharedDirty => { e with sharedDirty := true }
  | .setServerHighId high => { e with serverHighId := high }
  | .setLastPublicId id => { e with lastPublicId := some id }
  | .writePref | .removePref | .writePause | .removePause => e

def Effect.onDir (dir : ConfigDir) : Effect → ConfigDir
  | .writePref => { dir with sharingPref := true }
  | .removePref => { dir with sharingPref := false }
  | .writePause => { dir with ipPause := true }
  | .removePause => { dir with ipPause := false }
  | .storeSharing _ | .setPaused _ | .storeIpPaused _ | .storeSharedDirty | .setServerHighId _
  | .setLastPublicId _ => dir

def setSharing (on : Bool) : List Effect :=
  if on then
    [.storeSharing true, .writePref, .setPaused false, .storeIpPaused false, .removePause,
      .storeSharedDirty]
  else [.storeSharing false, .removePref]

def notePublicId (lastPublicId : Option UInt32) (id : UInt32) (lowId : Bool) : List Effect :=
  if lowId then [.setServerHighId false]
  else
    match lastPublicId with
    | some prev =>
      if prev ≠ id then
        [.setServerHighId true, .storeSharing false, .setPaused true, .storeIpPaused true,
          .writePause, .setLastPublicId id]
      else [.setServerHighId true, .setLastPublicId id]
    | none => [.setServerHighId true, .setLastPublicId id]

/-- What a call will do, from its arguments and the engine it finds. -/
def Event.effects (e : Flags) : Event → List Effect
  | .started => []
  | .setSharing on => SharingPause.setSharing on
  | .notePublicId id lowId => SharingPause.notePublicId e.lastPublicId id lowId

/-- The step that settles a call. -/
def Event.settledBy : Event → Effect → Bool
  | .setSharing true, .storeSharing _ => true
  | .setSharing false, .removePref => true
  | .notePublicId _ true, .setServerHighId _ => true
  | .notePublicId _ false, .writePause => true
  | .notePublicId _ false, .setLastPublicId _ => true
  | _, _ => false

/-! ## Calls, crashes and launches -/

structure Call where
  event : Event
  settled : Bool
  todo : List Effect
deriving DecidableEq

structure World where
  dir : ConfigDir
  engine : Option Flags
  call : Option Call
  /-- The calls made, the settled ones, and the ones that returned. -/
  made : History
  settled : History
  returned : History
deriving DecidableEq

/-- Before the first launch. -/
def World.fresh : World := ⟨⟨false, false⟩, none, none, [], [], []⟩

inductive Op where
  | launch
  | call (event : Event)
  /-- The running call's next store or file operation. -/
  | tick
  | crash
deriving DecidableEq

/-- The running call takes one effect; the last one lets it return. -/
def World.afterEffect (w : World) (e : Flags) (c : Call) (effect : Effect) (todo : List Effect) :
    World :=
  let settles := !c.settled && c.event.settledBy effect
  { w with
    dir := effect.onDir w.dir
    engine := some (effect.onFlags e)
    call := if todo = [] then none else some ⟨c.event, c.settled || settles, todo⟩
    settled := if settles then c.event :: w.settled else w.settled
    returned := if todo = [] then c.event :: w.returned else w.returned }

def World.step (w : World) : Op → Option World
  | .launch =>
    match w.engine with
    | some _ => none
    | none => some { w with
        engine := some (.new w.dir)
        made := .started :: w.made
        settled := .started :: w.settled
        returned := .started :: w.returned }
  | .call event =>
    match w.engine, w.call with
    | some e, none =>
      match event.effects e with
      | [] => none
      | todo => some { w with call := some ⟨event, false, todo⟩, made := event :: w.made }
    | _, _ => none
  | .tick =>
    match w.engine, w.call with
    | some e, some ⟨event, settled, effect :: todo⟩ =>
      some (w.afterEffect e ⟨event, settled, effect :: todo⟩ effect todo)
    | _, _ => none
  | .crash => w.engine.map fun _ => { w with engine := none, call := none }


/-! ## What holds in every moment -/

/-- Whoever shares now, or would after a launch, was told to. -/
@[mk_iff] structure Good (w : World) : Prop where
  dir : w.dir.sharingPref = true → w.dir.ipPause = false → Decided w.settled
  engine : ∀ e, w.engine = some e → e.sharing = true → Decided w.settled
  settled : w.settled.Sublist w.made
  returned : w.returned.Sublist w.settled

/-- No call is running: the flags and the guard's memory are what the files and the history say. -/
@[mk_iff] structure Rest (w : World) : Prop extends Good w where
  call : w.call = none
  paused : ∀ e, w.engine = some e →
    e.sharingPausedForIpChange = w.dir.ipPause ∧ e.ipPaused = w.dir.ipPause
  memory : ∀ e, w.engine = some e → e.lastPublicId = prevHighId w.settled

/-- Good now, and in each of the steps that bring the running call to rest. -/
def Lasting : Nat → World → Prop
  | 0, w => Rest w
  | n + 1, w => Good w ∧ ∃ w', w.step .tick = some w' ∧ Lasting n w'

theorem Lasting.good {n : Nat} {w : World} (h : Lasting n w) : Good w := by
  cases n with
  | zero => exact h.toGood
  | succ n => exact h.1

theorem Lasting.idle {n : Nat} {w : World} (h : Lasting n w)
    (hidle : w.engine = none ∨ w.call = none) : Rest w := by
  cases n with
  | zero => exact h
  | succ n =>
    obtain ⟨-, w', hstep, -⟩ := h
    rcases hidle with hidle | hidle <;> simp [World.step, hidle] at hstep

/-- One step of a call: what holds in front of it and what lasts after it. -/
theorem Lasting.tick {n : Nat} {w : World} {e : Flags} {event : Event} {settled : Bool}
    {effect : Effect} {todo : List Effect} (hengine : w.engine = some e)
    (hcall : w.call = some ⟨event, settled, effect :: todo⟩) (hgood : Good w)
    (h : Lasting n (w.afterEffect e ⟨event, settled, effect :: todo⟩ effect todo)) :
    Lasting (n + 1) w := by
  refine ⟨hgood, _, ?_, h⟩
  rw [World.step, hengine, hcall]

section

attribute [local simp] World.afterEffect good_iff rest_iff Effect.onFlags Effect.onDir
  Event.settledBy Decided prevHighId

/-- A call made at rest lasts: it goes through its steps and comes to rest again. -/
theorem Rest.call_lasts {w : World} (h : Rest w) {e : Flags} (he : w.engine = some e)
    (event : Event) (hne : event.effects e ≠ []) :
    Lasting (event.effects e).length
      { w with call := some ⟨event, false, event.effects e⟩, made := event :: w.made } := by
  obtain ⟨⟨hdir, hengine, hsettled, hreturned⟩, hcall, hpaused, hmemory⟩ := h
  obtain ⟨⟨pref, pause⟩, engine, call, made, settled, returned⟩ := w
  obtain ⟨sharing, paused, ipPaused, last, high, dirty⟩ := e
  simp only at hdir hengine hsettled hreturned hcall hpaused hmemory he
  subst he
  simp only [Option.some.injEq, forall_eq'] at hengine hpaused hmemory
  obtain ⟨rfl, rfl⟩ := hpaused
  subst hmemory hcall
  have hmade : settled.Sublist (event :: made) := hsettled.cons event
  cases event with
  | started => exact absurd rfl hne
  | setSharing on =>
    cases on with
    | true =>
      -- from its first step on the user has decided, whatever is on disk
      show Lasting 6 _
      refine .tick rfl rfl (by simpa [*] using ⟨hdir, hengine⟩) ?_
      iterate 5 refine .tick rfl rfl (by simp [*]) ?_
      simp [Lasting, *]
    | false =>
      -- nothing is shared before the marker goes, and none is left after
      show Lasting 2 _
      refine .tick rfl rfl (by simpa [*] using ⟨hdir, hengine⟩) ?_
      refine .tick rfl rfl (by simpa [*] using hdir) ?_
      simp [Lasting, *]
  | notePublicId id lowId =>
    cases lowId with
    | true =>
      show Lasting 1 _
      refine .tick rfl rfl (by simpa [*] using ⟨hdir, hengine⟩) ?_
      simpa [Lasting, *] using ⟨hdir, hengine⟩
    | false =>
      cases hprev : prevHighId settled with
      | none =>
        show Lasting 2 _
        refine .tick rfl rfl (by simpa [*] using ⟨hdir, hengine⟩) ?_
        refine .tick rfl rfl (by simpa [*] using ⟨hdir, hengine⟩) ?_
        simpa [Lasting, *] using ⟨hdir, hengine⟩
      | some prev =>
        by_cases hid : prev = id
        · have hsame : SharingPause.notePublicId (some prev) id false =
              [.setServerHighId true, .setLastPublicId id] := if_neg (not_not.mpr hid)
          simp only [Event.effects, hsame]
          refine .tick rfl rfl (by simpa [*] using ⟨hdir, hengine⟩) ?_
          refine .tick rfl rfl (by simpa [*] using ⟨hdir, hengine⟩) ?_
          simpa [Lasting, *] using ⟨hdir, hengine⟩
        · -- the guard trips: off at once, and the marker is written before the id is kept
          have htrips : SharingPause.notePublicId (some prev) id false =
              [.setServerHighId true, .storeSharing false, .setPaused true, .storeIpPaused true,
                .writePause, .setLastPublicId id] := if_pos hid
          simp only [Event.effects, htrips]
          refine .tick rfl rfl (by simpa [*] using ⟨hdir, hengine⟩) ?_
          refine .tick rfl rfl (by simpa [*] using ⟨hdir, hengine⟩) ?_
          iterate 3 refine .tick rfl rfl (by simpa [*] using hdir) ?_
          refine .tick rfl rfl (by simp [*]) ?_
          simp [Lasting, *]

end

theorem Rest.launch {w : World} (h : Rest w) : Rest { w with
    engine := some (.new w.dir)
    made := .started :: w.made
    settled := .started :: w.settled
    returned := .started :: w.returned } where
  dir := h.dir
  engine e he hsharing := by
    obtain rfl := Option.some.inj he
    have hboth : w.dir.ipPause = false ∧ w.dir.sharingPref = true := by
      simpa [Flags.new] using hsharing
    exact h.dir hboth.2 hboth.1
  settled := h.settled.cons_cons _
  returned := h.returned.cons_cons _
  call := h.call
  paused e he := by
    obtain rfl := Option.some.inj he
    exact ⟨rfl, rfl⟩
  memory e he := by
    obtain rfl := Option.some.inj he
    rfl

theorem Good.crash {w : World} (h : Good w) : Rest { w with engine := none, call := none } where
  dir := h.dir
  engine := by simp
  settled := h.settled
  returned := h.returned
  call := rfl
  paused := by simp
  memory := by simp

def Sound (w : World) : Prop := ∃ n, Lasting n w

theorem Sound.step {w w' : World} {op : Op} (h : Sound w) (hstep : w.step op = some w') :
    Sound w' := by
  obtain ⟨n, h⟩ := h
  cases op with
  | launch =>
    cases hengine : w.engine with
    | some e => simp [World.step, hengine] at hstep
    | none =>
      simp only [World.step, hengine, Option.some.injEq] at hstep
      exact ⟨0, hstep ▸ (h.idle (.inl hengine)).launch⟩
  | call event =>
    cases hengine : w.engine with
    | none => simp [World.step, hengine] at hstep
    | some e =>
      cases hcall : w.call with
      | some c => simp [World.step, hengine, hcall] at hstep
      | none =>
        cases heffects : event.effects e with
        | nil => simp [World.step, hengine, hcall, heffects] at hstep
        | cons effect todo =>
          simp only [World.step, hengine, hcall, heffects, Option.some.injEq] at hstep
          have hlasts := (h.idle (.inr hcall)).call_lasts hengine event (by simp [heffects])
          rw [heffects, hengine] at hlasts
          exact ⟨_, hstep ▸ hlasts⟩
  | tick =>
    cases n with
    | zero => simp [World.step, h.call] at hstep
    | succ n =>
      obtain ⟨-, next, hnext, hlasts⟩ := h
      exact ⟨n, Option.some.inj (hnext.symm.trans hstep) ▸ hlasts⟩
  | crash =>
    cases hengine : w.engine with
    | none => simp [World.step, hengine] at hstep
    | some e =>
      simp only [World.step, hengine, Option.map_some, Option.some.injEq] at hstep
      exact ⟨0, hstep ▸ h.good.crash⟩

theorem rest_fresh : Rest .fresh where
  dir := by simp [World.fresh]
  engine := by simp [World.fresh]
  settled := .slnil
  returned := .slnil
  call := rfl
  paused := by simp [World.fresh]
  memory := by simp [World.fresh]

theorem run_sound {ops : List Op} {w : World} (hrun : Runs.run World.step .fresh ops = some w) :
    Sound w :=
  Runs.run_induct (fun _ _ _ => Sound.step) ⟨0, rest_fresh⟩ hrun

/-! ## Sharing waits for the user -/

/-- In every moment of every run, crashes inside a call included: who shares was told to and has
    seen no new address since; the settled calls are made ones, and all that returned; at rest the
    paused flags say whether the marker is there; and a LowID login moves nothing but
    `server_high_id`. -/
theorem sharing_waits_for_user (ops : List Op) (w : World) (e : Flags)
    (hrun : Runs.run World.step .fresh ops = some w) (he : w.engine = some e) :
    (e.sharing = true → Decided w.settled) ∧
      w.returned.Sublist w.settled ∧ w.settled.Sublist w.made ∧
      (w.call = none →
        e.sharingPausedForIpChange = w.dir.ipPause ∧ e.ipPaused = w.dir.ipPause) ∧
      ∀ id, (notePublicId e.lastPublicId id true).foldl Effect.onFlags e =
          { e with serverHighId := false } ∧
        (notePublicId e.lastPublicId id true).foldl Effect.onDir w.dir = w.dir := by
  obtain ⟨n, h⟩ := run_sound hrun
  refine ⟨h.good.engine e he, h.good.returned, h.good.settled, fun hcall => ?_, fun id => ?_⟩
  · exact (h.idle (.inr hcall)).paused e he
  · exact ⟨rfl, rfl⟩

/-- The user shares, the address changes with a LowID login in between, and the process dies right
    after the marker is written. -/
def tripped : List Op :=
  [.launch, .call (.setSharing true)] ++ List.replicate 6 .tick ++
    [.call (.notePublicId 0x01020304 false), .tick, .tick, .call (.notePublicId 7 true), .tick,
      .call (.notePublicId 0x05060708 false), .tick, .tick, .tick, .tick, .tick, .crash, .launch]

theorem tripped_stays_off :
    ∃ w e, Runs.run World.step .fresh tripped = some w ∧ w.engine = some e ∧
      e.sharing = false ∧ e.sharingPausedForIpChange = true := by
  obtain ⟨w, hrun⟩ : ∃ w, Runs.run World.step .fresh tripped = some w :=
    Option.isSome_iff_exists.mp (by decide +kernel)
  obtain ⟨e, he⟩ : ∃ e, w.engine = some e := by
    have hup : ((Runs.run World.step .fresh tripped).bind World.engine).isSome := by decide +kernel
    exact Option.isSome_iff_exists.mp (by simpa [hrun] using hup)
  have hsettled : (Runs.run World.step .fresh tripped).map World.settled =
      some [.started, .notePublicId 0x05060708 false, .notePublicId 7 true,
        .notePublicId 0x01020304 false, .setSharing true, .started] := by decide +kernel
  have hcall : (Runs.run World.step .fresh tripped).map (fun w => (w.call, w.dir.ipPause)) =
      some (none, true) := by decide +kernel
  simp only [hrun, Option.map_some, Option.some.injEq, Prod.mk.injEq] at hsettled hcall
  obtain ⟨hsharing, -, -, hpaused, -⟩ := sharing_waits_for_user tripped w e hrun he
  refine ⟨w, e, hrun, he, ?_, (hpaused hcall.1).1.trans hcall.2⟩
  rw [hsettled] at hsharing
  exact Bool.eq_false_iff.mpr fun hon => absurd (hsharing hon) (by simp [Decided, prevHighId])

/-- A crash inside `set_sharing(false)`, before the marker goes. -/
def offCutShort : List Op :=
  [.launch, .call (.setSharing true)] ++ List.replicate 6 .tick ++
    [.call (.setSharing false), .tick, .crash, .launch]

/-- A crash inside `set_sharing(true)`, after the marker is written. -/
def onCutShort : List Op := [.launch, .call (.setSharing true), .tick, .tick, .crash, .launch]

/-- Neither the calls made nor the calls returned justify the sharing after a crash inside one. -/
theorem cut_calls_decide :
    ¬(∀ ops w e, Runs.run World.step .fresh ops = some w → w.engine = some e →
        e.sharing = true → Decided w.made) ∧
      ¬(∀ ops w e, Runs.run World.step .fresh ops = some w → w.engine = some e →
        e.sharing = true → Decided w.returned) := by
  have hoff : Runs.run World.step .fresh offCutShort = some ⟨⟨true, false⟩,
      some ⟨true, false, false, none, false, false⟩, none,
      [.started, .setSharing false, .setSharing true, .started],
      [.started, .setSharing true, .started], [.started, .setSharing true, .started]⟩ := by
    decide +kernel
  have hon : Runs.run World.step .fresh onCutShort = some ⟨⟨true, false⟩,
      some ⟨true, false, false, none, false, false⟩, none,
      [.started, .setSharing true, .started], [.started, .setSharing true, .started],
      [.started, .started]⟩ := by decide +kernel
  refine ⟨fun h => ?_, fun h => ?_⟩
  · simpa [Decided] using h _ _ _ hoff rfl rfl
  · simpa [Decided] using h _ _ _ hon rfl rfl

end PadMule.Engine.SharingPause
