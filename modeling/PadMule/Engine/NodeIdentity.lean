import PadMule.Files.Preferences
import PadMule.Lib.FileMap
import PadMule.Lib.Runs

/-
  `mule-engine/src/identity.rs`: the node's identity from launch to launch.

  A launch reads the four files, draws what it cannot read, and writes all four again. A read may
  fail, and the process may die between two writes or inside one, where it leaves the file cut to
  a prefix of the new bytes.
  Since every launch writes every file, an intact file is at risk in each of them: a launch that
  dies inside a write, or cannot read a file that is there, costs the part that file keeps. Where
  neither happens the identity of the first launch that returned is the identity of all later ones
  (`identity_survives`).
-/

namespace PadMule.Engine

open PadMule.Proto PadMule.Files FileMap LittleEndian

/-- `preferences.dat`, `preferencesKad.dat`, `kadudpkey.dat` and `cryptkey.dat`. -/
inductive IdFile where
  | preferences
  | preferencesKad
  | kadUdpKey
  | cryptKey
deriving DecidableEq

/-- The order in which they are written. -/
def IdFile.order : List IdFile := [.preferences, .preferencesKad, .kadUdpKey, .cryptKey]

instance : Fintype IdFile := ⟨⟨IdFile.order, by decide⟩, fun f => by cases f <;> decide⟩

abbrev IdDir := Dir IdFile Bytes

/-- The base64 of the PKCS#8 form of private keys `κ`. -/
structure RsaCodec (κ : Type) where
  fromCryptkeyDat : Bytes → Option κ
  toCryptkeyDat : κ → Bytes
  round_trip : ∀ key, fromCryptkeyDat (toCryptkeyDat key) = some key

structure NodeIdentity (κ : Type) where
  userhash : Hash16
  kadId : Kad128
  kadUdpKey : UInt32
  rsa : κ
deriving DecidableEq

/-- How a launch ends: it returns, or it dies after some of its writes, and maybe inside the next
    one, with that many bytes of it on disk. -/
inductive Fate where
  | returned
  | died (done : Nat) (cut : Option Nat)

structure Launch (κ : Type) where
  /-- The files whose read fails. -/
  fails : IdFile → Bool
  /-- What this launch draws where it draws; the userhash is not marked yet. -/
  random : NodeIdentity κ
  fate : Fate

variable {κ : Type} (R : RsaCodec κ)

def generateUserhash (random : Hash16) : Hash16 :=
  ⟨(random.bytes.set 5 14).set 14 111, by simp [random.len]⟩

/-! ## The four files -/

def readUserhash (b : Bytes) : Option Hash16 := (readPreferencesDat b).toOption

def readKadId (b : Bytes) : Option Kad128 := (readKadPrefs b).toOption.map KadPrefs.kadId

def readKadUdpKey (b : Bytes) : Option UInt32 :=
  if 4 ≤ b.length then some (.ofNat (ofLE (b.take 4))) else none

/-- What `save` writes into a file. -/
def identityBytes (id : NodeIdentity κ) : IdFile → Bytes
  | .preferences => writePreferencesDat id.userhash
  | .preferencesKad => writeKadPrefs ⟨0, id.kadId⟩
  | .kadUdpKey => writeU32 id.kadUdpKey
  | .cryptKey => R.toCryptkeyDat id.rsa

/-- These bytes read as the part of the identity that the file is for. -/
def Keeps (id : NodeIdentity κ) (b : Bytes) : IdFile → Prop
  | .preferences => readUserhash b = some id.userhash
  | .preferencesKad => readKadId b = some id.kadId
  | .kadUdpKey => readKadUdpKey b = some id.kadUdpKey
  | .cryptKey => R.fromCryptkeyDat b = some id.rsa

/-- The two have the part in common that the file is for. -/
def Agree (a b : NodeIdentity κ) : IdFile → Prop
  | .preferences => a.userhash = b.userhash
  | .preferencesKad => a.kadId = b.kadId
  | .kadUdpKey => a.kadUdpKey = b.kadUdpKey
  | .cryptKey => a.rsa = b.rsa

instance [DecidableEq κ] (id : NodeIdentity κ) (b : Bytes) (f : IdFile) :
    Decidable (Keeps R id b f) := by
  cases f <;> exact inferInstanceAs (Decidable (_ = _))

theorem eq_of_agree {a b : NodeIdentity κ} (h : ∀ f, Agree a b f) : a = b := by
  obtain ⟨u, k, d, r⟩ := a
  obtain ⟨u', k', d', r'⟩ := b
  obtain ⟨rfl, rfl, rfl, rfl⟩ : u = u' ∧ k = k' ∧ d = d' ∧ r = r' :=
    ⟨h .preferences, h .preferencesKad, h .kadUdpKey, h .cryptKey⟩
  rfl

theorem identityBytes_congr {a b : NodeIdentity κ} {f : IdFile} (h : Agree a b f) :
    identityBytes R a f = identityBytes R b f := by
  cases f with
  | preferences => exact congrArg writePreferencesDat h
  | preferencesKad => exact congrArg (fun k => writeKadPrefs ⟨0, k⟩) h
  | kadUdpKey => exact congrArg writeU32 h
  | cryptKey => exact congrArg R.toCryptkeyDat h

/-- One file cannot keep two parts. -/
theorem Keeps.agree {a b : NodeIdentity κ} {bytes : Bytes} {f : IdFile} (ha : Keeps R a bytes f)
    (hb : Keeps R b bytes f) : Agree a b f := by
  cases f <;> exact Option.some.inj (Eq.trans (Eq.symm ha) hb)

/-- What is written in full is kept, the userhash if it is marked. -/
theorem keeps_identityBytes {id : NodeIdentity κ} (hmarked : applyUserhashMarkers id.userhash = id.userhash)
    (f : IdFile) : Keeps R id (identityBytes R id f) f := by
  cases f with
  | preferences =>
    show (readPreferencesDat (writePreferencesDat id.userhash)).toOption = _
    rw [readPreferencesDat_write, hmarked]
    rfl
  | preferencesKad =>
    show (readKadPrefs (writeKadPrefs ⟨0, id.kadId⟩)).toOption.map _ = _
    rw [readKadPrefs_write]
    rfl
  | kadUdpKey =>
    have hlen : (writeU32 id.kadUdpKey).length = 4 := length_toLE 4 _
    show readKadUdpKey (writeU32 id.kadUdpKey) = _
    rw [readKadUdpKey, if_pos hlen.ge, List.take_of_length_le hlen.le, Kad128.ofLE_writeU32]
  | cryptKey => exact R.round_trip id.rsa

theorem Keeps.marked {id : NodeIdentity κ} {b : Bytes} (h : Keeps R id b .preferences) :
    applyUserhashMarkers id.userhash = id.userhash := by
  have hread : (readPreferencesDat b).toOption = some id.userhash := h
  cases hb : readPreferencesDat b with
  | error e =>
    rw [hb] at hread
    cases hread
  | ok userhash =>
    rw [hb] at hread
    cases hread
    exact marked_of_read hb

/-! ## One launch -/

/-- `fs::read(..).ok()` -/
def readIdFile (d : IdDir) (fails : IdFile → Bool) (f : IdFile) : Option Bytes :=
  if fails f then none else get d f

/-- The loading half of `load_or_create`. -/
def loadOrDraw (d : IdDir) (l : Launch κ) : NodeIdentity κ where
  userhash := ((readIdFile d l.fails .preferences).bind readUserhash).getD
    (generateUserhash l.random.userhash)
  kadId := ((readIdFile d l.fails .preferencesKad).bind readKadId).getD l.random.kadId
  kadUdpKey := ((readIdFile d l.fails .kadUdpKey).bind readKadUdpKey).getD l.random.kadUdpKey
  rsa := ((readIdFile d l.fails .cryptKey).bind R.fromCryptkeyDat).getD l.random.rsa

/-- The writes of `save`. -/
def saveWrites (id : NodeIdentity κ) : List (IdFile × Bytes) :=
  IdFile.order.map fun f => (f, identityBytes R id f)

namespace Fate

/-- What gets to the disk of a list of writes. -/
def writes : Fate → List (IdFile × Bytes) → List (IdFile × Bytes)
  | returned, ws => ws
  | died done none, ws => ws.take done
  | died done (some n), ws => ws.take done ++ (ws[done]?.map fun w => (w.1, w.2.take n)).toList

/-- The files a launch starts to write. -/
def reached : Fate → List IdFile
  | returned => IdFile.order
  | died done none => IdFile.order.take done
  | died done (some _) => IdFile.order.take (done + 1)

/-- The file a launch dies in, and how far it got. -/
def cut : Fate → Option (IdFile × Nat)
  | died done (some n) => IdFile.order[done]?.map fun f => (f, n)
  | _ => none

end Fate

structure Launches (κ : Type) where
  dir : IdDir
  /-- What the launches that returned have returned. -/
  returned : List (NodeIdentity κ)

namespace Launches

def launch (w : Launches κ) (l : Launch κ) : Launches κ :=
  let id := loadOrDraw R w.dir l
  ⟨run ((l.fate.writes (saveWrites R id)).map fun f => .write f.1 f.2) w.dir,
    match l.fate with
    | .returned => w.returned ++ [id]
    | .died .. => w.returned⟩

def step (w : Launches κ) (l : Launch κ) : Option (Launches κ) := some (w.launch R l)

/-- All launches that returned have returned the same. -/
def Stable (w : Launches κ) : Prop := ∀ a ∈ w.returned, ∀ b ∈ w.returned, a = b

/-- A file that is there and could not be read is left as it is. -/
def Spares (w : Launches κ) (l : Launch κ) : Prop :=
  ∀ f b, get w.dir f = some b → l.fails f = true → get (w.launch R l).dir f = some b

/-- A launch dies before it writes a file that is there and could not be read; and after one has
    returned, none dies inside a write, unless what is left of it still reads as it should. -/
structure Careful (w : Launches κ) (l : Launch κ) : Prop where
  unread : ∀ f, (get w.dir f).isSome → l.fails f = true → f ∉ l.fate.reached
  whole : ∀ id ∈ w.returned, ∀ c ∈ l.fate.cut, Keeps R id ((identityBytes R id c.1).take c.2) c.1

instance [DecidableEq κ] (w : Launches κ) (l : Launch κ) : Decidable (w.Careful R l) :=
  decidable_of_iff ((∀ f, (get w.dir f).isSome → l.fails f = true → f ∉ l.fate.reached) ∧
      ∀ id ∈ w.returned, ∀ c ∈ l.fate.cut, Keeps R id ((identityBytes R id c.1).take c.2) c.1)
    ⟨fun h => ⟨h.1, h.2⟩, fun h => ⟨h.unread, h.whole⟩⟩

end Launches

theorem marked_loadOrDraw (d : IdDir) (l : Launch κ) :
    applyUserhashMarkers (loadOrDraw R d l).userhash = (loadOrDraw R d l).userhash := by
  cases hread : (readIdFile d l.fails .preferences).bind readUserhash with
  | none =>
    have hdrawn : (loadOrDraw R d l).userhash = applyUserhashMarkers l.random.userhash := by
      rw [loadOrDraw, hread]
      rfl
    rw [hdrawn, applyUserhashMarkers_idem]
  | some userhash =>
    have hloaded : (loadOrDraw R d l).userhash = userhash := by
      rw [loadOrDraw, hread]
      rfl
    obtain ⟨b, -, hb⟩ := Option.bind_eq_some_iff.mp hread
    rw [hloaded]
    have hkeeps : Keeps R { loadOrDraw R d l with userhash } b .preferences := hb
    exact hkeeps.marked

/-- A file that keeps a part and is read gives that part. -/
theorem agree_loadOrDraw {d : IdDir} {l : Launch κ} {f : IdFile} {b : Bytes} {id : NodeIdentity κ}
    (hget : get d f = some b) (hread : l.fails f = false) (hkeeps : Keeps R id b f) :
    Agree (loadOrDraw R d l) id f := by
  have hfile : readIdFile d l.fails f = some b := by
    rw [readIdFile, hread]
    exact hget
  cases f with
  | preferences =>
    show ((readIdFile d l.fails .preferences).bind readUserhash).getD _ = _
    rw [hfile, Option.bind_some, show readUserhash b = _ from hkeeps, Option.getD_some]
  | preferencesKad =>
    show ((readIdFile d l.fails .preferencesKad).bind readKadId).getD _ = _
    rw [hfile, Option.bind_some, show readKadId b = _ from hkeeps, Option.getD_some]
  | kadUdpKey =>
    show ((readIdFile d l.fails .kadUdpKey).bind readKadUdpKey).getD _ = _
    rw [hfile, Option.bind_some, show readKadUdpKey b = _ from hkeeps, Option.getD_some]
  | cryptKey =>
    show ((readIdFile d l.fails .cryptKey).bind R.fromCryptkeyDat).getD _ = _
    rw [hfile, Option.bind_some, show R.fromCryptkeyDat b = _ from hkeeps, Option.getD_some]

theorem Fate.names_writes (fate : Fate) (id : NodeIdentity κ) :
    (fate.writes (saveWrites R id)).map Prod.fst = fate.reached := by
  have hall (l : List IdFile) : (l.map fun f => (f, identityBytes R id f)).map Prod.fst = l := by
    rw [List.map_map]
    exact List.map_id l
  cases fate with
  | returned => exact hall IdFile.order
  | died done cut =>
    cases cut with
    | none =>
      rw [writes, reached, saveWrites, ← List.map_take]
      exact hall _
    | some n =>
      rw [writes, reached, saveWrites, List.map_append, ← List.map_take, hall, List.take_add_one,
        List.getElem?_map]
      cases IdFile.order[done]? <;> rfl

theorem Fate.nodup_reached (fate : Fate) : fate.reached.Nodup := by
  have horder : IdFile.order.Nodup := by decide
  cases fate with
  | returned => exact horder
  | died done cut =>
    cases cut with
    | none => exact (List.take_sublist _ _).nodup horder
    | some n => exact (List.take_sublist _ _).nodup horder

/-- A file that is reached is written in full, or it is the one the launch dies in. -/
theorem Fate.lookup_writes {fate : Fate} {f : IdFile} (hin : f ∈ fate.reached)
    (id : NodeIdentity κ) :
    (fate.writes (saveWrites R id)).lookup f = some (identityBytes R id f) ∨
      ∃ n, fate.cut = some (f, n) ∧
        (fate.writes (saveWrites R id)).lookup f = some ((identityBytes R id f).take n) := by
  cases fate with
  | returned => exact .inl (List.lookup_graph (identityBytes R id) hin)
  | died done cut =>
    cases cut with
    | none =>
      left
      rw [writes, saveWrites, ← List.map_take]
      exact List.lookup_graph (identityBytes R id) hin
    | some n =>
      rw [reached, List.take_add_one] at hin
      rw [writes, saveWrites, ← List.map_take, List.lookup_append, List.getElem?_map]
      by_cases hdone : f ∈ IdFile.order.take done
      · left
        rw [List.lookup_graph (identityBytes R id) hdone, Option.some_or]
      · obtain hlast := (List.mem_append.mp hin).resolve_left hdone
        have hcut : IdFile.order[done]? = some f := Option.mem_toList.mp hlast
        have hnone : ((IdFile.order.take done).map fun f => (f, identityBytes R id f)).lookup f = none :=
          List.lookup_eq_none_iff.mpr fun e he => by
            obtain ⟨g, hg, rfl⟩ := List.mem_map.mp he
            exact bne_iff_ne.mpr fun heq => hdone (heq ▸ hg)
        refine .inr ⟨n, by rw [cut, hcut, Option.map_some], ?_⟩
        rw [hnone, hcut, Option.none_or]
        simp

/-- The directory after a launch, file by file. -/
theorem get_launch (w : Launches κ) (l : Launch κ) (f : IdFile) :
    (f ∉ l.fate.reached ∧ get (w.launch R l).dir f = get w.dir f) ∨
      (f ∈ l.fate.reached ∧
        (get (w.launch R l).dir f = some (identityBytes R (loadOrDraw R w.dir l) f) ∨
          ∃ n, l.fate.cut = some (f, n) ∧
            get (w.launch R l).dir f = some ((identityBytes R (loadOrDraw R w.dir l) f).take n))) := by
  have hnames := l.fate.names_writes R (loadOrDraw R w.dir l)
  have hget : get (w.launch R l).dir f =
      ((l.fate.writes (saveWrites R (loadOrDraw R w.dir l))).lookup f).or (get w.dir f) :=
    get_run_writes (hnames ▸ l.fate.nodup_reached) w.dir f
  rw [hget]
  by_cases hin : f ∈ l.fate.reached
  · right
    rcases Fate.lookup_writes R hin (loadOrDraw R w.dir l) with hfull | ⟨n, hn, hcut⟩
    · exact ⟨hin, .inl (by rw [hfull, Option.some_or])⟩
    · exact ⟨hin, .inr ⟨n, hn, by rw [hcut, Option.some_or]⟩⟩
  · left
    have hnone : (l.fate.writes (saveWrites R (loadOrDraw R w.dir l))).lookup f = none :=
      List.lookup_eq_none_iff.mpr fun e he =>
        bne_iff_ne.mpr fun heq => hin (hnames ▸ heq ▸ List.mem_map_of_mem he)
    exact ⟨hin, by rw [hnone, Option.none_or]⟩

namespace Launches

/-! ## The invariant -/

/-- Every file keeps its part of the identity. -/
def Settled (d : IdDir) (id : NodeIdentity κ) : Prop :=
  ∀ f, ∃ b, get d f = some b ∧ Keeps R id b f

def Ok (w : Launches κ) : Prop := ∀ id ∈ w.returned, Settled R w.dir id

variable {R} {w : Launches κ}

theorem Ok.stable (h : Ok R w) : w.Stable := by
  intro a ha b hb
  refine eq_of_agree fun f => ?_
  obtain ⟨bytes, hget, hkeeps⟩ := h a ha f
  obtain ⟨bytes', hget', hkeeps'⟩ := h b hb f
  rw [Option.some.inj (hget.symm.trans hget')] at hkeeps
  exact hkeeps.agree R hkeeps'

theorem Careful.spares {l : Launch κ} (h : w.Careful R l) : w.Spares R l := by
  intro f b hget hfails
  rcases get_launch R w l f with ⟨-, hsame⟩ | ⟨hin, -⟩
  · exact hsame.trans hget
  · exact absurd hin (h.unread f (by rw [hget]; rfl) hfails)

/-- A careful launch leaves what is settled settled. -/
theorem Careful.settled {l : Launch κ} (h : w.Careful R l) {id : NodeIdentity κ}
    (hid : id ∈ w.returned) (hsettled : Settled R w.dir id) :
    Settled R (w.launch R l).dir id := by
  intro f
  obtain ⟨b, hget, hkeeps⟩ := hsettled f
  rcases get_launch R w l f with ⟨-, hsame⟩ | ⟨hin, hnew⟩
  · exact ⟨b, hsame.trans hget, hkeeps⟩
  · have hread : l.fails f = false := by
      by_contra hfails
      exact h.unread f (by rw [hget]; rfl) (by simpa using hfails) hin
    have hbytes := identityBytes_congr R (agree_loadOrDraw R hget hread hkeeps)
    rcases hnew with hfull | ⟨n, hcut, hpart⟩
    · obtain ⟨b', -, hmarked⟩ := hsettled .preferences
      exact ⟨_, hfull, hbytes ▸ keeps_identityBytes R (hmarked.marked R) f⟩
    · exact ⟨_, hpart, hbytes ▸ h.whole id hid (f, n) hcut⟩

theorem mem_order (f : IdFile) : f ∈ IdFile.order := by
  cases f <;> decide

/-- A launch that returns has settled what it returns. -/
theorem settled_returned {l : Launch κ} (h : l.fate = .returned) :
    Settled R (w.launch R l).dir (loadOrDraw R w.dir l) := by
  intro f
  rcases get_launch R w l f with ⟨hnot, -⟩ | ⟨-, hfull | ⟨n, hcut, -⟩⟩
  · rw [h] at hnot
    exact absurd (mem_order f) hnot
  · exact ⟨_, hfull, keeps_identityBytes R (marked_loadOrDraw R w.dir l) f⟩
  · rw [h] at hcut
    cases hcut

theorem Ok.launch (h : Ok R w) {l : Launch κ} (hl : w.Careful R l) : Ok R (w.launch R l) := by
  intro id hid
  have hold : id ∈ w.returned ∨ l.fate = .returned ∧ id = loadOrDraw R w.dir l := by
    unfold Launches.launch at hid
    cases hfate : l.fate with
    | returned =>
      simp only [hfate, List.mem_append, List.mem_singleton] at hid
      exact hid.imp_right fun heq => ⟨rfl, heq⟩
    | died done cut =>
      simp only [hfate] at hid
      exact .inl hid
  rcases hold with hold | ⟨hfate, rfl⟩
  · exact hl.settled hold (h id hold)
  · exact settled_returned hfate

end Launches

/-- The identity of a node from launch to launch, and what becomes of a file it cannot read. -/
theorem identity_survives (d : IdDir) (launches : List (Launch κ))
    (hok : Runs.Throughout (Launches.step R) (Launches.Careful R) ⟨d, []⟩ launches) :
    Runs.Always (Launches.step R) Launches.Stable ⟨d, []⟩ launches ∧
      Runs.Throughout (Launches.step R) (Launches.Spares R) ⟨d, []⟩ launches := by
  have hstart : Launches.Ok R ⟨d, []⟩ := fun _ h => absurd h List.not_mem_nil
  have hstep (w : Launches κ) (l : Launch κ) (w' : Launches κ) (h : w.Ok R) (hl : w.Careful R l)
      (hw' : w.step R l = some w') : w'.Ok R := Option.some.inj hw' ▸ h.launch hl
  exact ⟨Runs.always_of_throughout hstep (fun _ h => h.stable) hstart hok,
    hok.imp hstep (fun _ _ _ hl => hl.spares) hstart⟩

/-! ## Two instances -/

/-- A key is one byte, its file the same. -/
def byteCodec : RsaCodec UInt8 where
  fromCryptkeyDat := List.head?
  toCryptkeyDat key := [key]
  round_trip _ := rfl

/-- A launch that draws `b` everywhere and reads all it can. -/
def launchOf (b : UInt8) (fate : Fate) : Launch UInt8 :=
  ⟨fun _ => false, ⟨.fill 16 b, ⟨b.toUInt32, 0, 0, 0⟩, b.toUInt32, b⟩, fate⟩

/-- The second launch dies in front of the last byte of `preferencesKad.dat`, which nobody reads. -/
theorem careful_launches :
    ∃ w, Runs.run (Launches.step byteCodec) ⟨[], []⟩ [launchOf 1 .returned,
        launchOf 2 (.died 1 (some 22)), launchOf 3 .returned] = some w ∧
      w.returned.length = 2 ∧ w.Stable := by
  have hmoves : (Runs.run (Launches.step byteCodec) ⟨[], []⟩ [launchOf 1 .returned,
      launchOf 2 (.died 1 (some 22)), launchOf 3 .returned]).map (·.returned.length) = some 2 := by
    decide +kernel
  obtain ⟨w, hrun, htwo⟩ := Option.map_eq_some_iff.mp hmoves
  have hstable := (identity_survives byteCodec [] [launchOf 1 .returned,
    launchOf 2 (.died 1 (some 22)), launchOf 3 .returned] (by decide +kernel)).1
  exact ⟨w, hrun, htwo, hstable.run hrun⟩

/-- A launch that dies while it rewrites an intact `preferences.dat` costs the userhash, and one
    that cannot read an intact `preferences.dat` draws a new userhash over it. -/
theorem identity_lost :
    (Runs.run (Launches.step byteCodec) ⟨[], []⟩ [launchOf 1 .returned,
      launchOf 2 (.died 0 (some 0)), launchOf 3 .returned]).map
        (fun w => w.returned.map NodeIdentity.userhash) =
      some [generateUserhash (.fill 16 1), generateUserhash (.fill 16 3)] ∧
    ¬Runs.Always (Launches.step byteCodec) Launches.Stable ⟨[], []⟩ [launchOf 1 .returned,
      launchOf 2 (.died 0 (some 0)), launchOf 3 .returned] ∧
    ¬Runs.Throughout (Launches.step byteCodec) (Launches.Spares byteCodec) ⟨[], []⟩
      [launchOf 1 .returned, { launchOf 2 .returned with fails := (· = .preferences) }] := by
  have hlost : (Runs.run (Launches.step byteCodec) ⟨[], []⟩ [launchOf 1 .returned,
      launchOf 2 (.died 0 (some 0)), launchOf 3 .returned]).map
        (fun w => w.returned.map NodeIdentity.userhash) =
      some [generateUserhash (.fill 16 1), generateUserhash (.fill 16 3)] := by decide +kernel
  refine ⟨hlost, fun hstable => ?_, fun hspares => ?_⟩
  · obtain ⟨w, hrun, huserhashes⟩ := Option.map_eq_some_iff.mp hlost
    have hsame := hstable.run hrun
    have hone : generateUserhash (.fill 16 1) ∈ w.returned.map NodeIdentity.userhash := by
      rw [huserhashes]
      exact List.mem_cons_self
    have hthree : generateUserhash (.fill 16 3) ∈ w.returned.map NodeIdentity.userhash := by
      rw [huserhashes]
      exact List.mem_cons_of_mem _ List.mem_cons_self
    obtain ⟨a, ha, hua⟩ := List.mem_map.mp hone
    obtain ⟨b, hb, hub⟩ := List.mem_map.mp hthree
    have heq := hua.symm.trans ((congrArg NodeIdentity.userhash (hsame a ha b hb)).trans hub)
    exact absurd heq (by decide)
  · have hkept := (hspares.2 _ rfl).1 .preferences (writePreferencesDat (generateUserhash (.fill 16 1)))
      (by decide +kernel) rfl
    exact absurd hkept (by decide +kernel)

end PadMule.Engine
