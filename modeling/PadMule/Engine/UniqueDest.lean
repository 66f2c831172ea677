import PadMule.Lib.Paths
import PadMule.Lib.FileMap
import PadMule.Lib.Runs
import PadMule.Lib.Slots
import PadMule.Proto.Hash
import Mathlib.Data.List.DropRight

/-
  `mule-engine/src/engine.rs`: `safe_filename`, `unique_dest`, and the tasks of `finish_download`
  that move finished files into the downloads directory.

  Any number of tasks run, each for a download under a name from the network. A task looks through
  its candidates one `exists` at a time, takes the first name that is free, and renames later, so
  what was free may be taken by then; and a task that finds all its candidates taken renames to
  the first one nevertheless. In a run that is `Roomy` neither happens, and there no file is
  replaced and every finished file has a name of its own (`finishing_replaces_nothing`).
-/

namespace PadMule.Engine

open FileMap Paths

/-! ## File names -/

/-- `char::is_whitespace`, the Unicode property White_Space. -/
def isWhitespace (c : Char) : Bool :=
  (0x09 ≤ c.toNat && c.toNat ≤ 0x0D) || (0x2000 ≤ c.toNat && c.toNat ≤ 0x200A) ||
    c.toNat ∈ [0x20, 0x85, 0xA0, 0x1680, 0x2028, 0x2029, 0x202F, 0x205F, 0x3000]

def cleanChar (c : Char) : Char :=
  if c = '/' ∨ c = '\\' ∨ c = Char.ofNat 0 then '_'
  else if c.toNat < 0x20 then '_'
  else c

def trimMatches (p : Char → Bool) (s : Name) : Name := (s.dropWhile p).rdropWhile p

def safeFilename (name : Name) : Name :=
  let cleaned := trimMatches (· = '.') (trimMatches isWhitespace (name.map cleanChar))
  if cleaned = [] then ['d', 'o', 'w', 'n', 'l', 'o', 'a', 'd'] else cleaned

/-- `file_stem` and `extension`: cut at the last dot, unless nothing stands in front of it. -/
def splitExtension (name : Name) : Name × Option Name :=
  match (name.rdropWhile (· ≠ '.')).dropLast with
  | [] => (name, none)
  | c :: stem => (c :: stem, some (name.rtakeWhile (· ≠ '.')))

/-- `name (n).ext` -/
def numbered (name : Name) (n : Nat) : Name :=
  let (stem, ext) := splitExtension name
  stem ++ [' ', '('] ++ Nat.toDigits 10 n ++ [')'] ++
    match ext with
    | some ext => '.' :: ext
    | none => []

/-- The names a search goes through. -/
def candidates (dest : Name) : List Name := dest :: (List.range' 2 998).map (numbered dest)

def uniqueDest (taken : Name → Bool) (dest : Name) : Name :=
  if taken dest = false then dest
  else (((List.range' 2 998).map (numbered dest)).find? fun c => !taken c).getD dest

theorem uniqueDest_eq (taken : Name → Bool) (dest : Name) :
    uniqueDest taken dest = ((candidates dest).find? fun c => !taken c).getD dest := by
  rw [uniqueDest, candidates, List.find?_cons]
  cases taken dest with
  | false => rfl
  | true => rfl

/-! ### Every name stays in its directory -/

theorem cleanChar_ne (c : Char) : cleanChar c ≠ '/' ∧ cleanChar c ≠ Char.ofNat 0 := by
  unfold cleanChar
  split_ifs with hbad hlow
  · decide
  · decide
  · exact ⟨fun h => hbad (.inl h), fun h => hbad (.inr (.inr h))⟩

theorem mem_of_mem_trimMatches {p : Char → Bool} {s : Name} {x : Char}
    (h : x ∈ trimMatches p s) : x ∈ s :=
  (List.dropWhile_suffix p).subset ((List.rdropWhile_prefix p _).subset h)

/-- What is trimmed does not start with a trimmed character. -/
theorem head_trimMatches {p : Char → Bool} {s : Name} {x : Char}
    (h : (trimMatches p s).head? = some x) : p x = false := by
  obtain ⟨tail, htail⟩ := List.rdropWhile_prefix p (s.dropWhile p)
  have hhead : (s.dropWhile p).head? = some x := by
    rw [← htail, List.head?_append, show ((s.dropWhile p).rdropWhile p).head? = _ from h,
      Option.some_or]
  have hnot := List.head?_dropWhile_not p s
  rw [hhead] at hnot
  simpa using hnot

/-- The characters of a safe name, and that it does not start with a dot. -/
theorem head_safeFilename (name : Name) :
    ∃ x, (safeFilename name).head? = some x ∧ x ≠ '.' ∧ '/' ∉ safeFilename name ∧
      Char.ofNat 0 ∉ safeFilename name := by
  unfold safeFilename
  dsimp only
  split_ifs with hnil
  · exact ⟨'d', rfl, by decide, by decide, by decide⟩
  · have hmem (x : Char) (hx : x ∈ trimMatches (· = '.') (trimMatches isWhitespace
        (name.map cleanChar))) : ∃ c, cleanChar c = x := by
      obtain ⟨c, -, hc⟩ := List.mem_map.mp (mem_of_mem_trimMatches (mem_of_mem_trimMatches hx))
      exact ⟨c, hc⟩
    obtain ⟨x, hx⟩ := Option.isSome_iff_exists.mp (List.isSome_head?.mpr hnil)
    refine ⟨x, hx, of_decide_eq_false (head_trimMatches hx), fun hslash => ?_, fun hnul => ?_⟩
    · obtain ⟨c, hc⟩ := hmem _ hslash
      exact (cleanChar_ne c).1 hc
    · obtain ⟨c, hc⟩ := hmem _ hnul
      exact (cleanChar_ne c).2 hc

theorem component_safeFilename (name : Name) : Component (safeFilename name) := by
  obtain ⟨x, hx, hdot, hslash, hnul⟩ := head_safeFilename name
  exact component_of_head hx hdot hslash hnul

/-- A stem is the front of its name, and not empty where the name is not. -/
theorem splitExtension_spec (name : Name) :
    (splitExtension name).1 <+: name ∧ ((splitExtension name).1 = [] → name = []) ∧
      ∀ ext, (splitExtension name).2 = some ext → ext <:+ name := by
  unfold splitExtension
  split
  · exact ⟨List.prefix_rfl, id, fun ext hext => by cases hext⟩
  · rename_i c stem hstem
    refine ⟨?_, fun hnil => absurd hnil (List.cons_ne_nil c stem), fun ext hext => ?_⟩
    · rw [← hstem]
      exact (List.dropLast_prefix _).trans (List.rdropWhile_prefix _ _)
    · cases hext
      exact List.rtakeWhile_suffix _ _

/-- The characters of a numbered name. -/
theorem mem_numbered {name : Name} {n : Nat} {y : Char} (h : y ∈ numbered name n) :
    y ∈ name ∨ y.isDigit ∨ y ∈ [' ', '(', ')', '.'] := by
  obtain ⟨hstem, -, hsuffix⟩ := splitExtension_spec name
  unfold numbered at h
  dsimp only at h
  rcases List.mem_append.mp h with h | h
  · rcases List.mem_append.mp h with h | h
    · rcases List.mem_append.mp h with h | h
      · rcases List.mem_append.mp h with h | h
        · exact .inl (hstem.subset h)
        · exact .inr (.inr (List.mem_append_left [')', '.'] h))
      · exact .inr (.inl (Nat.isDigit_of_mem_toDigits (by decide) (by decide) h))
    · rw [List.mem_singleton.mp h]
      exact .inr (.inr (by decide))
  · cases hext : (splitExtension name).2 with
    | none =>
      rw [hext] at h
      cases h
    | some ext =>
      rw [hext] at h
      rcases List.mem_cons.mp h with rfl | h
      · exact .inr (.inr (by decide))
      · exact .inl ((hsuffix ext hext).subset h)

theorem head_numbered {name : Name} {x : Char} (h : name.head? = some x) (n : Nat) :
    (numbered name n).head? = some x := by
  obtain ⟨⟨tail, htail⟩, hnil, -⟩ := splitExtension_spec name
  cases hstem : (splitExtension name).1 with
  | nil =>
    rw [hnil hstem] at h
    cases h
  | cons c stem =>
    rw [hstem] at htail
    rw [← htail] at h
    unfold numbered
    dsimp only
    rw [hstem]
    exact h

theorem component_numbered {name : Name} {x : Char} (hhead : name.head? = some x) (hdot : x ≠ '.')
    (hslash : '/' ∉ name) (hnul : Char.ofNat 0 ∉ name) (n : Nat) : Component (numbered name n) := by
  refine component_of_head (head_numbered hhead n) hdot (fun h => ?_) (fun h => ?_)
  · rcases mem_numbered h with h | h | h
    · exact hslash h
    · exact absurd h (by decide)
    · exact absurd h (by decide)
  · rcases mem_numbered h with h | h | h
    · exact hnul h
    · exact absurd h (by decide)
    · exact absurd h (by decide)

theorem component_candidate (name : Name) {c : Name} (h : c ∈ candidates (safeFilename name)) :
    Component c := by
  obtain ⟨x, hx, hdot, hslash, hnul⟩ := head_safeFilename name
  rcases List.mem_cons.mp h with rfl | h
  · exact component_safeFilename name
  · obtain ⟨n, -, rfl⟩ := List.mem_map.mp h
    exact component_numbered hx hdot hslash hnul n

/-! ## The tasks -/

/-- What stands under a name of the downloads directory. -/
inductive Entry where
  | file (bytes : Bytes)
  | folder
deriving DecidableEq

/-- Where a task of `finish_download` stands. -/
inductive SavePhase where
  | verifying
  | searching (k : Nat) -- the first `k` candidates were taken
  | chosen (c : Name) -- what `unique_dest` returned
  | saved (c : Name) (bytes : Bytes) -- `finish_to` returned Ok
  | stopped
deriving DecidableEq

structure SaveTask where
  download : Nat
  dest : Name
  phase : SavePhase
deriving DecidableEq

/-- A download: its `.part`, and whether the user cancelled it. -/
structure Backing where
  part : Option Bytes
  cancelled : Bool
deriving DecidableEq

structure SaveWorld where
  dir : Dir Name Entry
  backings : List Backing
  tasks : List SaveTask

inductive SaveMove where
  | spawn (j : Nat) (name : Name)
  | judge (i : Nat) (verified : Bool)
  | probe (i : Nat)
  | finishTo (i : Nat)
  | cancel (j : Nat)
  | discard (j : Nat)

namespace SaveTask

/-- The name a task will rename to, or has renamed to. -/
def name? (t : SaveTask) : Option Name :=
  match t.phase with
  | .chosen c => some c
  | .saved c _ => some c
  | _ => none

def search? (t : SaveTask) : Option Nat :=
  match t.phase with
  | .searching k => some k
  | _ => none

end SaveTask

namespace SaveWorld

def put (w : SaveWorld) (i : Nat) (t : SaveTask) (phase : SavePhase) : SaveWorld :=
  { w with tasks := w.tasks.set i { t with phase := phase } }

def isCancelled (w : SaveWorld) (j : Nat) : Bool := w.backings[j]?.any Backing.cancelled

/-- One `exists` of the search; with no candidate left it is over. -/
def probe (w : SaveWorld) (dest : Name) (k : Nat) : SavePhase :=
  match (candidates dest)[k]? with
  | some c => if (get w.dir c).isSome then .searching (k + 1) else .chosen c
  | none => .chosen dest

/-- `finish_to`: nothing moves for a cancelled download, from a missing `.part` or onto a folder. -/
def finishTo (w : SaveWorld) (i : Nat) (t : SaveTask) (c : Name) : SaveWorld :=
  match w.backings[t.download]? with
  | some ⟨some bytes, false⟩ =>
    if get w.dir c = some .folder then w.put i t .stopped
    else
      { w.put i t (.saved c bytes) with
        dir := write w.dir c (.file bytes)
        backings := w.backings.set t.download ⟨none, false⟩ }
  | _ => w.put i t .stopped

def step (w : SaveWorld) : SaveMove → Option SaveWorld
  | .spawn j name => some { w with tasks := w.tasks ++ [⟨j, safeFilename name, .verifying⟩] }
  | .judge i verified => w.tasks[i]?.bind fun t =>
    match t.phase with
    | .verifying =>
      some (w.put i t (if verified && !w.isCancelled t.download then .searching 0 else .stopped))
    | _ => none
  | .probe i => w.tasks[i]?.bind fun t =>
    match t.phase with
    | .searching k => some (w.put i t (w.probe t.dest k))
    | _ => none
  | .finishTo i => w.tasks[i]?.bind fun t =>
    match t.phase with
    | .chosen c => some (w.finishTo i t c)
    | _ => none
  | .cancel j =>
    some { w with backings := w.backings.modify j fun b => { b with cancelled := true } }
  | .discard j => some { w with backings := w.backings.modify j fun b => { b with part := none } }

theorem step_probe {w : SaveWorld} {i : Nat} {t : SaveTask} (ht : w.tasks[i]? = some t) (k : Nat) :
    (w.put i t (.searching k)).step (.probe i) = some (w.put i t (w.probe t.dest k)) := by
  have hget : (w.put i t (.searching k)).tasks[i]? = some { t with phase := .searching k } :=
    Slots.getElem?_set_self ht
  rw [step, hget]
  show some { w with tasks := (w.tasks.set i _).set i _ } = _
  rw [List.set_set]
  rfl

/-- A search that is left alone returns what `unique_dest` does. -/
theorem search_undisturbed {w : SaveWorld} {i : Nat} {t : SaveTask} (ht : w.tasks[i]? = some t)
    (k : Nat) :
    ∃ n, Runs.run step (w.put i t (.searching k)) (List.replicate n (.probe i)) =
      some (w.put i t (.chosen ((((candidates t.dest).drop k).find? fun c =>
        !(get w.dir c).isSome).getD t.dest))) := by
  -- One candidate less is left after each step.
  induction hleft : (candidates t.dest).drop k generalizing k with
  | nil =>
    have hnone : (candidates t.dest)[k]? = none :=
      List.getElem?_eq_none (List.drop_eq_nil_iff.mp hleft)
    refine ⟨1, ?_⟩
    rw [List.replicate_one, Runs.run, step_probe ht, SaveWorld.probe, hnone]
    rfl
  | cons c rest ih =>
    have hc : (candidates t.dest)[k]? = some c := by
      rw [← List.head?_drop, hleft, List.head?_cons]
    have hrest : (candidates t.dest).drop (k + 1) = rest := by
      rw [← List.tail_drop, hleft, List.tail_cons]
    have hprobe := step_probe ht k
    rw [SaveWorld.probe, hc] at hprobe
    dsimp only at hprobe
    split_ifs at hprobe with htaken
    · obtain ⟨n, hn⟩ := ih (k + 1) hrest
      refine ⟨n + 1, ?_⟩
      rw [List.replicate_succ, Runs.run, hprobe, Option.bind_some, hn, List.find?_cons, htaken]
      rfl
    · rw [Bool.not_eq_true] at htaken
      refine ⟨1, ?_⟩
      rw [List.replicate_one, Runs.run, hprobe, List.find?_cons, htaken]
      rfl

theorem search_uniqueDest {w : SaveWorld} {i : Nat} {t : SaveTask} (ht : w.tasks[i]? = some t)
    (hphase : t.phase = .searching 0) :
    ∃ n, Runs.run step w (List.replicate n (.probe i)) =
      some (w.put i t (.chosen (uniqueDest (fun c => (get w.dir c).isSome) t.dest))) := by
  have hself : w.put i t (.searching 0) = w := by
    have htask : { t with phase := .searching 0 } = t := by rw [← hphase]
    rw [put, htask, Slots.set_of_getElem? ht]
  have hsearch := search_undisturbed ht 0
  rwa [hself, List.drop_zero, ← uniqueDest_eq] at hsearch

/-- A search does not run out of candidates, and what it finds free no other task has chosen. -/
def Roomy (w : SaveWorld) : SaveMove → Prop
  | .probe i => ∀ t ∈ w.tasks[i]?, ∀ k ∈ t.search?, ∃ c ∈ (candidates t.dest)[k]?,
      get w.dir c = none → ∀ t' ∈ w.tasks, t'.phase ≠ .chosen c
  | _ => True

instance (w : SaveWorld) : (m : SaveMove) → Decidable (w.Roomy m)
  | .probe i => inferInstanceAs (Decidable (∀ t ∈ w.tasks[i]?, ∀ k ∈ t.search?,
      ∃ c ∈ (candidates t.dest)[k]?, get w.dir c = none → ∀ t' ∈ w.tasks, t'.phase ≠ .chosen c))
  | .spawn .. | .judge .. | .finishTo _ | .cancel _ | .discard _ => .isTrue trivial

/-- No step replaces or removes what stands in the directory. -/
def Spares (w : SaveWorld) (m : SaveMove) : Prop :=
  ∀ w', w.step m = some w' → ∀ c e, get w.dir c = some e → get w'.dir c = some e

/-- Every finished download has its bytes in the directory, under a name of its own. -/
structure Delivered (w : SaveWorld) : Prop where
  present : ∀ t ∈ w.tasks, ∀ c bytes, t.phase = .saved c bytes → get w.dir c = some (.file bytes)
  apart : ∀ (i j : Nat) (t t' : SaveTask) (c : Name) (bytes bytes' : Bytes),
    w.tasks[i]? = some t → w.tasks[j]? = some t' → t.phase = .saved c bytes →
      t'.phase = .saved c bytes' → i = j

/-! ## The invariant -/

structure Ok (w : SaveWorld) : Prop where
  free : ∀ (i : Nat) t, w.tasks[i]? = some t → ∀ c, t.phase = .chosen c → get w.dir c = none
  present : ∀ (i : Nat) t, w.tasks[i]? = some t → ∀ c bytes, t.phase = .saved c bytes →
    get w.dir c = some (.file bytes)
  apart : ∀ (i j : Nat) t t', w.tasks[i]? = some t → w.tasks[j]? = some t' →
    ∀ c, t.name? = some c → t'.name? = some c → i = j

variable {w w' : SaveWorld}

theorem Ok.delivered (h : Ok w) : w.Delivered where
  present t ht := by
    obtain ⟨i, hi⟩ := List.mem_iff_getElem?.mp ht
    exact h.present i t hi
  apart i j t t' c bytes bytes' hi hj ht ht' :=
    h.apart i j t t' hi hj c (by rw [SaveTask.name?, ht]) (by rw [SaveTask.name?, ht'])

theorem ok_nil (dir : Dir Name Entry) (backings : List Backing) : Ok ⟨dir, backings, []⟩ where
  free i t h := absurd h (by simp)
  present i t h := absurd h (by simp)
  apart i j t t' h := absurd h (by simp)

/-- One task moves on, and leaves what the others have chosen and saved alone. -/
theorem Ok.set (h : Ok w) {i : Nat} {t' : SaveTask} {dir : Dir Name Entry}
    {backings : List Backing}
    (hkeeps : ∀ (j : Nat) t c, j ≠ i → w.tasks[j]? = some t → t.name? = some c →
      get dir c = get w.dir c ∧ t'.name? ≠ some c)
    (hfree : ∀ c, t'.phase = .chosen c → get dir c = none)
    (hpresent : ∀ c bytes, t'.phase = .saved c bytes → get dir c = some (.file bytes)) :
    Ok ⟨dir, backings, w.tasks.set i t'⟩ := by
  constructor
  · intro j t hj c hc
    rcases Slots.getElem?_set_cases hj with ⟨-, rfl⟩ | ⟨hne, hj⟩
    · exact hfree c hc
    · rw [(hkeeps j t c hne hj (by rw [SaveTask.name?, hc])).1]
      exact h.free j t hj c hc
  · intro j t hj c bytes hc
    rcases Slots.getElem?_set_cases hj with ⟨-, rfl⟩ | ⟨hne, hj⟩
    · exact hpresent c bytes hc
    · rw [(hkeeps j t c hne hj (by rw [SaveTask.name?, hc])).1]
      exact h.present j t hj c bytes hc
  · intro j k t u hj hk c hc hc'
    rcases Slots.getElem?_set_cases hj with ⟨rfl, rfl⟩ | ⟨hne, hold⟩
    · rcases Slots.getElem?_set_cases hk with ⟨rfl, -⟩ | ⟨hne', hold'⟩
      · rfl
      · exact absurd hc (hkeeps k u c hne' hold' hc').2
    · rcases Slots.getElem?_set_cases hk with ⟨rfl, rfl⟩ | ⟨hne', hold'⟩
      · exact absurd hc' (hkeeps j t c hne hold hc).2
      · exact h.apart j k t u hold hold' c hc hc'

/-- A new task has no name. -/
theorem Ok.spawn (h : Ok w) {t' : SaveTask} (hname : t'.name? = none) :
    Ok { w with tasks := w.tasks ++ [t'] } := by
  have hold {i : Nat} {t : SaveTask} {c : Name} (hi : (w.tasks ++ [t'])[i]? = some t)
      (hc : t.name? = some c) : w.tasks[i]? = some t := by
    rcases Slots.getElem?_concat_cases hi with hi | ⟨-, rfl⟩
    · exact hi
    · rw [hname] at hc
      cases hc
  constructor
  · exact fun i t hi c hc => h.free i t (hold hi (by rw [SaveTask.name?, hc])) c hc
  · exact fun i t hi c bytes hc => h.present i t (hold hi (by rw [SaveTask.name?, hc])) c bytes hc
  · exact fun i j t u hi hj c hc hc' => h.apart i j t u (hold hi hc) (hold hj hc') c hc hc'

/-- A task that has no name moves on without one. -/
theorem Ok.put (h : Ok w) {i : Nat} {t : SaveTask} {phase : SavePhase}
    (hname : SaveTask.name? { t with phase := phase } = none) : Ok (w.put i t phase) := by
  refine h.set (fun j u c _ _ _ => ⟨rfl, fun hc => ?_⟩) (fun c hc => ?_) (fun c bytes hc => ?_)
  · rw [hname] at hc
    cases hc
  · dsimp only at hc
    subst hc
    cases hname
  · dsimp only at hc
    subst hc
    cases hname

/-- A task takes a name that is free on disk and that no other task has taken. -/
theorem Ok.choose (h : Ok w) {i : Nat} {t : SaveTask} {c : Name} (hfree : get w.dir c = none)
    (hnone : ∀ t' ∈ w.tasks, t'.phase ≠ .chosen c) : Ok (w.put i t (.chosen c)) := by
  refine h.set (fun j u c' _ hj hc' => ⟨rfl, fun hc => ?_⟩) (fun c' hc => ?_) (fun _ _ hc => ?_)
  · cases hc
    -- The other task has chosen or saved `c`: neither can be.
    unfold SaveTask.name? at hc'
    split at hc'
    · rename_i hphase
      cases hc'
      exact hnone u (List.mem_of_getElem? hj) hphase
    · rename_i bytes hphase
      cases hc'
      exact absurd (hfree.symm.trans (h.present j u hj c bytes hphase)) (by simp)
    · cases hc'
  · cases hc
    exact hfree
  · cases hc

theorem Ok.probe (h : Ok w) {i k : Nat} {t : SaveTask} (ht : w.tasks[i]? = some t)
    (hphase : t.phase = .searching k) (hroomy : w.Roomy (.probe i)) :
    Ok (w.put i t (w.probe t.dest k)) := by
  obtain ⟨c, hc, hnone⟩ := hroomy t ht k (by rw [SaveTask.search?, hphase]; rfl)
  have hcand : (candidates t.dest)[k]? = some c := hc
  unfold SaveWorld.probe
  rw [hcand]
  dsimp only
  split_ifs with htaken
  · exact h.put rfl
  · have hfree : get w.dir c = none := Option.not_isSome_iff_eq_none.mp htaken
    exact h.choose hfree (hnone hfree)

/-- The rename replaces nothing, and the file is there under the chosen name. -/
theorem Ok.finishTo (h : Ok w) {i : Nat} {t : SaveTask} (ht : w.tasks[i]? = some t) {c : Name}
    (hphase : t.phase = .chosen c) :
    Ok (w.finishTo i t c) ∧ ∀ c' e, get w.dir c' = some e → get (w.finishTo i t c).dir c' = some e := by
  have hfree := h.free i t ht c hphase
  unfold SaveWorld.finishTo
  split
  · split_ifs with hfolder
    · exact ⟨h.put rfl, fun _ _ => id⟩
    · refine ⟨h.set (fun j u c' hne hj hc' => ?_) (fun _ hc => ?_) (fun _ _ hc => ?_),
        fun c' e he => ?_⟩
      · have hother : c' ≠ c := by
          rintro rfl
          exact hne (h.apart j i u t hj ht c' hc' (by rw [SaveTask.name?, hphase]))
        refine ⟨by rw [get_write, if_neg hother], fun hc => ?_⟩
        exact hother (Option.some.inj hc).symm
      · cases hc
      · cases hc
        rw [get_write, if_pos rfl]
      · have hother : c' ≠ c := by
          rintro rfl
          exact absurd (hfree.symm.trans he) (by simp)
        dsimp only
        rw [get_write, if_neg hother]
        exact he
  · exact ⟨h.put rfl, fun _ _ => id⟩

theorem Ok.step (h : Ok w) {m : SaveMove} (hroomy : w.Roomy m) (hstep : w.step m = some w') :
    Ok w' ∧ ∀ c e, get w.dir c = some e → get w'.dir c = some e := by
  cases m with
  | spawn j name =>
    cases hstep
    exact ⟨h.spawn rfl, fun _ _ => id⟩
  | judge i verified =>
    obtain ⟨t, ht, hstep⟩ := Option.bind_eq_some_iff.mp hstep
    split at hstep
    · cases hstep
      refine ⟨h.put ?_, fun _ _ => id⟩
      split_ifs <;> rfl
    · cases hstep
  | probe i =>
    obtain ⟨t, ht, hstep⟩ := Option.bind_eq_some_iff.mp hstep
    split at hstep
    · rename_i k hphase
      cases hstep
      exact ⟨h.probe ht hphase hroomy, fun _ _ => id⟩
    · cases hstep
  | finishTo i =>
    obtain ⟨t, ht, hstep⟩ := Option.bind_eq_some_iff.mp hstep
    split at hstep
    · rename_i c hphase
      cases hstep
      exact h.finishTo ht hphase
    · cases hstep
  | cancel j =>
    cases hstep
    exact ⟨⟨h.free, h.present, h.apart⟩, fun _ _ => id⟩
  | discard j =>
    cases hstep
    exact ⟨⟨h.free, h.present, h.apart⟩, fun _ _ => id⟩

end SaveWorld

/-- No finished download replaces a file, each has its bytes under a name of its own, and no name
    leads out of the directory. -/
theorem finishing_replaces_nothing (dir : Dir Name Entry) (backings : List Backing)
    (moves : List SaveMove)
    (hroomy : Runs.Throughout SaveWorld.step SaveWorld.Roomy ⟨dir, backings, []⟩ moves) :
    Runs.Throughout SaveWorld.step SaveWorld.Spares ⟨dir, backings, []⟩ moves ∧
      Runs.Always SaveWorld.step SaveWorld.Delivered ⟨dir, backings, []⟩ moves ∧
      ∀ (root : List Name) (name : Name), ∀ c ∈ candidates (safeFilename name),
        Component c ∧ resolve root c = root ++ [c] := by
  have hok := SaveWorld.ok_nil dir backings
  have hstep (w : SaveWorld) (m : SaveMove) (w' : SaveWorld) (h : w.Ok) (hm : w.Roomy m)
      (hstep : w.step m = some w') : w'.Ok := (h.step hm hstep).1
  refine ⟨?_, ?_, fun root name c hc => ?_⟩
  · exact hroomy.imp hstep (fun w m h hm w' hw' => (h.step hm hw').2) hok
  · exact Runs.always_of_throughout hstep (fun _ h => h.delivered) hok hroomy
  · have hcomp := component_candidate name hc
    exact ⟨hcomp, resolve_component hcomp root⟩

/-! ## Two instances -/

/-- Two finished downloads, and a file `a` that the user has. -/
def twoFinished : SaveWorld :=
  ⟨[(['a'], .file [1])], [⟨some [2], false⟩, ⟨some [3], false⟩], []⟩

/-- Two names that are both cleaned to `a`, one task after the other. -/
def inTurn : List SaveMove :=
  [.spawn 0 ['a'], .judge 0 true, .probe 0, .probe 0, .finishTo 0,
    .spawn 1 ['.', 'a'], .judge 1 true, .probe 1, .probe 1, .probe 1, .finishTo 1]

/-- Both choose, then the first one renames; the second one is about to. -/
def bothChosen : List SaveMove :=
  [.spawn 0 ['a'], .spawn 1 ['.', 'a'], .judge 0 true, .judge 1 true, .probe 0, .probe 1,
    .probe 0, .probe 1, .finishTo 0]

theorem finished_in_turn :
    ∃ w, Runs.run SaveWorld.step twoFinished inTurn = some w ∧
      w.tasks.map SaveTask.phase = [.saved ['a', ' ', '(', '2', ')'] [2],
        .saved ['a', ' ', '(', '3', ')'] [3]] ∧ w.Delivered := by
  have hmoves : (Runs.run SaveWorld.step twoFinished inTurn).map (·.tasks.map SaveTask.phase) =
      some [.saved ['a', ' ', '(', '2', ')'] [2], .saved ['a', ' ', '(', '3', ')'] [3]] := by
    decide +kernel
  obtain ⟨w, hrun, hphases⟩ := Option.map_eq_some_iff.mp hmoves
  have hsafe := finishing_replaces_nothing twoFinished.dir twoFinished.backings inTurn
    (by decide +kernel)
  exact ⟨w, hrun, hphases, hsafe.2.1.run hrun⟩

/-- Where both have chosen, the second rename replaces the file of the first. -/
theorem finished_at_once :
    ∃ w w', Runs.run SaveWorld.step twoFinished bothChosen = some w ∧
      w.step (.finishTo 1) = some w' ∧
      get w.dir ['a', ' ', '(', '2', ')'] = some (.file [2]) ∧
      get w'.dir ['a', ' ', '(', '2', ')'] = some (.file [3]) ∧
      ¬Runs.Throughout SaveWorld.step SaveWorld.Spares twoFinished (bothChosen ++ [.finishTo 1]) := by
  have hmoves : ((Runs.run SaveWorld.step twoFinished bothChosen).bind fun w =>
      (w.step (.finishTo 1)).map fun w' => (get w.dir ['a', ' ', '(', '2', ')'],
        get w'.dir ['a', ' ', '(', '2', ')'])) = some (some (.file [2]), some (.file [3])) := by
    decide +kernel
  obtain ⟨w, hrun, hrest⟩ := Option.bind_eq_some_iff.mp hmoves
  obtain ⟨w', hstep, hres⟩ := Option.map_eq_some_iff.mp hrest
  obtain ⟨hfirst, hsecond⟩ := Prod.mk.inj hres
  refine ⟨w, w', hrun, hstep, hfirst, hsecond, fun hspares => ?_⟩
  have hkept := hspares.after hrun w' hstep _ _ hfirst
  exact absurd (hkept.symm.trans hsecond) (by decide)

end PadMule.Engine
