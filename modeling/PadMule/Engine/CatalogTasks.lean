import PadMule.Engine.LibraryAgrees
import PadMule.Lib.Rewrites

/-
  `mule-engine/src/engine.rs`: the tasks that rewrite known.met.

  A finished download, an unshare and a rating each rewrite it under `known_met_lock`;
  `verify_shared_library` does so for each missing file and never takes the lock, which
  `forget_shared_file` asks of its caller. Where none of its rewrites overlaps another one, the
  edits that are over have a serial order, no row is lost and no rating is undone, and the file
  parses (`catalog_keeps_updates`).
-/

namespace PadMule.Engine.CatalogTasks

open PadMule.Proto PadMule.Files LibraryAgrees Rewrites
open LibraryAgrees.World (MAX_FILE_COMMENT_LEN length_comment length_retag_le)

/-- One rewrite: `persist_shared_file`, `forget_shared_file`, or `update_shared_file_meta` with what
    `set_file_rating` cuts the rating and the comment to. -/
inductive CatalogEdit where
  | persist (sf : SharedFile) (date : UInt32)
  | forget (hash : Hash16)
  | rate (hash : Hash16) (rating : UInt8) (comment : List Char)
deriving DecidableEq

namespace CatalogEdit

def cutComment (comment : List Char) : String := String.ofList (comment.take MAX_FILE_COMMENT_LEN)

/-- What the edit writes back, given what it has read. -/
def newCatalog : CatalogEdit → Option KnownMet → Option KnownMet
  | persist sf date, catalog => persistSharedFile catalog sf date
  | forget hash, catalog => forgetSharedFile catalog hash
  | rate hash rating comment, catalog =>
    updateSharedFileMeta catalog hash (min rating 5) (cutComment comment)

def op : CatalogEdit → LibraryOp
  | persist sf date => .persist sf date
  | forget hash => .forget hash
  | rate hash rating comment => .updateMeta hash (min rating 5) (cutComment comment)

end CatalogEdit

def newBytes (e : CatalogEdit) (knownMet : Option Bytes) : Option Bytes :=
  (e.newCatalog (catalog knownMet)).map writeKnownMet

inductive Caller where
  | finishDownload (sf : SharedFile) (date : UInt32) (outcome : Outcome Bytes)
  | unshareFile (hash : Hash16) (outcome : Outcome Bytes)
  | setFileRating (hash : Hash16) (rating : UInt8) (comment : List Char) (outcome : Outcome Bytes)
  /-- One rewrite for each file that is missing, all without the lock. -/
  | verifySharedLibrary (missing : List (Hash16 × Outcome Bytes))

def Caller.task : Caller → Task CatalogEdit Bytes
  | finishDownload sf date outcome => ⟨true, [(.persist sf date, outcome)], .idle⟩
  | unshareFile hash outcome => ⟨true, [(.forget hash, outcome)], .idle⟩
  | setFileRating hash rating comment outcome =>
    ⟨true, [(.rate hash rating comment, outcome)], .idle⟩
  | verifySharedLibrary missing => ⟨false, missing.map fun m => (.forget m.1, m.2), .idle⟩

variable {ι : Type} [DecidableEq ι]

def begin (knownMet tmp : Option Bytes) (callers : ι → Caller) : System ι CatalogEdit Bytes :=
  ⟨knownMet, tmp, none, fun i => (callers i).task⟩

def step (s : System ι CatalogEdit Bytes) (i : ι) : Option (System ι CatalogEdit Bytes) :=
  s.step newBytes i

/-! ## What fits the format -/

/-- The lengths and counts of what is added fit their fields. -/
def Fits (e : CatalogEdit) (knownMet : Option Bytes) : Prop :=
  match e with
  | .persist sf _ =>
    sf.Fits ∧ ((catalog knownMet).getD emptyCatalog).entries.length + 1 < 2 ^ 32
  | .forget _ => True
  | .rate hash _ _ => ∀ met, catalog knownMet = some met → ∀ e ∈ met.entries, e.fileHash = hash →
      e.tags.length + 2 < 2 ^ 32

instance (e : CatalogEdit) (knownMet : Option Bytes) : Decidable (Fits e knownMet) :=
  match e with
  | .persist sf _ => inferInstanceAs (Decidable (sf.Fits ∧ _ < _))
  | .forget _ => .isTrue trivial
  | .rate hash _ _ => decidable_of_iff (∀ met ∈ (catalog knownMet).toList, ∀ e ∈ met.entries,
      e.fileHash = hash → e.tags.length + 2 < 2 ^ 32) (by simp [Fits])

theorem catalog_writable {knownMet : Option Bytes} {met : KnownMet}
    (h : catalog knownMet = some met) : met.Writable := by
  obtain ⟨b, -, hb⟩ := Option.bind_eq_some_iff.mp h
  cases hread : readKnownMet b with
  | error err =>
    rw [hread] at hb
    cases hb
  | ok met' =>
    rw [hread] at hb
    cases hb
    exact writable_of_readKnownMet hread

theorem catalog_writeKnownMet {met : KnownMet} (h : met.Writable) :
    catalog (some (writeKnownMet met)) = some met := by
  rw [catalog, Option.bind_some, readKnownMet_writeKnownMet h]
  rfl

theorem writable_newCatalog {e : CatalogEdit} {knownMet : Option Bytes} {met : KnownMet}
    (hfits : Fits e knownMet) (h : e.newCatalog (catalog knownMet) = some met) : met.Writable := by
  have hold : ((catalog knownMet).getD emptyCatalog).Writable := by
    cases hcat : catalog knownMet with
    | none => exact writable_emptyCatalog
    | some old => exact catalog_writable hcat
  cases e with
  | persist sf date => exact writable_persist rfl hold (fun _ => hfits) h
  | forget hash =>
    cases hcat : catalog knownMet with
    | none =>
      rw [hcat] at h
      cases h
    | some old =>
      rw [hcat] at h
      exact writable_forget (catalog_writable hcat) h
  | rate hash rating comment =>
    cases hcat : catalog knownMet with
    | none =>
      rw [hcat] at h
      cases h
    | some old =>
      rw [hcat] at h
      refine writable_updateMeta (catalog_writable hcat) (fun row hrow => ?_) h
      have hmem := List.mem_of_find?_eq_some hrow
      have hhash : row.fileHash = hash := by simpa using List.find?_some hrow
      have hcount := hfits old hcat row hmem hhash
      have hle := length_retag_le (min rating 5) (CatalogEdit.cutComment comment) row
      exact ⟨length_comment comment, by omega⟩

/-! ## The rows -/

/-- The rows of the catalog; of one that does not parse there are none. -/
def rowsOf (knownMet : Option Bytes) : List KnownFileEntry :=
  ((catalog knownMet).map KnownMet.entries).getD []

theorem rows_applyEdit {e : CatalogEdit} {knownMet : Option Bytes}
    (hfits : (newBytes e knownMet).isSome → Fits e knownMet) :
    Edited e.op (rowsOf knownMet) (rowsOf (applyEdit newBytes knownMet (e, .renamed))) := by
  have hrows : rowsOf (applyEdit newBytes knownMet (e, .renamed)) =
      ((e.newCatalog (catalog knownMet)).map KnownMet.entries).getD (rowsOf knownMet) := by
    show rowsOf ((newBytes e knownMet).or knownMet) = _
    cases hnew : e.newCatalog (catalog knownMet) with
    | none =>
      rw [newBytes, hnew]
      rfl
    | some met =>
      have hbytes : newBytes e knownMet = some (writeKnownMet met) := by
        rw [newBytes, hnew]
        rfl
      have hw := writable_newCatalog (hfits (by rw [hbytes]; rfl)) hnew
      rw [hbytes, Option.some_or, rowsOf, catalog_writeKnownMet hw]
      rfl
  rw [hrows]
  cases hcat : catalog knownMet with
  | none =>
    have hnone : rowsOf knownMet = [] := by
      rw [rowsOf, hcat]
      rfl
    rw [hnone]
    cases e with
    | persist sf date => exact @edited_persist none emptyCatalog sf date rfl
    | forget hash => rfl
    | rate hash rating comment => exact .inl ⟨nofun, rfl⟩
  | some met =>
    have hsome : rowsOf knownMet = met.entries := by
      rw [rowsOf, hcat]
      rfl
    rw [hsome]
    cases e with
    | persist sf date => exact @edited_persist (some met) met sf date rfl
    | forget hash => exact edited_forget
    | rate hash rating comment => exact edited_updateMeta

def HasRow (hash : Hash16) (rows : List KnownFileEntry) : Prop := ∃ e ∈ rows, e.fileHash = hash

/-- The first row of the hash, which is the one that is read, says so. -/
def Rated (hash : Hash16) (rating : UInt8) (comment : List Char) (rows : List KnownFileEntry) :
    Prop :=
  ∃ e old, rows.find? (fun e => e.fileHash = hash) = some e ∧
    Retagged (min rating 5) (CatalogEdit.cutComment comment) old e

section Rows

variable {e : CatalogEdit} {hash : Hash16} {rows rows' : List KnownFileEntry}

theorem find?_othersOf {op : LibraryOp} (h : op.named ≠ some hash) :
    (othersOf op rows).find? (fun e => e.fileHash = hash) =
      rows.find? fun e => e.fileHash = hash := by
  rw [othersOf, List.find?_filter]
  congr 1
  funext e
  by_cases he : e.fileHash = hash
  · simp [he, h]
  · simp [he]

theorem hasRow_iff : HasRow hash rows ↔ (rows.find? fun e => e.fileHash = hash).isSome := by
  simp [HasRow]

/-- The row of a hash stays as it is, unless the edit forgets or rates it. -/
theorem find?_edited (h : Edited e.op rows rows') (hrow : HasRow hash rows)
    (hforget : e ≠ .forget hash) (hrate : ∀ rating comment, e ≠ .rate hash rating comment) :
    rows'.find? (fun e => e.fileHash = hash) = rows.find? fun e => e.fileHash = hash := by
  by_cases hnamed : e.op.named = some hash
  · cases e with
    | persist sf date =>
      obtain rfl : sf.hash = hash := Option.some.inj hnamed
      rcases h with ⟨-, rfl⟩ | ⟨hnone, -⟩
      · rfl
      · obtain ⟨row, hmem, hhash⟩ := hrow
        exact absurd hhash (hnone row hmem)
    | forget hash' =>
      obtain rfl : hash' = hash := Option.some.inj hnamed
      exact absurd rfl hforget
    | rate hash' rating comment =>
      obtain rfl : hash' = hash := Option.some.inj hnamed
      exact absurd rfl (hrate rating comment)
  · rw [← find?_othersOf hnamed, h.others, find?_othersOf hnamed]

theorem hasRow_persist {sf : SharedFile} {date : UInt32}
    (h : Edited (.persist sf date) rows rows') : HasRow sf.hash rows' := by
  rcases h with ⟨hrow, rfl⟩ | ⟨-, rfl⟩
  · exact hrow
  · exact ⟨sf.entry date, List.mem_append_right _ (List.mem_singleton_self _), rfl⟩

/-- After a rating the first row of the hash, if there is one, is the re-tagged one. -/
theorem rated_rate {rating : UInt8} {comment : List Char}
    (h : Edited (CatalogEdit.rate hash rating comment).op rows rows') (hrow : HasRow hash rows) :
    Rated hash rating comment rows' := by
  rcases h with ⟨hnone, -⟩ | ⟨pre, row, post, row', -, hpre, hhash, hretag, rfl⟩
  · obtain ⟨row, hmem, hhash⟩ := hrow
    exact absurd hhash (hnone row hmem)
  · refine ⟨row', row, ?_, hretag⟩
    have hskip : pre.find? (fun e => e.fileHash = hash) = none :=
      List.find?_eq_none.mpr fun x hx => by simpa using hpre x hx
    rw [List.find?_append, hskip, Option.none_or]
    exact List.find?_cons_of_pos (by simp [hretag.fileHash, hhash])

/-- Only forgetting it removes the row of a hash. -/
theorem hasRow_edited (h : Edited e.op rows rows') (hrow : HasRow hash rows)
    (hforget : e ≠ .forget hash) : HasRow hash rows' := by
  by_cases hrate : ∀ rating comment, e ≠ .rate hash rating comment
  · rw [hasRow_iff, find?_edited h hrow hforget hrate]
    exact hasRow_iff.mp hrow
  · simp only [not_forall, not_not] at hrate
    obtain ⟨rating, comment, rfl⟩ := hrate
    obtain ⟨row, -, hfind, -⟩ := rated_rate h hrow
    exact hasRow_iff.mpr (by rw [hfind]; rfl)

end Rows

/-! ## Edits one after the other -/

/-- What a list of edits has made of a catalog. -/
structure Kept (start knownMet : Option Bytes) (edits : List (CatalogEdit × Outcome Bytes)) :
    Prop where
  serial : knownMet = serial newBytes start edits
  /-- It parses, or it has not been touched. -/
  parses : knownMet = start ∨ ∃ met, met.Writable ∧ knownMet = some (writeKnownMet met)
  /-- A file whose persist went well has a row, unless it was forgotten since. -/
  rows : ∀ pre sf date post, edits = pre ++ (.persist sf date, .renamed) :: post →
    (∀ x ∈ post, x.1 ≠ .forget sf.hash) → HasRow sf.hash (rowsOf knownMet)
  /-- A rating stands, unless the file was rated again or forgotten since. -/
  ratings : ∀ pre hash rating comment post,
    edits = pre ++ (.rate hash rating comment, .renamed) :: post →
    (∀ x ∈ post, x.1 ≠ .forget hash ∧ ∀ rating comment, x.1 ≠ .rate hash rating comment) →
    HasRow hash (rowsOf (Rewrites.serial newBytes start pre)) →
      Rated hash rating comment (rowsOf knownMet)

theorem Kept.nil (start : Option Bytes) : Kept start start [] where
  serial := rfl
  parses := .inl rfl
  rows pre sf date post h := by simp at h
  ratings pre hash rating comment post h := by simp at h

/-- The last of the edits, or the ones before it. -/
theorem concat_cases {α : Type} {l pre post : List α} {a b : α}
    (h : l ++ [a] = pre ++ b :: post) :
    post = [] ∧ l = pre ∧ a = b ∨ ∃ post', post = post' ++ [a] ∧ l = pre ++ b :: post' := by
  rcases List.eq_nil_or_concat' post with rfl | ⟨post', c, rfl⟩
  · obtain ⟨rfl, hab⟩ := List.append_inj' h rfl
    exact .inl ⟨rfl, rfl, List.singleton_inj.mp hab⟩
  · rw [← List.cons_append, ← List.append_assoc] at h
    obtain ⟨rfl, hac⟩ := List.append_inj' h rfl
    rw [List.singleton_inj.mp hac]
    exact .inr ⟨post', rfl, rfl⟩

/-- An edit whose rename was not reached. -/
theorem applyEdit_unrenamed {knownMet : Option Bytes} {edit : CatalogEdit × Outcome Bytes}
    (h : edit.2 ≠ .renamed) : applyEdit newBytes knownMet edit = knownMet := by
  obtain ⟨e, o⟩ := edit
  cases o with
  | renamed => exact absurd rfl h
  | failed left => rfl
  | unrenamed => rfl

theorem parses_applyEdit {knownMet : Option Bytes} {edit : CatalogEdit × Outcome Bytes}
    (hfits : edit.2 = .renamed → (newBytes edit.1 knownMet).isSome → Fits edit.1 knownMet) :
    applyEdit newBytes knownMet edit = knownMet ∨
      ∃ met, met.Writable ∧ applyEdit newBytes knownMet edit = some (writeKnownMet met) := by
  by_cases ho : edit.2 = .renamed
  · obtain ⟨e, o⟩ := edit
    obtain rfl : o = .renamed := ho
    show (newBytes e knownMet).or knownMet = _ ∨ _
    cases hnew : newBytes e knownMet with
    | none => exact .inl rfl
    | some b =>
      have hfits := hfits rfl (by rw [hnew]; rfl)
      obtain ⟨met, hmet, rfl⟩ := Option.map_eq_some_iff.mp hnew
      refine .inr ⟨met, writable_newCatalog hfits hmet, ?_⟩
      show (newBytes e knownMet).or knownMet = _
      rw [hnew, Option.some_or]
  · exact .inl (applyEdit_unrenamed ho)

theorem Kept.concat {start knownMet : Option Bytes} {edits : List (CatalogEdit × Outcome Bytes)}
    {edit : CatalogEdit × Outcome Bytes} (h : Kept start knownMet edits)
    (hfits : edit.2 = .renamed → (newBytes edit.1 knownMet).isSome → Fits edit.1 knownMet) :
    Kept start (applyEdit newBytes knownMet edit) (edits ++ [edit]) where
  serial := by
    rw [serial_concat, ← h.serial]
  parses := by
    rcases parses_applyEdit hfits with hsame | hparses
    · rw [hsame]
      exact h.parses
    · exact .inr hparses
  rows pre sf date post heq hpost := by
    rcases concat_cases heq with ⟨rfl, rfl, rfl⟩ | ⟨post, rfl, hedits⟩
    · exact hasRow_persist (rows_applyEdit (hfits rfl))
    · have hold := h.rows pre sf date post hedits fun x hx => hpost x (List.mem_append_left _ hx)
      by_cases ho : edit.2 = .renamed
      · obtain ⟨e, o⟩ := edit
        obtain rfl : o = .renamed := ho
        exact hasRow_edited (rows_applyEdit (hfits rfl)) hold (hpost (e, .renamed) (by simp))
      · rw [applyEdit_unrenamed ho]
        exact hold
  ratings pre hash rating comment post heq hpost hrow := by
    rcases concat_cases heq with ⟨rfl, rfl, rfl⟩ | ⟨post, rfl, hedits⟩
    · rw [← h.serial] at hrow
      exact rated_rate (rows_applyEdit (hfits rfl)) hrow
    · have hold := h.ratings pre hash rating comment post hedits
        (fun x hx => hpost x (List.mem_append_left _ hx)) hrow
      by_cases ho : edit.2 = .renamed
      · obtain ⟨e, o⟩ := edit
        obtain rfl : o = .renamed := ho
        obtain ⟨hforget, hrate⟩ := hpost (e, .renamed) (by simp)
        obtain ⟨row, old, hfind, hretag⟩ := hold
        have hhas : HasRow hash (rowsOf knownMet) := hasRow_iff.mpr (by rw [hfind]; rfl)
        exact ⟨row, old,
          (find?_edited (rows_applyEdit (hfits rfl)) hhas hforget hrate).trans hfind, hretag⟩
      · rw [applyEdit_unrenamed ho]
        exact hold

/-- In every run in which no rewrite of `verify_shared_library` overlaps another one and what is
    added fits the format, in every state the edits that are over have a serial order, by which
    no row is lost and no rating is undone, and the file parses or is still the one at the start. -/
theorem catalog_keeps_updates (knownMet tmp : Option Bytes) (callers : ι → Caller)
    (schedule : List ι)
    (hclean : Runs.Throughout step (Rewrites.Clean newBytes Fits) (begin knownMet tmp callers)
      schedule) :
    Runs.Always step (fun s => ∃ order, SerialOrder newBytes (begin knownMet tmp callers) s order ∧
      Kept knownMet s.file (order.map Prod.snd)) (begin knownMet tmp callers) schedule := by
  have hidle : ∀ i, ((begin knownMet tmp callers).tasks i).phase = .idle := by
    intro i
    show (callers i).task.phase = .idle
    cases callers i <;> rfl
  exact always_serial hidle (Kept.nil knownMet) (fun _ _ _ h hfits => h.concat hfits) hclean

/-! ## A rewrite without the lock -/

def goneHash : Hash16 := Digest.fill 16 0x11

def finished : SharedFile :=
  ⟨Digest.fill 16 0x22, 5, [97], [], "a", 0, "", none⟩

/-- A download is finished and a file is found missing. -/
def finishAndVerify : Bool → Caller
  | false => .finishDownload finished 0 .renamed
  | true => .verifySharedLibrary [(goneHash, .renamed)]

/-- One after the other: the lock, and then twice a read, a write and a rename. -/
theorem catalog_keeps_updates_apart :
    Runs.Always step (fun s => ∃ order,
        SerialOrder newBytes (begin none none finishAndVerify) s order ∧
          Kept none s.file (order.map Prod.snd)) (begin none none finishAndVerify)
      [false, false, false, false, true] :=
  catalog_keeps_updates none none finishAndVerify [false, false, false, false, true]
    (by decide +kernel)

/-- A catalog with the row of the missing file. -/
def catalogBefore : Bytes := writeKnownMet ⟨MET_HEADER, [⟨0, goneHash, [], []⟩]⟩

/-- The rewrite for the missing file reads the catalog before the row of the finished file is added,
    and is renamed over it afterwards. -/
def overlapped : List Bool := [true, false, false, false, false, true, true]

theorem overlapped_ends :
    (Runs.run step (begin (some catalogBefore) none finishAndVerify) overlapped).map
        (fun s =>
          (rowsOf s.file == [], (s.tasks false).todo.isEmpty, (s.tasks true).todo.isEmpty)) =
      some (true, true, true) := by
  decide +kernel

theorem eq_or_eq_of_perm_pair {α : Type} {a b : α} {l : List α} (h : [a, b].Perm l) :
    l = [a, b] ∨ l = [b, a] := by
  obtain ⟨x, y, rfl⟩ := List.length_eq_two.mp h.length_eq.symm
  rcases List.mem_pair.mp (h.subset (List.mem_cons_self ..)) with rfl | rfl
  · have hb := List.singleton_perm_singleton.mp ((List.perm_cons a).mp h)
    exact .inl (by rw [hb])
  · have hb := List.singleton_perm_singleton.mp
      ((List.perm_cons a).mp (h.trans (List.Perm.swap a x [])))
    exact .inr (by rw [hb])

theorem serial_rows {edits : List (CatalogEdit × Outcome Bytes)}
    (h : [(CatalogEdit.persist finished 0, .renamed), (.forget goneHash, .renamed)].Perm edits) :
    rowsOf (serial newBytes (some catalogBefore) edits) ≠ [] := by
  rcases eq_or_eq_of_perm_pair h with rfl | rfl <;> decide +kernel

/-- The row of the finished file is lost, which it is in no serial order. -/
theorem unlocked_rewrite_loses_a_row :
    ¬ ∀ (knownMet tmp : Option Bytes) (callers : Bool → Caller) (schedule : List Bool)
        (s : System Bool CatalogEdit Bytes),
      Runs.run step (begin knownMet tmp callers) schedule = some s →
      (∀ i, (s.tasks i).todo = []) →
      ∃ order, (∀ i, madeBy order i = (callers i).task.todo) ∧
        rowsOf s.file = rowsOf (serial newBytes knownMet (order.map Prod.snd)) := by
  intro h
  obtain ⟨s, hrun, hends⟩ := Option.map_eq_some_iff.mp overlapped_ends
  obtain ⟨hrows, hfalse, htrue⟩ : rowsOf s.file = [] ∧ (s.tasks false).todo = [] ∧
      (s.tasks true).todo = [] := by simpa using hends
  obtain ⟨order, hmade, hsame⟩ := h _ _ _ _ s hrun fun i => by cases i <;> assumption
  have hperm := perm_of_madeBy order
  rw [hmade false, hmade true] at hperm
  exact serial_rows hperm (hsame ▸ hrows)

end PadMule.Engine.CatalogTasks
