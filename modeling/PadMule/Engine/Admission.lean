import PadMule.Lib.Quota
import Mathlib.Data.List.Zip

/-
  `mule-engine/src/multi_source.rs`: which downloads a cap on the active ones leaves queued.

  `queued_flags` goes over the registry twice with one counter: the rows that are receiving keep
  their slots first, the others get what is left, both in the order they were added. Each pass is
  a quota on a class of rows (`queuedFlags_eq`), and everything a caller may rely on follows from
  that (`admits`).
-/

namespace PadMule.Engine

open Quota

/-- A row of `admission_row`. -/
structure AdmissionRow where
  paused : Bool
  complete : Bool
  receiving : Bool
deriving DecidableEq

def AdmissionRow.eligible (row : AdmissionRow) : Bool := !row.paused && !row.complete

/-- One row of a pass: the slots that are left, and the flags. -/
def admitRow (wantsReceiving : Bool) (acc : Nat × List Bool) (row : AdmissionRow × Nat) :
    Nat × List Bool :=
  if row.1.paused || row.1.complete || row.1.receiving != wantsReceiving then acc
  else if acc.1 = 0 then (acc.1, acc.2.set row.2 true)
  else (acc.1 - 1, acc.2)

def admissionPass (rows : List AdmissionRow) (acc : Nat × List Bool) (wantsReceiving : Bool) :
    Nat × List Bool :=
  rows.zipIdx.foldl (admitRow wantsReceiving) acc

def queuedFlags (cap : UInt32) (rows : List AdmissionRow) : List Bool :=
  let queued := List.replicate rows.length false
  if cap = 0 then queued
  else ([true, false].foldl (admissionPass rows) (cap.toNat, queued)).2

/-- The rows that a source which calls back may drive. -/
def callbackDriveFlags (cap : UInt32) (rows : List AdmissionRow) : List Bool :=
  (rows.zip (queuedFlags cap rows)).map fun e => !e.1.paused && !e.1.complete && !e.2

/-! ## The passes are quotas -/

/-- The rows of one pass. -/
def AdmissionRow.takesPart (wantsReceiving : Bool) (row : AdmissionRow) : Bool :=
  row.eligible && (row.receiving == wantsReceiving)

theorem admitRow_eq (w : Bool) (acc : Nat × List Bool) (row : AdmissionRow × Nat) :
    admitRow w acc row =
      if row.1.takesPart w then
        (acc.1 - 1, if acc.1 = 0 then acc.2.set row.2 true else acc.2)
      else acc := by
  obtain ⟨⟨paused, complete, receiving⟩, i⟩ := row
  have hnot : (paused || complete || receiving != w) =
      !(AdmissionRow.takesPart w ⟨paused, complete, receiving⟩) := by
    cases paused <;> cases complete <;> cases receiving <;> cases w <;> rfl
  rw [admitRow, hnot]
  cases AdmissionRow.takesPart w ⟨paused, complete, receiving⟩ with
  | false => rfl
  | true =>
    by_cases hzero : acc.1 = 0
    · simp [hzero]
    · simp [hzero]

/-- Where a pass has come to, `done` are the flags of the rows that it is past. -/
theorem foldl_admitRow (w : Bool) (rows : List AdmissionRow) (n : Nat) (done flags : List Bool)
    (hlen : flags.length = rows.length) :
    (rows.zipIdx done.length).foldl (admitRow w) (n, done ++ flags) =
      (n - rows.countP (AdmissionRow.takesPart w),
        done ++ List.zipWith or flags (refused (AdmissionRow.takesPart w) n rows)) := by
  induction rows generalizing n done flags with
  | nil =>
    obtain rfl := List.length_eq_zero_iff.mp hlen
    rfl
  | cons row rows ih =>
    obtain ⟨f, flags, rfl⟩ := List.exists_cons_of_length_eq_add_one hlen
    have hrest : flags.length = rows.length := Nat.succ.inj hlen
    have hnext (b : Bool) (m : Nat) := ih m (done ++ [b]) flags hrest
    simp only [List.length_append, List.length_singleton, List.append_assoc,
      List.singleton_append] at hnext
    rw [List.zipIdx_cons, List.foldl_cons, admitRow_eq, refused]
    by_cases hpart : row.takesPart w
    · rw [if_pos hpart, if_pos hpart, List.countP_cons_of_pos hpart, ← Nat.sub_sub,
        Nat.sub_right_comm]
      by_cases hzero : n = 0
      · subst hzero
        simp only [List.set_append_right _ _ le_rfl, Nat.sub_self, List.set_cons_zero, if_true,
          hnext, List.zipWith_cons_cons, decide_true, Bool.or_true]
      · simp only [hzero, if_false, hnext, List.zipWith_cons_cons, decide_false, Bool.or_false]
    · rw [if_neg hpart, if_neg hpart, List.countP_cons_of_neg hpart]
      simp only [hnext, List.zipWith_cons_cons, Bool.or_false]

theorem admissionPass_eq (w : Bool) {rows : List AdmissionRow} (n : Nat) {flags : List Bool}
    (hlen : flags.length = rows.length) :
    admissionPass rows (n, flags) w =
      (n - rows.countP (AdmissionRow.takesPart w),
        List.zipWith or flags (refused (AdmissionRow.takesPart w) n rows)) :=
  foldl_admitRow w rows n [] flags hlen

/-- The slots that the receiving rows leave. -/
def slotsLeft (cap : UInt32) (rows : List AdmissionRow) : Nat :=
  cap.toNat - rows.countP (AdmissionRow.takesPart true)

theorem queuedFlags_eq {cap : UInt32} (hcap : cap ≠ 0) (rows : List AdmissionRow) :
    queuedFlags cap rows = List.zipWith or (refused (AdmissionRow.takesPart true) cap.toNat rows)
      (refused (AdmissionRow.takesPart false) (slotsLeft cap rows) rows) := by
  have hfirst : List.zipWith or (List.replicate rows.length false)
      (refused (AdmissionRow.takesPart true) cap.toNat rows) =
      refused (AdmissionRow.takesPart true) cap.toNat rows := by
    rw [← length_refused (AdmissionRow.takesPart true) cap.toNat rows, ← List.map_const',
      List.zipWith_map_left, List.zipWith_self]
    exact List.map_id' _
  rw [queuedFlags, if_neg hcap]
  simp only [List.foldl_cons, List.foldl_nil]
  rw [admissionPass_eq true _ List.length_replicate, hfirst,
    admissionPass_eq false _ (length_refused _ _ _)]
  rfl

/-! ## The place of a row -/

/-- How many rows are admitted before row `i`. -/
def ahead (rows : List AdmissionRow) (row : AdmissionRow) (i : Nat) : Nat :=
  if row.receiving then (rows.take i).countP (AdmissionRow.takesPart true)
  else rows.countP (AdmissionRow.takesPart true) +
    (rows.take i).countP (AdmissionRow.takesPart false)

theorem getElem?_queuedFlags (cap : UInt32) (rows : List AdmissionRow) (i : Nat) :
    (queuedFlags cap rows)[i]? =
      rows[i]?.map fun row => row.eligible && decide (cap ≠ 0 ∧ cap.toNat ≤ ahead rows row i) := by
  by_cases hcap : cap = 0
  · rw [queuedFlags, if_pos hcap, ← List.map_const', List.getElem?_map]
    simp [hcap]
  · rw [queuedFlags_eq hcap, List.getElem?_zipWith, getElem?_refused, getElem?_refused]
    cases hrow : rows[i]? with
    | none => rfl
    | some row =>
      cases hreceiving : row.receiving with
      | true => simp [AdmissionRow.takesPart, ahead, hreceiving, hcap]
      | false => simp [AdmissionRow.takesPart, ahead, hreceiving, hcap, slotsLeft, Nat.add_comm]

/-- A row is queued when it is eligible and as many rows as there are slots come before it. -/
theorem queued_iff {cap : UInt32} {rows : List AdmissionRow} {i : Nat} {row : AdmissionRow}
    (h : rows[i]? = some row) :
    (queuedFlags cap rows)[i]? = some true ↔
      row.eligible = true ∧ cap ≠ 0 ∧ cap.toNat ≤ ahead rows row i := by
  rw [getElem?_queuedFlags, h]
  simp

theorem unqueued_iff {cap : UInt32} {rows : List AdmissionRow} {i : Nat} {row : AdmissionRow}
    (h : rows[i]? = some row) (heligible : row.eligible = true) :
    (queuedFlags cap rows)[i]? = some false ↔ cap = 0 ∨ ahead rows row i < cap.toNat := by
  rw [getElem?_queuedFlags, h, Option.map_some, heligible, Bool.true_and, Option.some_inj,
    decide_eq_false_iff_not, not_and, not_le, ← or_iff_not_imp_left]

/-! ## What the flags promise -/

/-- What the sweeps, the callback path and the rows of the UI rely on. -/
structure Admits (cap : UInt32) (rows : List AdmissionRow) : Prop where
  length : (queuedFlags cap rows).length = rows.length
  eligible : ∀ (i : Nat) (row : AdmissionRow), rows[i]? = some row →
    (queuedFlags cap rows)[i]? = some true → row.eligible = true
  /-- No slot is left free while a row waits for one. -/
  slots : (rows.zip (queuedFlags cap rows)).countP (fun e => e.1.eligible && !e.2) =
    if cap = 0 then rows.countP AdmissionRow.eligible
    else min cap.toNat (rows.countP AdmissionRow.eligible)
  receivingFirst : ∀ (i j : Nat) (row other : AdmissionRow), rows[i]? = some row →
    rows[j]? = some other → row.eligible = true → row.receiving = true → other.eligible = true →
    other.receiving = false → (queuedFlags cap rows)[j]? = some false →
    (queuedFlags cap rows)[i]? = some false
  /-- In each class the admitted rows are the first ones. -/
  addOrder : ∀ (i j : Nat) (row other : AdmissionRow), i < j → rows[i]? = some row →
    rows[j]? = some other → row.eligible = true → other.eligible = true →
    row.receiving = other.receiving → (queuedFlags cap rows)[j]? = some false →
    (queuedFlags cap rows)[i]? = some false
  /-- A row that is paused or complete makes no difference to the others. -/
  insensitive : ∀ (front : List AdmissionRow) (row : AdmissionRow) (back : List AdmissionRow),
    rows = front ++ row :: back → row.eligible = false →
    queuedFlags cap rows = (queuedFlags cap (front ++ back)).take front.length ++
      false :: (queuedFlags cap (front ++ back)).drop front.length
  raised : ∀ (cap' : UInt32) (i : Nat), cap ≠ 0 → cap ≤ cap' ∨ cap' = 0 →
    (queuedFlags cap rows)[i]? = some false → (queuedFlags cap' rows)[i]? = some false
  callback : ∀ i : Nat, (callbackDriveFlags cap rows)[i]? = some true →
    (queuedFlags cap rows)[i]? = some false

variable (cap : UInt32) (rows : List AdmissionRow)

theorem length_queuedFlags : (queuedFlags cap rows).length = rows.length := by
  by_cases hcap : cap = 0
  · rw [queuedFlags, if_pos hcap, List.length_replicate]
  · rw [queuedFlags_eq hcap, List.length_zipWith, length_refused, length_refused, Nat.min_self]

theorem takesPart_disjoint (row : AdmissionRow) (h : row.takesPart true = true) :
    row.takesPart false = false := by
  obtain ⟨paused, complete, receiving⟩ := row
  cases receiving with
  | true => simp [AdmissionRow.takesPart]
  | false => simp [AdmissionRow.takesPart] at h

theorem eligible_eq_takesPart (row : AdmissionRow) :
    row.eligible = (row.takesPart true || row.takesPart false) := by
  obtain ⟨paused, complete, receiving⟩ := row
  cases receiving <;> simp [AdmissionRow.takesPart]

theorem countP_eligible :
    rows.countP AdmissionRow.eligible = rows.countP (AdmissionRow.takesPart true) +
      rows.countP (AdmissionRow.takesPart false) := by
  induction rows with
  | nil => rfl
  | cons row rows ih =>
    rw [List.countP_cons, List.countP_cons, List.countP_cons, ih, eligible_eq_takesPart]
    cases hpart : row.takesPart true with
    | true =>
      rw [takesPart_disjoint row hpart, Bool.true_or, if_pos rfl, if_neg Bool.false_ne_true]
      omega
    | false =>
      rw [Bool.false_or, if_neg Bool.false_ne_true]
      omega

theorem slots_queuedFlags :
    (rows.zip (queuedFlags cap rows)).countP (fun e => e.1.eligible && !e.2) =
      if cap = 0 then rows.countP AdmissionRow.eligible
      else min cap.toNat (rows.countP AdmissionRow.eligible) := by
  split_ifs with hcap
  · have hflags : queuedFlags cap rows = List.replicate rows.length false := if_pos hcap
    have hfst : (rows.zip (queuedFlags cap rows)).map Prod.fst = rows :=
      List.map_fst_zip (length_queuedFlags cap rows).ge
    have hnone : ∀ e ∈ rows.zip (queuedFlags cap rows), e.2 = false := fun e he =>
      List.eq_of_mem_replicate (hflags ▸ (List.of_mem_zip he).2)
    calc
      _ = (rows.zip (queuedFlags cap rows)).countP (AdmissionRow.eligible ∘ Prod.fst) :=
        List.countP_congr fun e he => by simp [hnone e he]
      _ = ((rows.zip (queuedFlags cap rows)).map Prod.fst).countP AdmissionRow.eligible :=
        List.countP_map.symm
      _ = rows.countP AdmissionRow.eligible := by rw [hfst]
  · rw [countP_eligible, queuedFlags_eq hcap]
    simp only [eligible_eq_takesPart]
    rw [countP_zip_refused takesPart_disjoint, slotsLeft]
    omega

theorem queuedFlags_insert {front back : List AdmissionRow} {row : AdmissionRow}
    (h : row.eligible = false) :
    queuedFlags cap (front ++ row :: back) =
      (queuedFlags cap (front ++ back)).take front.length ++
        false :: (queuedFlags cap (front ++ back)).drop front.length := by
  have hno (w : Bool) : row.takesPart w = false := by simp [AdmissionRow.takesPart, h]
  have hpass (w : Bool) (n : Nat) : refused (AdmissionRow.takesPart w) n (front ++ row :: back) =
      refused (AdmissionRow.takesPart w) n front ++
        false :: refused (AdmissionRow.takesPart w) (n - front.countP (AdmissionRow.takesPart w))
          back := by
    rw [refused_append, refused, hno, if_neg Bool.false_ne_true]
  by_cases hcap : cap = 0
  · simp [queuedFlags, hcap, List.take_replicate, List.drop_replicate, ← List.replicate_succ]
  · have hleft : slotsLeft cap (front ++ row :: back) = slotsLeft cap (front ++ back) := by
      simp [slotsLeft, hno]
    have hlen (w w' : Bool) (n n' : Nat) :
        (refused (AdmissionRow.takesPart w) n front).length =
          (refused (AdmissionRow.takesPart w') n' front).length := by
      rw [length_refused, length_refused]
    have hfront : front.length = (List.zipWith or
        (refused (AdmissionRow.takesPart true) cap.toNat front)
        (refused (AdmissionRow.takesPart false) (slotsLeft cap (front ++ back)) front)).length := by
      rw [List.length_zipWith, length_refused, length_refused, Nat.min_self]
    rw [queuedFlags_eq hcap, queuedFlags_eq hcap, hpass, hpass, hleft, refused_append,
      refused_append, List.zipWith_append (hlen _ _ _ _), List.zipWith_append (hlen _ _ _ _),
      List.take_left' hfront.symm, List.drop_left' hfront.symm]
    rfl

/-- Every promise is kept, for every cap and every registry. -/
theorem admits : Admits cap rows where
  length := length_queuedFlags cap rows
  eligible i row hrow hqueued := ((queued_iff hrow).mp hqueued).1
  slots := slots_queuedFlags cap rows
  receivingFirst i j row other hrow hother heligible hreceiving heligible' hidle hj := by
    refine (unqueued_iff hrow heligible).mpr (((unqueued_iff hother heligible').mp hj).imp_right ?_)
    intro hslot
    have hbefore : (rows.take i).countP (AdmissionRow.takesPart true) ≤
        rows.countP (AdmissionRow.takesPart true) := (List.take_sublist i rows).countP_le
    rw [ahead, if_neg (by simp [hidle])] at hslot
    rw [ahead, if_pos hreceiving]
    omega
  addOrder i j row other hij hrow hother heligible heligible' hclass hj := by
    refine (unqueued_iff hrow heligible).mpr (((unqueued_iff hother heligible').mp hj).imp_right ?_)
    have hbefore (w : Bool) : (rows.take i).countP (AdmissionRow.takesPart w) ≤
        (rows.take j).countP (AdmissionRow.takesPart w) :=
      (List.take_sublist_take_left hij.le).countP_le
    intro hslot
    have htrue := hbefore true
    have hfalse := hbefore false
    unfold ahead at hslot ⊢
    rw [hclass]
    split_ifs at hslot ⊢ <;> omega
  insensitive front row back hrows h := hrows ▸ queuedFlags_insert cap h
  raised cap' i hcap hraised hi := by
    rw [getElem?_queuedFlags] at hi ⊢
    obtain ⟨row, hrow, hflag⟩ := Option.map_eq_some_iff.mp hi
    have hcaps : cap' ≠ 0 → cap.toNat ≤ cap'.toNat := fun hne =>
      UInt32.le_iff_toNat_le.mp (hraised.resolve_right hne)
    refine Option.map_eq_some_iff.mpr ⟨row, hrow, ?_⟩
    simp only [Bool.and_eq_false_iff, decide_eq_false_iff_not] at hflag ⊢
    refine hflag.imp_right fun hslot hqueued => hslot ⟨hcap, ?_⟩
    exact (hcaps hqueued.1).trans hqueued.2
  callback i hi := by
    rw [callbackDriveFlags, List.getElem?_map, Option.map_eq_some_iff] at hi
    obtain ⟨e, he, hdrive⟩ := hi
    obtain ⟨-, hflag⟩ := List.getElem?_zip_eq_some.mp he
    rw [hflag]
    simp only [Bool.and_eq_true, Bool.not_eq_true'] at hdrive
    rw [hdrive.2]

end PadMule.Engine
