import PadMule.Proto.AichBlocks

/-
  AICH recovery end to end: the payload `create_part_recovery_data` writes for a part is
  accepted by a fresh receiver and gives it the part's block hashes.

  The payload lists the siblings along the part's path, then the part's leaves
  (`recoveryRecords`). Planted into a receiving tree they make it full below the true
  tree, which verifies; sizes up to `2 ^ 38` keep every path within the ident bounds.
-/

namespace PadMule.Proto.Aich

open LittleEndian BitPath

namespace Node

/-! ## The records of a part -/

/-- The sibling at each level above the node at `p`, then the leaves below it. -/
def recoveryRecords : List Bool → Node → List (List Bool × Hash20)
  | [], t => t.leafRecords
  | _ :: _, .absent => []
  | true :: p, .node _ _ _ _ l r =>
    (r.hash.map fun x => ([false], x)).toList ++ (recoveryRecords p l).map (Prod.map (true :: ·) id)
  | false :: p, .node _ _ _ _ l r =>
    (l.hash.map fun x => ([true], x)).toList ++ (recoveryRecords p r).map (Prod.map (false :: ·) id)

section

variable {pair : Hash20 → Hash20 → Hash20}

theorem Complete.length_recoveryRecords {n start size : Nat} {s s' : Bool} {p : List Bool}
    {T : Node} (h : Complete pair n s T) (hc : Covers n s p start size s') :
    (recoveryRecords p T).length = p.length + (T.sub p).leafRecords.length := by
  induction hc generalizing T with
  | here n s => cases T <;> simp [recoveryRecords]
  | left hin _ ih =>
    cases h with
    | leaf _ hn => omega
    | inner _ hl hr hlh hrh =>
      simp only [recoveryRecords, hrh, Node.sub, List.length_append, List.length_map, ih hl]
      simp
      omega
  | right hin _ ih =>
    cases h with
    | leaf _ hn => omega
    | inner _ hl hr hlh hrh =>
      simp only [recoveryRecords, hlh, Node.sub, List.length_append, List.length_map, ih hr]
      simp
      omega

/-- Every record carries the true hash of its path. -/
theorem Complete.hash_of_mem_recovery {n start size : Nat} {s s' : Bool} {p : List Bool}
    {T : Node} (h : Complete pair n s T) (hc : Covers n s p start size s')
    {r : List Bool × Hash20} (hr : r ∈ recoveryRecords p T) :
    (T.sub r.1).hash = some r.2 ∧ r.1.length < T.height ∧ (EMBLOCKSIZE < n → r.1 ≠ []) := by
  induction hc generalizing T r with
  | here n s =>
    have hr' : r ∈ T.leafRecords := by
      cases T <;> exact hr
    obtain ⟨hh, hlen⟩ := h.hash_of_mem hr'
    refine ⟨hh, hlen, ?_⟩
    intro hn hnil
    cases h with
    | leaf x hle =>
      have := le_baseFor_iff.mp hle
      omega
    | inner hin hl _ _ _ =>
      rw [leafRecords_inner hl.present, List.mem_append, List.mem_map, List.mem_map] at hr'
      obtain ⟨_, _, rfl⟩ | ⟨_, _, rfl⟩ := hr' <;> cases hnil
  | left hin _ ih =>
    cases h with
    | leaf _ hn => omega
    | @inner _ _ l r' lh rh _ hl hr' hlh hrh =>
      have hpos := hr'.height_pos
      simp only [recoveryRecords, hrh, List.mem_append, List.mem_map, Option.map_some,
        Option.toList_some, List.mem_singleton] at hr
      obtain rfl | ⟨q, hq, rfl⟩ := hr
      · refine ⟨hrh, ?_, by simp⟩
        simp only [List.length_singleton, height]
        omega
      · obtain ⟨hh, hlen, -⟩ := ih hl hq
        refine ⟨hh, ?_, by simp [Prod.map]⟩
        simp only [Prod.map, List.length_cons, height]
        omega
  | right hin _ ih =>
    cases h with
    | leaf _ hn => omega
    | @inner _ _ l r' lh rh _ hl hr' hlh hrh =>
      have hpos := hl.height_pos
      simp only [recoveryRecords, hlh, List.mem_append, List.mem_map, Option.map_some,
        Option.toList_some, List.mem_singleton] at hr
      obtain rfl | ⟨q, hq, rfl⟩ := hr
      · refine ⟨hlh, ?_, by simp⟩
        simp only [List.length_singleton, height]
        omega
      · obtain ⟨hh, hlen, -⟩ := ih hr' hq
        refine ⟨hh, ?_, by simp [Prod.map]⟩
        simp only [Prod.map, List.length_cons, height]
        omega

/-- Every leaf of the part is among the records. -/
theorem Complete.mem_recovery_of_leaf {n start size : Nat} {s s' : Bool} {p : List Bool}
    {T : Node} (h : Complete pair n s T) (hc : Covers n s p start size s')
    {r : List Bool × Hash20} (hr : r ∈ (T.sub p).leafRecords) :
    (p ++ r.1, r.2) ∈ recoveryRecords p T := by
  induction hc generalizing T with
  | here n s =>
    rw [sub_nil] at hr
    cases T <;> exact hr
  | left hin _ ih =>
    cases h with
    | leaf _ hn => omega
    | inner _ hl _ _ _ =>
      simp only [recoveryRecords, List.mem_append, List.mem_map]
      exact .inr ⟨_, ih hl hr, rfl⟩
  | right hin _ ih =>
    cases h with
    | leaf _ hn => omega
    | inner _ _ hr' _ _ =>
      simp only [recoveryRecords, List.mem_append, List.mem_map]
      exact .inr ⟨_, ih hr' hr, rfl⟩

/-! ## Writing them -/

theorem childIdent_ofPath {π : List Bool} (hlen : π.length ≤ 30) (d : Bool) :
    childIdent (ofPath π) d = ofPath (π ++ [d]) := by
  have hlt : ofPath π < 2 ^ 31 := ofPath_lt_of_le hlen
  rw [childIdent, Nat.mod_eq_of_lt (by omega), ofPath_append_singleton, Nat.mul_comm]

theorem writeIdent_ofPath {π : List Bool} (ident32 : Bool)
    (hfit : ident32 = false → π.length ≤ 15) :
    writeIdent (ofPath π) ident32 = some (toLE (identWidth ident32) (ofPath π)) := by
  cases ident32 with
  | true => rfl
  | false =>
    have hlt : ofPath π < 2 ^ 16 := ofPath_lt_of_le (hfit rfl)
    rw [writeIdent, if_neg (by simp), if_neg (by omega)]
    rfl

/-- `records` written under the path prefix `π`. -/
def encodeUnder (ident32 : Bool) (π : List Bool) (recs : List (List Bool × Hash20)) : Bytes :=
  (recs.map (Prod.map (π ++ ·) id)).flatMap (encodeRecord (identWidth ident32))

theorem encodeUnder_append (ident32 : Bool) (π : List Bool)
    (recs recs' : List (List Bool × Hash20)) :
    encodeUnder ident32 π (recs ++ recs') =
      encodeUnder ident32 π recs ++ encodeUnder ident32 π recs' := by
  rw [encodeUnder, List.map_append, List.flatMap_append]
  rfl

theorem encodeUnder_map (ident32 : Bool) (π : List Bool) (d : Bool)
    (recs : List (List Bool × Hash20)) :
    encodeUnder ident32 π (recs.map (Prod.map (d :: ·) id)) =
      encodeUnder ident32 (π ++ [d]) recs := by
  rw [encodeUnder, encodeUnder, List.map_map]
  congr 2
  funext r
  simp [Prod.map]

theorem encodeUnder_nil (ident32 : Bool) (recs : List (List Bool × Hash20)) :
    encodeUnder ident32 [] recs = recs.flatMap (encodeRecord (identWidth ident32)) := by
  rw [encodeUnder]
  congr 1
  exact List.map_id recs

theorem Complete.writeHash_record {n : Nat} {s : Bool} {T : Node} (h : Complete pair n s T)
    {ident : Nat} {ident32 : Bool} {x : Hash20} (hx : T.hash = some x) {π : List Bool}
    (hid : childIdent ident s = ofPath π) (hfit : ident32 = false → π.length ≤ 15) :
    T.writeHash ident ident32 = some (encodeRecord (identWidth ident32) (π, x)) := by
  cases h with
  | leaf y hn =>
    cases hx
    rw [writeHash, hid, writeIdent_ofPath ident32 hfit]
    rfl
  | inner hn hl hr hlh hrh =>
    cases hx
    rw [writeHash, hid, writeIdent_ofPath ident32 hfit]
    rfl

/-- `write_lowest_level` writes the leaf records under the path of the node. -/
theorem Complete.writeLowestLevel_records {n : Nat} {s : Bool} {T : Node}
    (h : Complete pair n s T) {ident : Nat} (ident32 : Bool) {π : List Bool}
    (hid : childIdent ident s = ofPath π) (hlen : π.length + T.height ≤ 31)
    (hfit : ident32 = false → π.length + T.height ≤ 16) :
    T.writeLowestLevel false ident32 ident = some (encodeUnder ident32 π T.leafRecords) := by
  induction h generalizing ident π with
  | @leaf n s x hn =>
    rw [Node.writeLowestLevel]
    simp only [hid, isAbsent, Bool.and_self, if_true, if_neg (Nat.not_lt_of_le hn)]
    rw [writeIdent_ofPath ident32 (fun h32 => by have := hfit h32; simp only [height] at this; omega)]
    simp [leafRecords, encodeUnder, encodeRecord]
  | @inner n s l r lh rh hn hl hr _ _ ihl ihr =>
    simp only [height] at hlen hfit
    rw [Node.writeLowestLevel]
    simp only [hid, hl.present, hr.present]
    rw [ihl (childIdent_ofPath (by omega) true) (by simp; omega)
        (fun h32 => by have := hfit h32; simp; omega),
      ihr (childIdent_ofPath (by omega) false) (by simp; omega)
        (fun h32 => by have := hfit h32; simp; omega),
      leafRecords_inner hl.present, encodeUnder_append, encodeUnder_map, encodeUnder_map]
    rfl

/-- `create_part_recovery` writes the recovery records under the path of the node. -/
theorem Complete.createPartRecovery_records {n start size : Nat} {s s' : Bool} {p : List Bool}
    {T : Node} (h : Complete pair n s T) (hc : Covers n s p start size s') (hpos : 0 < n)
    {ident : Nat} (ident32 : Bool) {π : List Bool} (hid : childIdent ident s = ofPath π)
    (hlen : π.length + T.height ≤ 31) (hfit : ident32 = false → π.length + T.height ≤ 16) :
    T.createPartRecovery ident32 start size ident =
      some (encodeUnder ident32 π (recoveryRecords p T)) := by
  induction hc generalizing T ident π with
  | here n s =>
    have hw := h.writeLowestLevel_records ident32 hid hlen hfit
    cases h with
    | leaf x hn => simpa [createPartRecovery, recoveryRecords] using hw
    | inner hn hl hr _ _ => simpa [createPartRecovery, recoveryRecords] using hw
  | @left n start size s s' p hin hc' ih =>
    have hb := hc'.bounds (leftSize_pos s hin)
    have hlt := leftSize_lt s hin
    cases h with
    | leaf _ hn => omega
    | @inner _ _ l r lh rh _ hl hr hlh hrh =>
      simp only [height] at hlen hfit
      have hrpos := hr.height_pos
      have hsib := @Complete.writeHash_record _ _ _ _ hr _ ident32 _ hrh _
        (@childIdent_ofPath π (by omega) false)
        (fun h32 => by have := hfit h32; simp; omega)
      have hrec := ih hl (leftSize_pos s hin) (@childIdent_ofPath π (by omega) true)
        (by simp; omega) (fun h32 => by have := hfit h32; simp; omega)
      have heq : leftSize n s = splitLeft n s (baseFor n) := rfl
      rw [createPartRecovery, if_neg (by omega), if_neg (by omega), if_neg (by omega)]
      simp only [hid, hl.present, hr.present, hrh, hsib, hrec]
      rw [if_neg (by simp), if_pos (by omega), if_neg (by simp; omega)]
      simp only [recoveryRecords, hrh, encodeUnder_append, encodeUnder_map]
      simp [encodeUnder]
  | @right n start size s s' p hin hc' ih =>
    have hlt := leftSize_lt s hin
    have hb := hc'.bounds (by omega)
    have hposl := leftSize_pos s hin
    cases h with
    | leaf _ hn => omega
    | @inner _ _ l r lh rh _ hl hr hlh hrh =>
      simp only [height] at hlen hfit
      have hlpos := hl.height_pos
      have hsib := @Complete.writeHash_record _ _ _ _ hl _ ident32 _ hlh _
        (@childIdent_ofPath π (by omega) true)
        (fun h32 => by have := hfit h32; simp; omega)
      have hrec := ih hr (by omega) (@childIdent_ofPath π (by omega) false)
        (by simp; omega) (fun h32 => by have := hfit h32; simp; omega)
      have heq : leftSize n s = splitLeft n s (baseFor n) := rfl
      rw [createPartRecovery, if_neg (by omega), if_neg (by omega), if_neg (by omega)]
      simp only [hid, hl.present, hr.present, hlh, hsib, Nat.add_sub_cancel_left, hrec]
      rw [if_neg (by simp), if_neg (by omega), if_neg (by simp)]
      simp only [recoveryRecords, hlh, encodeUnder_append, encodeUnder_map]
      simp [encodeUnder]

/-! ## Planting them -/

theorem orNew_of_present {t : Node} (h : t.isAbsent = false) (n : Nat) (s : Bool) :
    t.orNew n s = t := by
  cases t with
  | absent => cases h
  | node => rfl

/-- Records of the left half only touch the left child. -/
theorem setAll_left {recs : List (List Bool × Hash20)} (hne : recs ≠ []) {h : Option Hash20}
    {n : Nat} {s : Bool} {b : Nat} {l r : Node} (hn : b < n) :
    setAll (recs.map (Prod.map (true :: ·) id)) (.node h n s b l r) =
      ((setAll recs (l.orNew (splitLeft n s b) true)).1,
        .node h n s b (setAll recs (l.orNew (splitLeft n s b) true)).2 r) := by
  induction recs generalizing l with
  | nil => exact absurd rfl hne
  | cons rec_ recs ih =>
    simp only [List.map_cons, Prod.map, setAll, setPath, if_neg (Nat.not_le_of_lt hn), if_true, id]
    split
    · cases recs with
      | nil => rfl
      | cons r' recs =>
        rw [ih (by simp), orNew_of_present (by simp)]
    · rfl

/-- Records of the right half only touch the right child. -/
theorem setAll_right {recs : List (List Bool × Hash20)} (hne : recs ≠ []) {h : Option Hash20}
    {n : Nat} {s : Bool} {b : Nat} {l r : Node} (hn : b < n) :
    setAll (recs.map (Prod.map (false :: ·) id)) (.node h n s b l r) =
      ((setAll recs (r.orNew (n - splitLeft n s b) false)).1,
        .node h n s b l (setAll recs (r.orNew (n - splitLeft n s b) false)).2) := by
  induction recs generalizing r with
  | nil => exact absurd rfl hne
  | cons rec_ recs ih =>
    simp only [List.map_cons, Prod.map, setAll, setPath, if_neg (Nat.not_le_of_lt hn),
      Bool.false_eq_true, if_false, id]
    split
    · cases recs with
      | nil => rfl
      | cons r' recs =>
        rw [ih (by simp), orNew_of_present (by simp)]
    · rfl

/-- All leaves planted make any tree of the shape full. -/
theorem Complete.setAll_leafRecords {n : Nat} {s : Bool} {t T : Node} (h : Complete pair n s T)
    (ht : Shaped n s t) (hp : t.isAbsent = false) :
    ∃ t', setAll T.leafRecords t = (.done, t') ∧ Full t' := by
  induction h generalizing t with
  | @leaf n s x hn =>
    cases ht with
    | absent => cases hp
    | @leaf _ _ h _ =>
      cases h with
      | none => exact ⟨_, rfl, .stub⟩
      | some y => exact ⟨_, rfl, .stub⟩
    | inner hn' => omega
  | @inner n s L R lh rh hn hL hR _ _ ihl ihr =>
    cases ht with
    | absent => cases hp
    | leaf hn' => omega
    | @inner _ _ h l r _ hl hr =>
      obtain ⟨l', hl', hfl⟩ := ihl hl.orNew (isAbsent_orNew _ _ _)
      obtain ⟨r', hr', hfr⟩ := ihr hr.orNew (isAbsent_orNew _ _ _)
      refine ⟨.node h n s (baseFor n) l' r', ?_, .inner hfl hfr⟩
      have hleft := setAll_left hL.leafRecords_ne_nil (h := h) (s := s) (l := l) (r := r) hn
      rw [hl'] at hleft
      have hright := setAll_right hR.leafRecords_ne_nil (h := h) (s := s) (l := l') (r := r) hn
      rw [hr'] at hright
      rw [leafRecords_inner hL.present, setAll_append _ _ hleft, hright]

/-- Absent, or without children. -/
def Bare : Node → Prop
  | .absent => True
  | .node _ _ _ _ l r => l = .absent ∧ r = .absent

/-- Beside the path `p` there are only bare nodes. -/
def Slim : List Bool → Node → Prop
  | [], _ => True
  | _ :: _, .absent => True
  | true :: p, .node _ _ _ _ l r => Slim p l ∧ Bare r
  | false :: p, .node _ _ _ _ l r => Slim p r ∧ Bare l

theorem slim_of_bare (p : List Bool) {t : Node} (h : Bare t) : Slim p t := by
  cases t with
  | absent => cases p <;> trivial
  | node h' n s b l r =>
    obtain ⟨rfl, rfl⟩ := h
    cases p with
    | nil => trivial
    | cons d p => cases d <;> cases p <;> exact ⟨trivial, trivial⟩

theorem Slim.orNew {p : List Bool} {t : Node} (h : Slim p t) (n : Nat) (s : Bool) :
    Slim p (t.orNew n s) := by
  cases t with
  | absent => exact slim_of_bare p ⟨rfl, rfl⟩
  | node => exact h

theorem Slim.grow {p : List Bool} {t : Node} (h : Slim p t) : Slim p (t.grow p) := by
  induction p generalizing t with
  | nil => trivial
  | cons d p ih =>
    cases t with
    | absent => cases d <;> trivial
    | node h' n s b l r =>
      cases d
      · exact ⟨ih (h.1.orNew _ _), h.2⟩
      · exact ⟨ih (h.1.orNew _ _), h.2⟩

/-- A hash planted on a bare sibling leaves a childless node with a hash. -/
theorem full_setPath_nil {t : Node} (hb : Bare t) (hp : t.isAbsent = false) (x : Hash20) :
    (setPath x [] t).1 = true ∧ Full (setPath x [] t).2 := by
  cases t with
  | absent => cases hp
  | node h n s b l r =>
    obtain ⟨rfl, rfl⟩ := hb
    cases h with
    | none => exact ⟨rfl, .stub⟩
    | some y => exact ⟨rfl, .stub⟩

theorem Bare.orNew {t : Node} (h : Bare t) (n : Nat) (s : Bool) : Bare (t.orNew n s) := by
  cases t with
  | absent => exact ⟨rfl, rfl⟩
  | node => exact h

theorem Complete.recoveryRecords_ne_nil {n start size : Nat} {s s' : Bool} {p : List Bool}
    {T : Node} (h : Complete pair n s T) (hc : Covers n s p start size s') :
    recoveryRecords p T ≠ [] := by
  have hlen := h.length_recoveryRecords hc
  have hpos := List.length_pos_iff.mpr (h.sub hc).leafRecords_ne_nil
  intro hnil
  rw [hnil, List.length_nil] at hlen
  omega

/-- The recovery records make a tree that is slim along the path full. -/
theorem Complete.setAll_recoveryRecords {n start size : Nat} {s s' : Bool} {p : List Bool}
    {t T : Node} (h : Complete pair n s T) (hc : Covers n s p start size s') (ht : Shaped n s t)
    (hp : t.isAbsent = false) (hslim : Slim p t) :
    ∃ t', setAll (recoveryRecords p T) t = (.done, t') ∧ Full t' := by
  induction hc generalizing t T with
  | here n s =>
    have he : recoveryRecords [] T = T.leafRecords := by cases T <;> rfl
    rw [he]
    exact h.setAll_leafRecords ht hp
  | @left n start size s s' p hin hc' ih =>
    cases h with
    | leaf _ hn => omega
    | @inner _ _ L R lh rh _ hL hR hlh hrh =>
      cases ht with
      | absent => cases hp
      | leaf hn => omega
      | @inner _ _ h l r _ hl hr =>
        obtain ⟨l', hl', hfl⟩ := ih hL hl.orNew (isAbsent_orNew _ _ _) (hslim.1.orNew _ _)
        obtain ⟨hok, hfr⟩ := full_setPath_nil (hslim.2.orNew (n - leftSize n s) false)
          (isAbsent_orNew _ _ _) rh
        have hsib : setAll [([false], rh)] (.node h n s (baseFor n) l r) = (.done,
            .node h n s (baseFor n) l (setPath rh [] (r.orNew (n - leftSize n s) false)).2) := by
          simp only [setAll, setPath, if_neg (Nat.not_le_of_lt hin), Bool.false_eq_true, if_false]
          rw [if_pos hok]
        have hleft := setAll_left (hL.recoveryRecords_ne_nil hc') (h := h) (s := s) (l := l)
          (r := (setPath rh [] (r.orNew (n - leftSize n s) false)).2) hin
        rw [hl'] at hleft
        refine ⟨.node h n s (baseFor n) l' _, ?_, .inner hfl hfr⟩
        simp only [recoveryRecords, hrh, Option.map_some, Option.toList_some]
        rw [setAll_append _ _ hsib, hleft]
  | @right n start size s s' p hin hc' ih =>
    cases h with
    | leaf _ hn => omega
    | @inner _ _ L R lh rh _ hL hR hlh hrh =>
      cases ht with
      | absent => cases hp
      | leaf hn => omega
      | @inner _ _ h l r _ hl hr =>
        obtain ⟨r', hr', hfr⟩ := ih hR hr.orNew (isAbsent_orNew _ _ _) (hslim.1.orNew _ _)
        obtain ⟨hok, hfl⟩ := full_setPath_nil (hslim.2.orNew (leftSize n s) true)
          (isAbsent_orNew _ _ _) lh
        have hsib : setAll [([true], lh)] (.node h n s (baseFor n) l r) = (.done,
            .node h n s (baseFor n) (setPath lh [] (l.orNew (leftSize n s) true)).2 r) := by
          simp only [setAll, setPath, if_neg (Nat.not_le_of_lt hin), if_true]
          rw [if_pos hok]
        have hright := setAll_right (hR.recoveryRecords_ne_nil hc') (h := h) (s := s)
          (l := (setPath lh [] (l.orNew (leftSize n s) true)).2) (r := r) hin
        rw [hr'] at hright
        refine ⟨.node h n s (baseFor n) _ r', ?_, .inner hfl hfr⟩
        simp only [recoveryRecords, hlh, Option.map_some, Option.toList_some]
        rw [setAll_append _ _ hsib, hright]

end

/-- Planting a list never takes a hash away. -/
theorem below_setAll (recs : List (List Bool × Hash20)) (t : Node) :
    Below t (setAll recs t).2 :=
  setAll_induct (I := Below t) (fun r _ u hu => hu.trans (below_setPath r.2 r.1 u)) (Below.refl t)

/-- When the whole list was planted, every record's path has a hash. -/
theorem hash_of_setAll {recs : List (List Bool × Hash20)} {t t' : Node}
    (h : setAll recs t = (.done, t')) {r : List Bool × Hash20} (hr : r ∈ recs) :
    ∃ x, (t'.sub r.1).hash = some x := by
  induction recs generalizing t with
  | nil => cases hr
  | cons r' recs ih =>
    rw [setAll] at h
    split at h
    · rename_i hok
      obtain rfl | hr := List.mem_cons.mp hr
      · have hset := hash_sub_setPath r.2 r.1 r.1 t
        rw [if_pos ⟨rfl, hok⟩] at hset
        have hkeep := below_setAll recs (setPath r.2 r.1 t).2
        rw [h] at hkeep
        cases ho : (t.sub r.1).hash with
        | none =>
          rw [ho] at hset
          exact ⟨_, hkeep _ _ hset⟩
        | some x =>
          rw [ho] at hset
          exact ⟨_, hkeep _ _ hset⟩
      · exact ih h hr
    · cases h

end Node

/-! ## The round trip -/

open Node

section

variable {pair : Hash20 → Hash20 → Hash20} {n partStart : Nat} {p : List Bool} {s : Bool}
  {root T : Node}

/-- The tree holds as many records for a part as the receiver expects. -/
theorem PartAt.recordCount_eq (h : PartAt n partStart p s) (hT : Complete pair n true T) :
    (recoveryRecords p T).length = recordCount p (min PARTSIZE (n - partStart)) := by
  rw [hT.length_recoveryRecords h.covers, recordCount, ← leafCount_of_le (Nat.min_le_left _ _),
    ← (h.complete hT).length_leafHashes h.size_pos]
  simp [leafHashes]

theorem recordCount_le (hlevel : p.length < MAX_LEVEL) (partStart : Nat) :
    recordCount p (min PARTSIZE (n - partStart)) ≤ 0xFFFF := by
  have hblocks := ceilDiv_le (m := 53) (b := EMBLOCKSIZE)
    ((Nat.min_le_left PARTSIZE (n - partStart)).trans (by decide))
  have : MAX_LEVEL = 22 := rfl
  unfold recordCount
  omega

/-- `create_part_recovery_data` on a complete tree of moderate height. -/
theorem createPartRecoveryData_eq (hT : Complete pair n true T) (h : PartAt n partStart p s)
    (hmin : EMBLOCKSIZE < n) (hlevel : p.length < MAX_LEVEL) (hheight : T.height ≤ 31)
    (h16 : n ≤ OLD_MAX_FILE_SIZE → T.height ≤ 16) :
    (AichTree.mk T).createPartRecoveryData partStart =
      (some (payloadOf (decide (OLD_MAX_FILE_SIZE < n)) (recoveryRecords p T)), ⟨T⟩) := by
  have hsize : (AichTree.mk T).fileSize = n := hT.dataSize
  have hpart : (AichTree.mk T).partSize partStart = min PARTSIZE (n - partStart) := by
    rw [AichTree.partSize, hsize]
  have hgrow : T.grow (p.take MAX_LEVEL) = T := by
    rw [List.take_of_length_le hlevel.le]
    exact hT.grow (h.complete hT).present
  have hcount : (recoveryRecords p T).length =
      p.length + ceilDiv (min PARTSIZE (n - partStart)) EMBLOCKSIZE := h.recordCount_eq hT
  have hmax : (recoveryRecords p T).length ≤ 0xFFFF :=
    hcount.trans_le (recordCount_le hlevel partStart)
  have hbody := @Complete.createPartRecovery_records _ _ _ _ _ _ _ _ hT h.covers (by omega) 0
    (decide (OLD_MAX_FILE_SIZE < n)) [] rfl (by simpa using hheight)
    (fun h32 => by simpa using h16 (by simpa using h32))
  rw [encodeUnder_nil] at hbody
  unfold AichTree.createPartRecoveryData
  have hguard : ¬ (n ≤ EMBLOCKSIZE ∨ n ≤ partStart ∨ ¬ PARTSIZE ∣ partStart) := by
    have := h.inside
    simp [h.aligned]
    omega
  simp only [hsize, hpart, if_neg hguard]
  rw [findMut_eq h.covers (by have := h.inside; omega) hT.shaped hT.present, if_pos hlevel, hgrow]
  simp only [Nat.add_sub_cancel, ← hcount, if_neg (Nat.not_lt_of_le hmax), hbody]
  rw [if_neg]
  · by_cases h32 : OLD_MAX_FILE_SIZE < n
    · simp [h32, payloadOf, identWidth]
    · simp [h32, payloadOf, identWidth]
  · rw [not_not, length_encodeRecords]
    by_cases h32 : OLD_MAX_FILE_SIZE < n <;> simp [h32, identWidth]

/-- A receiver below the true tree and slim along the part accepts the honest records. -/
theorem honest_accepted {master : Hash20} (hroot : Receiver n master root)
    (hT : Complete pair n true T) (hM : T.hash = some master) (hbelow : Below root T)
    (h : PartAt n partStart p s) (hslim : Slim p root)
    (hreach : ∀ r ∈ (T.sub p).leafRecords, (p ++ r.1).length < MAX_LEVEL) :
    ∃ rx, AichTree.absorb pair partStart (setAll (recoveryRecords p T) (root.grow p)) = (true, rx) ∧
      rx.partBlockHashes partStart = (AichTree.mk T).partBlockHashes partStart := by
  have hpresent := (h.complete hT).present
  have hshaped := shaped_grow p hT hroot.shaped hpresent
  obtain ⟨t, ht, hfull⟩ := hT.setAll_recoveryRecords h.covers hshaped
    (by rw [isAbsent_grow]; exact hroot.present) hslim.grow
  have hkept : Shaped n true t ∧ Below t T := by
    have hi := @setAll_induct (fun t => Shaped n true t ∧ Below t T) (recoveryRecords p T)
      (fun r hr u hu => ⟨shaped_setPath _ hu.1,
        hu.2.setPath (hT.hash_of_mem_recovery h.covers hr).1⟩)
      _ ⟨hshaped, below_grow p hbelow⟩
    rwa [ht] at hi
  have hmaster : t.hash = some master := by
    have hb := below_setAll (recoveryRecords p T) (root.grow p)
    rw [ht] at hb
    have hg := hash_sub_grow p [] root
    rw [sub_nil, sub_nil] at hg
    have hr := hb [] master (by rw [sub_nil, hg]; exact hroot.hash)
    rwa [sub_nil] at hr
  obtain ⟨v, hv, hkv⟩ := hfull.verify hT hkept.2 (hmaster.trans hM.symm)
  have hvroot : Receiver n master v := by
    have hs := @shaped_verify pair _ _ _ hkept.1
    have hh := @hash_verify pair t
    rw [hv] at hs hh
    exact ⟨hs, hh.trans hmaster⟩
  have hleaves : ∀ r ∈ (T.sub p).leafRecords, (v.sub (p ++ r.1)).hash = some r.2 := by
    intro r hr
    have hmem := hT.mem_recovery_of_leaf h.covers hr
    obtain ⟨x, hx⟩ := hash_of_setAll ht hmem
    have htrue := (hT.hash_of_mem_recovery h.covers hmem).1
    have hxr := (hkept.2 _ x hx).symm.trans htrue
    rw [hkv _ x hx, hxr]
  refine ⟨⟨v⟩, ?_, partBlockHashes_congr hvroot h hT hM hleaves⟩
  rw [ht]
  simp only [AichTree.absorb, AichTree.verifyPart, hv]
  have hsweep := (sweep_iff hvroot h hT).mpr fun r hr =>
    ⟨hreach r hr, by rw [hleaves r hr]; rfl⟩
  simp [hsweep]

/-- The receiver `with_master` builds. -/
theorem receiver_withMaster (hpos : 0 < n) (master : Hash20) :
    ∃ root, AichTree.withMaster n master = some ⟨root⟩ ∧ Receiver n master root ∧ Bare root := by
  refine ⟨_, if_neg hpos.ne', ⟨?_, rfl⟩, rfl, rfl⟩
  exact (shaped_new n true).setHash (some master)

theorem Receiver.below_of_bare {master : Hash20} (hroot : Receiver n master root)
    (hb : Bare root) (hM : T.hash = some master) : Below root T := by
  intro q x hq
  cases root with
  | absent => cases hroot.hash
  | node h n' s' b l r =>
    obtain ⟨rfl, rfl⟩ := hb
    cases q with
    | nil =>
      rw [sub_nil] at hq ⊢
      rw [hM, ← hroot.hash, hq]
    | cons d q => cases d <;> simp [Node.sub, Node.hash] at hq

end

/-- Encode and decode: for files of more than one block, up to 256 GiB, the payload of every
    part is written, its idents fit their width and the receiver's bound, and a receiver
    that knows only the master hash accepts it and holds the true block hashes. -/
theorem recovery_round_trip (pair : Hash20 → Hash20 → Hash20) {n partStart : Nat}
    {leaves : List Hash20} (hmin : EMBLOCKSIZE < n) (hmax : n ≤ 2 ^ 38)
    (hleaves : leaves.length = AichTree.leafCount n) (hpart : PARTSIZE ∣ partStart)
    (hlt : partStart < n) :
    ∃ T master rx payload recs rx' blocks,
      AichTree.fromLeaves pair n leaves = some T ∧ T.masterHash = some master ∧
      AichTree.withMaster n master = some rx ∧
      T.createPartRecoveryData partStart = (some payload, T) ∧
      payload = payloadOf (decide (OLD_MAX_FILE_SIZE < n)) recs ∧
      (∀ r ∈ recs, ofPath r.1 ≤ if OLD_MAX_FILE_SIZE < n then 0x400000 else 0xFFFF) ∧
      rx.readRecoveryData pair partStart payload = (true, rx') ∧
      rx'.partBlockHashes partStart = some blocks ∧
      T.partBlockHashes partStart = some blocks := by
  have hpos : 0 < n := by omega
  obtain ⟨T, hT, hc, -⟩ := fromLeaves_eq pair hpos hleaves
  obtain ⟨master, hM⟩ := hc.exists_hash
  obtain ⟨root, hrx, hroot, hbare⟩ := receiver_withMaster hpos master
  obtain ⟨p, s, h⟩ := exists_partAt hpart hlt
  have hheight : T.height ≤ 22 := hc.height_le (k := 15) (hmax.trans (by decide))
  have h16 : n ≤ OLD_MAX_FILE_SIZE → T.height ≤ 16 := fun hle =>
    hc.height_le (k := 9) (hle.trans (by decide))
  have hrecs : ∀ r ∈ recoveryRecords p T, r.1 ≠ [] ∧ r.1.length < T.height := fun r hr =>
    ⟨(hc.hash_of_mem_recovery h.covers hr).2.2 hmin, (hc.hash_of_mem_recovery h.covers hr).2.1⟩
  have hreach : ∀ r ∈ (T.sub p).leafRecords, (p ++ r.1).length < MAX_LEVEL := fun r hr =>
    (hrecs _ (hc.mem_recovery_of_leaf h.covers hr)).2.trans_le hheight
  have hlevel : p.length < MAX_LEVEL := by
    obtain ⟨r, hr⟩ := List.exists_mem_of_ne_nil _ (h.complete hc).leafRecords_ne_nil
    have hlen := hreach r hr
    rw [List.length_append] at hlen
    omega
  have hbound : ∀ r ∈ recoveryRecords p T,
      ofPath r.1 ≤ if OLD_MAX_FILE_SIZE < n then 0x400000 else 0xFFFF := by
    intro r hr
    have hlen := (hrecs r hr).2
    split
    · have hlt' : ofPath r.1 < 2 ^ 22 := ofPath_lt_of_le (by omega)
      omega
    · have hlt' : ofPath r.1 < 2 ^ 16 := ofPath_lt_of_le (by have := h16 (by omega); omega)
      omega
  have hcreate := createPartRecoveryData_eq hc h hmin hlevel (by omega) h16
  have hencodable : Encodable (identWidth (decide (OLD_MAX_FILE_SIZE < n)))
      (identBound (decide (OLD_MAX_FILE_SIZE < n))) (recoveryRecords p T) := by
    intro r hr
    obtain ⟨hne, hlen⟩ := hrecs r hr
    have hb := hbound r hr
    refine ⟨hne, by omega, ?_, ?_⟩
    · by_cases h32 : OLD_MAX_FILE_SIZE < n <;> simpa [h32, identBound] using hb
    · by_cases h32 : OLD_MAX_FILE_SIZE < n <;> simp [h32, identWidth] at hb ⊢ <;> omega
  have hcount := h.recordCount_eq hc
  have hshort : (recoveryRecords p T).length < 2 ^ 16 :=
    Nat.lt_succ_of_le (hcount.trans_le (recordCount_le hlevel partStart))
  have hread := @readRecoveryData_payload pair _ _ _ _ _ _ hroot hpart hlt h.covers hlevel _ _ hcount
    (hc.recoveryRecords_ne_nil h.covers) hshort hencodable
  obtain ⟨rx', hacc, hblocks⟩ := honest_accepted hroot hc hM (hroot.below_of_bare hbare hM) h
    (slim_of_bare p hbare) hreach
  obtain ⟨blocks, hbs⟩ := partBlockHashes_complete h hc hM hreach
  exact ⟨⟨T⟩, master, ⟨root⟩, _, _, rx', blocks, hT, hM, hrx, hcreate, rfl, hbound,
    hread.trans hacc, hblocks.trans hbs, hbs⟩

/-- A file of two blocks with equal hashes. -/
theorem two_blocks_round_trip :
    ∃ (T rx : AichTree) (payload : Bytes) (rx' : AichTree),
      AichTree.fromLeaves (fun l _ => l) (EMBLOCKSIZE + 1)
        (List.replicate 2 (Digest.fill 20 0)) = some T ∧
      T.createPartRecoveryData 0 = (some payload, T) ∧
      rx.readRecoveryData (fun l _ => l) 0 payload = (true, rx') ∧
      rx'.partBlockHashes 0 = T.partBlockHashes 0 := by
  obtain ⟨T, master, rx, payload, recs, rx', blocks, hT, -, -, hcreate, -, -, hread, hrx, hblocks⟩ :=
    recovery_round_trip (fun l _ => l)
      (show EMBLOCKSIZE < EMBLOCKSIZE + 1 by decide) (by decide)
      (show (List.replicate 2 (Digest.fill 20 0)).length = AichTree.leafCount (EMBLOCKSIZE + 1) by
        decide) (Nat.dvd_zero PARTSIZE) (by decide)
  exact ⟨T, rx, payload, rx', hT, hcreate, hread, hrx.trans hblocks.symm⟩

end PadMule.Proto.Aich
