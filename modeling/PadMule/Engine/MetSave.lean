import PadMule.Engine.Resume

/-
  Crash safety of `save_met`: the process dies between two of its file operations.

  A save promotes whatever the live met holds to the `.bak`, unchecked. While the live
  met parses, or is absent, the selection of a following `open` survives every crash
  point (`selectMet_crashedSave`). A garbage live met next to a good `.bak` does not
  survive the second operation: the only good copy is overwritten
  (`selectMet_promoted_garbage`). `crashedSave_safe_iff` is the two together.
-/

namespace PadMule.Engine

open Files PadMule.Proto

/-- The directory of a process that died after `k` of the save's file operations. -/
def crashedSave (k : Nat) (s : PartStore) (d : MetDir) : MetDir :=
  ((saveOps s).take k).foldl (fun d op => op.apply d) d

/-- No length field of the codec cuts the store's part.met. -/
structure PartStore.WithinLimits (s : PartStore) : Prop where
  name_le : s.name.length ≤ 65535
  hashes_le : s.pf.partHashes.length ≤ 65535
  text_le : corruptedTextLength s.pf.corrupted ≤ 65535
  count_lt : tagCount s < 2 ^ 32

/-- A well-formed store whose part.met reads back whole. -/
structure PartStore.Fits (s : PartStore) : Prop where
  ok : s.Ok
  limits : s.WithinLimits

theorem PartStore.Fits.readPartMet {s : PartStore} (h : s.Fits) :
    readPartMet (writePartMet s.metOf) = .ok s.metOf := by
  rw [readPartMet_metOf h.ok h.limits.hashes_le,
    savedMet_of_fits h.ok h.limits.name_le h.limits.text_le h.limits.count_lt]

/-- `m` is the met a save of `s` leaves: what its bytes parse to, which is the met of `s`
    itself unless a length field cut it. -/
def IsSaved (s : PartStore) (m : PartMet) : Prop :=
  readPartMet (writePartMet s.metOf) = .ok m ∧ (s.Fits → m = s.metOf)

theorem isSaved_of_read {s : PartStore} {m : PartMet}
    (h : readPartMet (writePartMet s.metOf) = .ok m) : IsSaved s m := by
  refine ⟨h, fun hfits => ?_⟩
  rw [hfits.readPartMet] at h
  exact (Except.ok.inj h).symm

/-! ## The selection at each crash point -/

theorem selectMet_of_live {d : MetDir} {b : Bytes} {m : PartMet} (hb : d.live = some b)
    (hm : readPartMet b = .ok m) : selectMet d = .ok m := by
  rw [selectMet, hb, Option.bind_some, hm]
  rfl

/-- An absent or unparsable live met leaves the choice to the `.bak`. -/
theorem selectMet_of_bak {d : MetDir} (h : ∀ b m, d.live = some b → readPartMet b ≠ .ok m) :
    selectMet d = selectMet { d with live := none } := by
  have hnone : (d.live.bind fun b => (readPartMet b).toOption) = none := by
    cases hl : d.live with
    | none => rfl
    | some b =>
      cases hr : readPartMet b with
      | error e => rw [Option.bind_some, hr]; rfl
      | ok m => exact absurd hr (h b m hl)
  rw [selectMet, hnone]
  rfl

/-- The live met renamed to the `.bak`, as `promote` leaves it. -/
theorem selectMet_promoted {d : MetDir} {b : Bytes} (hb : d.live = some b) :
    selectMet (MetOp.promote.apply d) = (readPartMet b).mapError OpenError.invalidData := by
  simp only [MetOp.apply, hb, Option.isSome_some, if_true]
  rfl

theorem selectMet_promote {d : MetDir} (hd : ∀ b, d.live = some b → ∃ m, readPartMet b = .ok m) :
    selectMet (MetOp.promote.apply d) = selectMet d := by
  cases hl : d.live with
  | none =>
    rw [MetOp.apply, hl]
    rfl
  | some b =>
    obtain ⟨m, hm⟩ := hd b hl
    rw [selectMet_promoted hl, selectMet_of_live hl hm, hm]
    rfl

/-- The only good copy is overwritten by the garbage. -/
theorem selectMet_promoted_garbage {d : MetDir} {b : Bytes} (hb : d.live = some b)
    (hg : ∀ m, readPartMet b ≠ .ok m) (m : PartMet) :
    selectMet (MetOp.promote.apply d) ≠ .ok m := by
  rw [selectMet_promoted hb]
  cases hr : readPartMet b with
  | error e =>
    intro h
    cases h
  | ok m' => exact absurd hr (hg m')

theorem live_promote (d : MetDir) : (MetOp.promote.apply d).live = none := by
  rw [MetOp.apply]
  split
  · rfl
  · simpa using ‹¬ d.live.isSome = true›

/-- After the whole save: the new met or, should its bytes not parse, what the promoted
    directory holds. -/
theorem selectMet_saveMet (s : PartStore) (d : MetDir) :
    (∃ m, readPartMet (writePartMet s.metOf) = .ok m ∧ selectMet (saveMet s d) = .ok m) ∨
      selectMet (saveMet s d) = selectMet (MetOp.promote.apply d) := by
  cases hr : readPartMet (writePartMet s.metOf) with
  | ok m => exact Or.inl ⟨m, rfl, selectMet_of_live (live_saveMet s d) hr⟩
  | error e =>
    refine Or.inr ?_
    have hbad : ∀ b m, (saveMet s d).live = some b → readPartMet b ≠ .ok m := by
      intro b m hb hm
      rw [live_saveMet] at hb
      cases hb
      rw [hr] at hm
      cases hm
    have hbak : (saveMet s d).bak = (MetOp.promote.apply d).bak := by
      unfold saveMet saveOps
      simp only [List.foldl_cons, List.foldl_nil, MetOp.apply]
      split <;> rfl
    rw [selectMet_of_bak hbad, selectMet, hbak, selectMet, live_promote]

theorem crashedSave_of_le {k : Nat} (hk : 3 ≤ k) (s : PartStore) (d : MetDir) :
    crashedSave k s d = saveMet s d := by
  have htake : (saveOps s).take k = saveOps s := List.take_of_length_le hk
  rw [crashedSave, htake]
  rfl

/-- The four directories a save can be left in. -/
theorem crashedSave_cases (k : Nat) (s : PartStore) (d : MetDir) :
    crashedSave k s d = d ∨ (∃ t, crashedSave k s d = { d with tmp := t }) ∨
      (∃ t, crashedSave k s d = MetOp.promote.apply { d with tmp := t }) ∨
      crashedSave k s d = saveMet s d := by
  match k with
  | 0 => exact Or.inl rfl
  | 1 => exact Or.inr (Or.inl ⟨_, rfl⟩)
  | 2 => exact Or.inr (Or.inr (Or.inl ⟨_, rfl⟩))
  | k + 3 => exact Or.inr (Or.inr (Or.inr (crashedSave_of_le (Nat.le_add_left 3 k) s d)))

theorem live_crashedSave (k : Nat) (s : PartStore) (d : MetDir) :
    (crashedSave k s d).live =
      if k ≤ 1 then d.live else if k = 2 then none else some (writePartMet s.metOf) := by
  match k with
  | 0 => rfl
  | 1 => rfl
  | 2 => exact live_promote _
  | k + 3 =>
    rw [if_neg (by omega), if_neg (by omega), ← live_saveMet s d, crashedSave_of_le (by omega)]

theorem selectMet_crashedSave (s : PartStore) {d : MetDir} {m₀ : PartMet}
    (h : selectMet d = .ok m₀) (hd : ∀ b, d.live = some b → ∃ m, readPartMet b = .ok m) (k : Nat) :
    ∃ m, selectMet (crashedSave k s d) = .ok m ∧ (IsSaved s m ∨ m = m₀) := by
  rcases crashedSave_cases k s d with hk | ⟨t, hk⟩ | ⟨t, hk⟩ | hk <;> rw [hk]
  · exact ⟨m₀, h, Or.inr rfl⟩
  · exact ⟨m₀, h, Or.inr rfl⟩
  · exact ⟨m₀, (selectMet_promote (d := { d with tmp := t }) hd).trans h, Or.inr rfl⟩
  · rcases selectMet_saveMet s d with ⟨m, hm, hsel⟩ | hsel
    · exact ⟨m, hsel, Or.inl (isSaved_of_read hm)⟩
    · exact ⟨m₀, hsel.trans ((selectMet_promote hd).trans h), Or.inr rfl⟩

/-- Every crash point of a save leaves a directory from which `open` loads the saved met
    or the one it would have loaded before, exactly when the live met parses or is
    absent. -/
theorem crashedSave_safe_iff {d : MetDir} {m₀ : PartMet} (h : selectMet d = .ok m₀)
    (s : PartStore) :
    (∀ k, ∃ m, selectMet (crashedSave k s d) = .ok m ∧ (IsSaved s m ∨ m = m₀)) ↔
      ∀ b, d.live = some b → ∃ m, readPartMet b = .ok m := by
  refine ⟨fun hsafe b hb => ?_, fun hd k => selectMet_crashedSave s h hd k⟩
  by_contra hg
  obtain ⟨m, hm, -⟩ := hsafe 2
  have hlive : (MetOp.apply (.writeTmp (writePartMet s.metOf)) d).live = some b := hb
  exact selectMet_promoted_garbage hlive (fun m hm => hg ⟨m, hm⟩) m hm

/-- A live met next to the `.bak` of a fresh 500-byte download. -/
def savedDir (live : Bytes) : MetDir :=
  { live := some live, tmp := none, bak := some (writePartMet freshStore.metOf) }

theorem PartStore.withinLimits_create (hash : Hash16) (size : UInt64) {name : Bytes}
    (h : name.length ≤ 65535) : (PartStore.create hash size name).WithinLimits where
  name_le := h
  hashes_le := Nat.zero_le _
  text_le := Nat.zero_le _
  count_lt := by
    have hgaps : (wholeGap size.toNat).length ≤ 1 := by
      unfold wholeGap
      split <;> simp
    show 4 + 0 + 0 + 2 * (wholeGap size.toNat).length < 2 ^ 32
    omega

theorem fits_freshStore : freshStore.Fits :=
  ⟨PartStore.ok_create _ _ _, PartStore.withinLimits_create _ _ (by decide)⟩

/-- Dead between the renames: the promoted copy is found. -/
theorem savedDir_survives :
    ∃ m, selectMet (crashedSave 2 freshStore (savedDir (writePartMet freshStore.metOf))) = .ok m ∧
      (IsSaved freshStore m ∨ m = freshStore.metOf) :=
  (crashedSave_safe_iff (selectMet_of_live rfl fits_freshStore.readPartMet) freshStore).mpr
    (fun _ hb => ⟨_, Option.some.inj hb ▸ fits_freshStore.readPartMet⟩) 2

theorem garbage_live_met_lost :
    ¬ ∀ (d : MetDir) (m₀ : PartMet) (s : PartStore), selectMet d = .ok m₀ →
      ∀ k, ∃ m, selectMet (crashedSave k s d) = .ok m ∧ (IsSaved s m ∨ m = m₀) := by
  intro h
  have hgarbage : ∀ b m, (savedDir []).live = some b → readPartMet b ≠ .ok m := by
    intro b m hb hm
    cases hb
    cases hm
  have hopen : selectMet (savedDir []) = .ok freshStore.metOf := by
    rw [selectMet_of_bak hgarbage, selectMet]
    show (readPartMet (writePartMet freshStore.metOf)).mapError _ = _
    rw [fits_freshStore.readPartMet]
    rfl
  obtain ⟨m, hm, -⟩ := h _ _ freshStore hopen 2
  have hlive : (MetOp.apply (.writeTmp (writePartMet freshStore.metOf)) (savedDir [])).live =
      some [] := rfl
  exact selectMet_promoted_garbage hlive (fun m => hgarbage [] m rfl) m hm

end PadMule.Engine
