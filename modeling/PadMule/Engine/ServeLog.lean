import PadMule.Engine.ServeSession

/-
  `mule-engine/src/share.rs`: what the log of a serve connection can look like.

  Blocks stand where a slot was granted (`Placed`), a range does not come back too soon within a
  slot session (`Fresh`), and the credit booked is the data sent: `Ok`, one entry at a time.
-/

namespace PadMule.Engine

open PadMule.Proto

/-! ## Logs -/

namespace ServeEffect

def range : ServeEffect → Option SentRange
  | .sent (.sendingPart hash start stop _) => some (hash, start, stop)
  | _ => none

def dataBytes : ServeEffect → Nat
  | .sent (.sendingPart _ _ _ data) => data.length
  | _ => 0

def credited : ServeEffect → Nat
  | .uploaded _ n _ => n.toNat
  | _ => 0

end ServeEffect

/-- None of the three replies a slot is about. -/
def ServeReply.Quiet : ServeReply → Prop
  | .sendingPart _ _ _ _ | .acceptUpload | .outOfPartReqs => False
  | _ => True

namespace ServeLog

/-- Of OP_ACCEPTUPLOADREQ and OP_OUTOFPARTREQS the last one sent was the first. -/
def granted (log : List ServeEffect) : Bool :=
  log.foldl (fun g e =>
    if e = .sent .acceptUpload then true else if e = .sent .outOfPartReqs then false else g) false

/-- The ranges sent, and those sent since the slot was last taken back. -/
def ranges (log : List ServeEffect) : List SentRange := log.filterMap ServeEffect.range

def slotRanges (log : List ServeEffect) : List SentRange :=
  log.foldl (fun rs e => if e = .sent .outOfPartReqs then [] else rs ++ e.range.toList) []

def dataBytes (log : List ServeEffect) : Nat := (log.map ServeEffect.dataBytes).sum

def credited (log : List ServeEffect) : Nat := (log.map ServeEffect.credited).sum

variable {log : List ServeEffect} {e : ServeEffect}

theorem granted_concat (log : List ServeEffect) (e : ServeEffect) :
    granted (log ++ [e]) =
      if e = .sent .acceptUpload then true else if e = .sent .outOfPartReqs then false
      else granted log := by
  rw [granted, List.foldl_append]
  rfl

theorem slotRanges_concat (log : List ServeEffect) (e : ServeEffect) :
    slotRanges (log ++ [e]) =
      if e = .sent .outOfPartReqs then [] else slotRanges log ++ e.range.toList := by
  rw [slotRanges, List.foldl_append]
  rfl

theorem granted_accept (log : List ServeEffect) :
    granted (log ++ [.sent .acceptUpload]) = true := by
  rw [granted_concat, if_pos rfl]

theorem slotRanges_accept (log : List ServeEffect) :
    slotRanges (log ++ [.sent .acceptUpload]) = slotRanges log := by
  rw [slotRanges_concat, if_neg (by simp)]
  exact List.append_nil _

/-- A revocation ends the slot session. -/
theorem slots_revoke (log : List ServeEffect) :
    granted (log ++ [.sent .outOfPartReqs]) = false ∧
      slotRanges (log ++ [.sent .outOfPartReqs]) = [] := by
  rw [granted_concat, if_neg (by simp), if_pos rfl, slotRanges_concat, if_pos rfl]
  exact ⟨rfl, rfl⟩

theorem dataBytes_concat (log : List ServeEffect) (e : ServeEffect) :
    dataBytes (log ++ [e]) = dataBytes log + e.dataBytes := by
  simp [dataBytes]

theorem credited_concat (log : List ServeEffect) (e : ServeEffect) :
    credited (log ++ [e]) = credited log + e.credited := by
  simp [credited]

/-- A split of a log with one entry more is at that entry, or one of the log. -/
theorem split_concat {before after : List ServeEffect} {x : ServeEffect}
    (h : log ++ [e] = before ++ x :: after) :
    (before = log ∧ x = e ∧ after = []) ∨
      ∃ rest, log = before ++ x :: rest ∧ after = rest ++ [e] := by
  obtain rfl | ⟨rest, last, hlast⟩ := List.eq_nil_or_concat after
  · obtain ⟨hlog, hx⟩ := List.append_inj' h rfl
    exact .inl ⟨hlog.symm, (List.cons.inj hx).1.symm, rfl⟩
  · rw [List.concat_eq_append] at hlast
    subst hlast
    rw [← List.cons_append, ← List.append_assoc] at h
    obtain ⟨hlog, hx⟩ := List.append_inj' h rfl
    exact .inr ⟨rest, hlog, by rw [hx]⟩

/-- Where the slot is not taken back, the ranges of the slot session go on. -/
theorem slotRanges_append (log : List ServeEffect) {stretch : List ServeEffect}
    (h : .sent .outOfPartReqs ∉ stretch) :
    slotRanges (log ++ stretch) = slotRanges log ++ ranges stretch := by
  induction stretch generalizing log with
  | nil => simp [ranges]
  | cons e stretch ih =>
    obtain ⟨he, hrest⟩ := not_or.mp (mt List.mem_cons.mpr h)
    rw [← List.singleton_append, ← List.append_assoc, ih _ hrest, slotRanges_concat,
      if_neg (Ne.symm he), List.append_assoc, ranges, ranges, List.filterMap_append]
    cases hrange : e.range <;> simp [hrange]

/-- "Granted" is an accept with no revocation behind it. -/
theorem granted_iff : granted log = true ↔
    ∃ before after, log = before ++ .sent .acceptUpload :: after ∧
      .sent .outOfPartReqs ∉ after := by
  induction log using List.reverseRecOn with
  | nil => simp [granted]
  | append_singleton log e ih =>
    rw [granted_concat]
    split_ifs with haccept hout
    · exact iff_of_true rfl ⟨log, [], by rw [haccept], List.not_mem_nil⟩
    · refine iff_of_false (by simp) ?_
      rintro ⟨before, after, heq, hnot⟩
      obtain ⟨-, hx, -⟩ | ⟨rest, -, rfl⟩ := split_concat heq
      · exact haccept hx.symm
      · exact hnot (by simp [hout])
    · rw [ih]
      constructor
      · rintro ⟨before, after, rfl, hnot⟩
        refine ⟨before, after ++ [e], by simp, fun hmem => ?_⟩
        rcases List.mem_append.mp hmem with hmem | hmem
        · exact hnot hmem
        · exact hout (List.mem_singleton.mp hmem).symm
      · rintro ⟨before, after, heq, hnot⟩
        obtain ⟨-, hx, -⟩ | ⟨rest, hlog, rfl⟩ := split_concat heq
        · exact absurd hx.symm haccept
        · exact ⟨before, rest, hlog, fun hmem => hnot (List.mem_append_left _ hmem)⟩

/-- Blocks are sent only where a slot is granted. -/
def Placed (log : List ServeEffect) : Prop :=
  ∀ before e after, log = before ++ e :: after → e.range ≠ none → granted before = true

/-- At no time does a slot session hold a range twice within the depth remembered. -/
def Fresh (log : List ServeEffect) : Prop :=
  ∀ before after, log = before ++ after → Recent.Spaced DEDUP_DEPTH (slotRanges before)

theorem Placed.concat (h : Placed log) (he : e.range ≠ none → granted log = true) :
    Placed (log ++ [e]) := by
  intro before e' after heq hrange
  obtain ⟨rfl, rfl, -⟩ | ⟨rest, hlog, -⟩ := split_concat heq
  · exact he hrange
  · exact h before e' rest hlog hrange

theorem Fresh.concat (h : Fresh log)
    (he : ∀ x, e.range = some x → x ∉ (slotRanges log).rtake DEDUP_DEPTH) :
    Fresh (log ++ [e]) := by
  intro before after heq
  cases after with
  | nil =>
    rw [List.append_nil] at heq
    rw [← heq, slotRanges_concat]
    split_ifs with hout
    · exact Recent.spaced_nil
    · have hlog := h log [] (List.append_nil _).symm
      cases hrange : e.range with
      | none => simpa using hlog
      | some x => exact hlog.concat (he x hrange)
  | cons x after =>
    obtain ⟨rfl, -, -⟩ | ⟨rest, hlog, -⟩ := split_concat heq
    · exact h before [] (List.append_nil _).symm
    · exact h before (x :: rest) hlog

structure Ok (args : ServeArgs) (log : List ServeEffect) : Prop where
  placed : args.gated = true → Placed log
  fresh : Fresh log
  balanced : credited log = if args.credit.isSome then dataBytes log else 0
  peer : ∀ userhash n now, .uploaded userhash n now ∈ log → args.credit = some userhash

theorem ok_nil (args : ServeArgs) : Ok args [] where
  placed _ before e after h := by simp at h
  fresh before after h := by
    obtain ⟨rfl, -⟩ := List.append_eq_nil_iff.mp h.symm
    exact Recent.spaced_nil
  balanced := by simp [credited, dataBytes]
  peer _ _ _ h := absurd h List.not_mem_nil

variable {args : ServeArgs}

/-- Whatever is neither a block nor booked credit. -/
theorem Ok.concat (h : Ok args log) (hrange : e.range = none)
    (hcredit : ∀ userhash n now, e ≠ .uploaded userhash n now) : Ok args (log ++ [e]) where
  placed hgated := (h.placed hgated).concat fun hne => absurd hrange hne
  fresh := h.fresh.concat fun x hx => by rw [hrange] at hx; cases hx
  balanced := by
    have hdata : e.dataBytes = 0 ∧ e.credited = 0 := by
      match e with
      | .sent r => cases r <;> first | exact ⟨rfl, rfl⟩ | cases hrange
      | .uploaded userhash n now => exact absurd rfl (hcredit userhash n now)
      | .verified key => exact ⟨rfl, rfl⟩
    rw [credited_concat, dataBytes_concat, hdata.1, hdata.2]
    exact h.balanced
  peer userhash n now hmem := by
    rcases List.mem_append.mp hmem with hmem | hmem
    · exact h.peer userhash n now hmem
    · exact absurd (List.mem_singleton.mp hmem).symm (hcredit userhash n now)

end ServeLog

end PadMule.Engine
