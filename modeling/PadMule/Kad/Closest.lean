import PadMule.Kad.LookupEnds
import PadMule.Lib.Runs

/-
  `mule-kad/src/lookup.rs`: the contacts nearest to the target that a lookup knows of.

  `closest` reads the candidates and the tried contacts together. `Learned` keeps beside the lookup
  every contact it accepted. A contact leaves both maps in one way only: a harvest whose find budget
  is spent consumes an untried candidate, which nothing remembers. `closest_iff` says that the
  answers of `closest` are right along a run exactly when no harvest of it does so.
-/

namespace PadMule.Kad

open PadMule.Proto SortedMap

/-! ## What `closest` answers -/

namespace CSearch

/-- `entry(d).or_insert(c)`. -/
def mergeEntry (merged : List (Kad128 × WireContact)) (e : Kad128 × WireContact) :
    List (Kad128 × WireContact) :=
  if containsKey e.1 merged then merged else insert e.1 e.2 merged

def merged (s : CSearch) : List (Kad128 × WireContact) :=
  (s.tried ++ s.possible).foldl mergeEntry []

def closest (s : CSearch) (k : Nat) : List WireContact := (s.merged.map Prod.snd).take k

/-- A candidate whose FIND is under way. -/
def pending (s : CSearch) (dist : Kad128) : Bool :=
  containsKey dist s.tried && !(decide (dist ∈ s.responded) || decide (dist ∈ s.failed))

end CSearch

/-- A lookup beside the contacts it accepted, in the order it heard of them. -/
structure Learned where
  log : Log
  accepted : List WireContact

namespace Learned

/-- A contact is accepted when it is first named. Kad1 contacts are not. -/
def learn (accepted : List WireContact) (c : WireContact) : List WireContact :=
  if c.version ≤ 1 || accepted.any (fun a => a.id = c.id) then accepted else accepted ++ [c]

def start (target : Kad128) (seeds : List WireContact) (findBudget valueBudget frontier : Nat) :
    Learned :=
  ⟨.start target seeds findBudget valueBudget frontier, seeds.foldl learn []⟩

/-- Only the answers of dispatched contacts are heard. -/
def step (w : Learned) (event : LookupEvent) : Option Learned :=
  some ⟨w.log.step event,
    match event with
    | .onResponse sender contacts _ =>
      if w.log.wasDispatched sender then contacts.foldl learn w.accepted else w.accepted
    | _ => w.accepted⟩

/-- The `k` contacts nearest to the target among all that were accepted. -/
def nearest (w : Learned) (k : Nat) : List WireContact :=
  (w.accepted.insertionSort fun a b =>
    w.log.search.target.distance a.id ≤ w.log.search.target.distance b.id).take k

def Truthful (w : Learned) : Prop := ∀ k, w.log.search.closest k = w.nearest k

/-- A harvest has budget left for the untried candidates, or an open FIND in front of each. -/
def Keeps (w : Learned) : LookupEvent → Prop
  | .harvest => w.log.search.findBudget ≠ 0 ∨ ∀ e ∈ w.log.search.possible,
      containsKey e.1 w.log.search.tried = false →
        ∃ e' ∈ w.log.search.possible, e'.1 < e.1 ∧ w.log.search.pending e'.1 = true
  | _ => True

instance (w : Learned) : ∀ event, Decidable (w.Keeps event)
  | .harvest => inferInstanceAs (Decidable (_ ∨ _))
  | .refill _ | .onResponse .. | .onTimeout _ => .isTrue trivial

end Learned

/-! ## The merged map -/

theorem mergeEntry_cases (merged : List (Kad128 × WireContact)) (e : Kad128 × WireContact) :
    (∃ c, (e.1, c) ∈ merged ∧ CSearch.mergeEntry merged e = merged) ∨
      (∀ e' ∈ merged, e'.1 ≠ e.1) ∧ CSearch.mergeEntry merged e = insert e.1 e.2 merged := by
  unfold CSearch.mergeEntry
  split_ifs with hkey
  · obtain ⟨c, hc⟩ := containsKey_iff.mp hkey
    exact .inl ⟨c, hc, rfl⟩
  · exact .inr ⟨containsKey_eq_false.mp (Bool.not_eq_true _ ▸ hkey), rfl⟩

/-- Where a key names one contact, merging keeps every entry. -/
theorem foldl_mergeEntry {merged entries : List (Kad128 × WireContact)} (hsorted : Sorted merged)
    (hone : ∀ e ∈ merged ++ entries, ∀ e' ∈ merged ++ entries, e.1 = e'.1 → e = e') :
    Sorted (entries.foldl CSearch.mergeEntry merged) ∧
      ∀ e, e ∈ entries.foldl CSearch.mergeEntry merged ↔ e ∈ merged ++ entries := by
  induction entries generalizing merged with
  | nil => exact ⟨hsorted, fun e => by rw [List.append_nil, List.foldl_nil]⟩
  | cons e entries ih =>
    have hmem : ∀ e', e' ∈ CSearch.mergeEntry merged e ↔ e' ∈ merged ∨ e' = e := by
      intro e'
      rcases mergeEntry_cases merged e with ⟨c, hc, heq⟩ | ⟨hnew, heq⟩
      · have hsame := hone (e.1, c) (List.mem_append_left _ hc) e (by simp) rfl
        rw [heq]
        exact ⟨.inl, fun h => h.elim id fun h => h ▸ hsame ▸ hc⟩
      · rw [heq, mem_insert hnew, or_comm]
    have hsorted' : Sorted (CSearch.mergeEntry merged e) := by
      rcases mergeEntry_cases merged e with ⟨c, hc, heq⟩ | ⟨hnew, heq⟩
      · rw [heq]
        exact hsorted
      · rw [heq]
        exact hsorted.insert e.2 hnew
    have hall : ∀ e',
        e' ∈ CSearch.mergeEntry merged e ++ entries ↔ e' ∈ merged ++ e :: entries := by
      intro e'
      rw [List.mem_append, List.mem_append, hmem, List.mem_cons, or_assoc]
    obtain ⟨hsorted'', hmem'⟩ := ih hsorted' fun e₁ h₁ e₂ h₂ =>
      hone e₁ ((hall e₁).mp h₁) e₂ ((hall e₂).mp h₂)
    exact ⟨hsorted'', fun e' => (hmem' e').trans (hall e')⟩

namespace CSearch

/-- `c` is a candidate or was tried. -/
def Knows (s : CSearch) (c : WireContact) : Prop :=
  (s.target.distance c.id, c) ∈ s.tried ∨ (s.target.distance c.id, c) ∈ s.possible

/-- Contacts stand under their distances. -/
def Keyed (s : CSearch) : Prop :=
  ∀ e ∈ s.tried ++ s.possible, e.1 = s.target.distance e.2.id

theorem Keyed.known {s : CSearch} (h : s.Keyed) {e : Kad128 × WireContact}
    (he : e ∈ s.tried ++ s.possible) : s.Knows e.2 := by
  have hkey := h e he
  unfold Knows
  rw [← hkey]
  exact List.mem_append.mp he

end CSearch

variable {finds values : Nat} {w : Log}

theorem Sound.keyed (h : Sound finds values w) : w.search.Keyed := by
  intro e he
  rcases List.mem_append.mp he with he | he
  · exact ((h.tried e).mp he).2
  · exact h.key e he

/-- An id has one contact among all that are known. -/
theorem Sound.known_eq (h : Sound finds values w) {c d : WireContact} (hc : w.search.Knows c)
    (hd : w.search.Knows d) (hid : c.id = d.id) : c = d := by
  have hdispatched {x y : WireContact} (hx : x ∈ w.dispatched) (hy : y ∈ w.dispatched)
      (hid : x.id = y.id) : x = y := List.inj_on_of_nodup_map h.nodup hx hy hid
  rcases hc with hc | hc <;> rcases hd with hd | hd
  · exact hdispatched ((h.tried _).mp hc).1 ((h.tried _).mp hd).1 hid
  · exact h.same _ hd c ((h.tried _).mp hc).1 hid
  · exact (h.same _ hc d ((h.tried _).mp hd).1 hid.symm).symm
  · exact congrArg Prod.snd (h.sorted.eq_of_key hc hd (by rw [hid]))

theorem Sound.merged (h : Sound finds values w) :
    Sorted w.search.merged ∧
      ∀ e, e ∈ w.search.merged ↔ e ∈ w.search.tried ++ w.search.possible := by
  have hone : ∀ e ∈ w.search.tried ++ w.search.possible, ∀ e' ∈ w.search.tried ++ w.search.possible,
      e.1 = e'.1 → e = e' := by
    intro e he e' he' hkey
    have hid : e.2.id = e'.2.id := by
      rw [h.keyed e he, h.keyed e' he'] at hkey
      exact Kad128.distance_inj hkey
    exact Prod.ext hkey (h.known_eq (h.keyed.known he) (h.keyed.known he') hid)
  exact foldl_mergeEntry List.Pairwise.nil hone

theorem Sound.mem_merged (h : Sound finds values w) {c : WireContact} :
    c ∈ w.search.merged.map Prod.snd ↔ w.search.Knows c := by
  rw [List.mem_map]
  constructor
  · rintro ⟨e, he, rfl⟩
    exact h.keyed.known ((h.merged.2 e).mp he)
  · intro hc
    exact ⟨_, (h.merged.2 _).mpr (List.mem_append.mpr hc), rfl⟩

/-- The merged contacts ascend by distance. -/
theorem Sound.merged_sorted (h : Sound finds values w) :
    (w.search.merged.map Prod.snd).Pairwise fun a b =>
      w.search.target.distance a.id < w.search.target.distance b.id := by
  obtain ⟨hsorted, hmem⟩ := h.merged
  rw [List.pairwise_map]
  refine hsorted.imp_of_mem fun {e e'} he he' hlt => ?_
  rwa [h.keyed e ((hmem e).mp he), h.keyed e' ((hmem e').mp he')] at hlt

/-! ## Truth is knowing what was accepted -/

namespace Learned

/-- What every run keeps, right answers or not. -/
structure Inv (w : Learned) : Prop where
  sound : ∃ finds values, Sound finds values w.log
  /-- An id is accepted once. -/
  once : (w.accepted.map WireContact.id).Nodup

variable {w w' : Learned}

theorem once_learn {accepted : List WireContact} (h : (accepted.map WireContact.id).Nodup)
    (c : WireContact) : ((learn accepted c).map WireContact.id).Nodup := by
  unfold learn
  split_ifs with hknown
  · exact h
  · rw [Bool.or_eq_true, not_or, List.any_eq_true] at hknown
    rw [List.map_append, List.map_singleton]
    refine List.Nodup.append h (List.nodup_singleton _) fun i hi hi' => hknown.2 ?_
    obtain ⟨a, ha, rfl⟩ := List.mem_map.mp hi
    exact ⟨a, ha, decide_eq_true (List.mem_singleton.mp hi')⟩

theorem once_learns {accepted : List WireContact} (h : (accepted.map WireContact.id).Nodup)
    (contacts : List WireContact) : ((contacts.foldl learn accepted).map WireContact.id).Nodup := by
  induction contacts generalizing accepted with
  | nil => exact h
  | cons c contacts ih => exact ih (once_learn h c)

theorem inv_start (target : Kad128) (seeds : List WireContact)
    (findBudget valueBudget frontier : Nat) :
    (start target seeds findBudget valueBudget frontier).Inv := by
  have hnone : (([] : List WireContact).map WireContact.id).Nodup := List.nodup_nil
  exact ⟨⟨_, _, sound_start target seeds findBudget valueBudget frontier⟩, once_learns hnone seeds⟩

theorem inv_step {event : LookupEvent} (h : w.Inv) (hstep : w.step event = some w') : w'.Inv := by
  obtain ⟨finds, values, hsound⟩ := h.sound
  cases hstep
  refine ⟨⟨finds, values, hsound.moves (hsound.moves_step event)⟩, ?_⟩
  cases event with
  | onResponse sender contacts capacity =>
    dsimp only
    split_ifs
    · exact once_learns h.once contacts
    · exact h.once
  | _ => exact h.once

/-- The lookup knows the contacts it accepted, and no others. -/
def Remembers (w : Learned) : Prop := ∀ c, w.log.search.Knows c ↔ c ∈ w.accepted

theorem truthful_iff (h : w.Inv) : w.Truthful ↔ w.Remembers := by
  obtain ⟨finds, values, hsound⟩ := h.sound
  let closer (a b : WireContact) : Prop :=
    w.log.search.target.distance a.id ≤ w.log.search.target.distance b.id
  have hperm : (w.accepted.insertionSort closer).Perm w.accepted := List.perm_insertionSort ..
  constructor
  · intro htrue c
    let k := w.log.search.merged.length + w.accepted.length
    have hk : w.log.search.closest k = w.nearest k := htrue k
    unfold CSearch.closest nearest at hk
    rw [List.take_of_length_le (by rw [List.length_map]; omega),
      List.take_of_length_le (by rw [hperm.length_eq]; omega)] at hk
    rw [← hsound.mem_merged, hk, hperm.mem_iff]
  · intro hknows k
    have hsorted : (w.accepted.insertionSort closer).Pairwise closer :=
      List.pairwise_insertionSort closer w.accepted
    have hmerged := hsound.merged_sorted
    have hnodup : (w.log.search.merged.map Prod.snd).Nodup :=
      hmerged.imp fun hlt heq => absurd (heq ▸ hlt) (lt_irrefl _)
    have hsame : (w.log.search.merged.map Prod.snd).Perm (w.accepted.insertionSort closer) := by
      have hperm' := List.perm_ext_iff_of_nodup hnodup (List.Nodup.of_map _ h.once)
      refine (hperm'.mpr fun c => ?_).trans hperm.symm
      rw [hsound.mem_merged, hknows c]
    have heq : w.log.search.merged.map Prod.snd = w.accepted.insertionSort closer := by
      have hle : (w.log.search.merged.map Prod.snd).Pairwise closer := hmerged.imp fun hlt => hlt.le
      refine hsame.eq_of_pairwise (fun a b ha hb hab hba => ?_) hle hsorted
      have hid : a.id = b.id := Kad128.distance_inj (le_antisymm hab hba)
      exact hsound.known_eq (hsound.mem_merged.mp ha)
        (hsound.mem_merged.mp (hsame.mem_iff.mpr hb)) hid
    unfold CSearch.closest nearest
    rw [heq]

/-! ## Taking contacts in -/

/-- What a lookup knows are the accepted contacts. -/
structure Holds (s : CSearch) (accepted : List WireContact) : Prop where
  keyed : s.Keyed
  knows : ∀ c, s.Knows c ↔ c ∈ accepted

theorem Holds.unseen_iff {s : CSearch} {accepted : List WireContact} (h : Holds s accepted)
    (id : Kad128) : s.unseen id = false ↔ ∃ a ∈ accepted, a.id = id := by
  unfold CSearch.unseen
  rw [Bool.not_eq_false', Bool.or_eq_true, containsKey_iff, containsKey_iff]
  constructor
  · rintro (⟨c, hc⟩ | ⟨c, hc⟩)
    · have hmem := List.mem_append_right s.tried hc
      exact ⟨c, (h.knows c).mp (h.keyed.known hmem), (Kad128.distance_inj (h.keyed _ hmem)).symm⟩
    · have hmem := List.mem_append_left s.possible hc
      exact ⟨c, (h.knows c).mp (h.keyed.known hmem), (Kad128.distance_inj (h.keyed _ hmem)).symm⟩
  · rintro ⟨a, ha, rfl⟩
    exact ((h.knows a).mpr ha).symm.imp (fun h => ⟨a, h⟩) fun h => ⟨a, h⟩

/-- `add` accepts a contact when its id is new, as the list of accepted ones does. -/
theorem Holds.add {s : CSearch} {accepted : List WireContact} (h : Holds s accepted)
    (c : WireContact) : Holds (s.add c).2 (learn accepted c) := by
  have hunseen := h.unseen_iff c.id
  unfold CSearch.add learn
  by_cases hversion : c.version ≤ 1
  · rw [if_pos hversion, if_pos (by simp [hversion])]
    exact h
  · rw [if_neg hversion]
    dsimp only
    cases hseen : s.unseen c.id with
    | false =>
      obtain ⟨a, ha, hid⟩ := hunseen.mp hseen
      rw [CSearch.unseen, Bool.not_eq_false'] at hseen
      rw [if_pos hseen, if_pos (by
        rw [Bool.or_eq_true, List.any_eq_true]
        exact .inr ⟨a, ha, decide_eq_true hid⟩)]
      exact h
    | true =>
      have hfresh : ∀ a ∈ accepted, a.id ≠ c.id := fun a ha hid =>
        absurd (hseen.symm.trans (hunseen.mpr ⟨a, ha, hid⟩)) (by decide)
      rw [CSearch.unseen, Bool.not_eq_true'] at hseen
      rw [if_neg (by simp [hseen]), if_neg (by simpa [hversion] using hfresh)]
      have hnew := containsKey_eq_false.mp (Bool.or_eq_false_iff.mp hseen).1
      refine ⟨fun e he => ?_, fun d => ?_⟩
      · rcases List.mem_append.mp he with he | he
        · exact h.keyed e (List.mem_append_left _ he)
        · rcases (mem_insert hnew).mp he with rfl | he
          · rfl
          · exact h.keyed e (List.mem_append_right _ he)
      · have hd : d = c ↔ (s.target.distance d.id, d) = (s.target.distance c.id, c) :=
          ⟨fun h => by rw [h], fun h => congrArg Prod.snd h⟩
        rw [List.mem_append, List.mem_singleton, ← h.knows d, hd]
        show _ ∨ _ ∈ insert _ c s.possible ↔ _
        rw [mem_insert hnew, or_comm (a := _ = _), ← or_assoc]
        exact Iff.rfl

/-- A candidate that is dispatched stays known. -/
theorem Holds.dispatch {s : CSearch} {accepted : List WireContact} (h : Holds s accepted)
    {c : WireContact} (hcandidate : (s.target.distance c.id, c) ∈ s.possible)
    (huntried : ∀ e ∈ s.tried, e.1 ≠ s.target.distance c.id) : Holds (s.dispatch c) accepted := by
  have hmem {e : Kad128 × WireContact} : e ∈ (s.dispatch c).tried ↔
      e = (s.target.distance c.id, c) ∨ e ∈ s.tried := mem_insert huntried
  refine ⟨fun e he => ?_, fun d => ?_⟩
  · rcases List.mem_append.mp he with he | he
    · rcases hmem.mp he with rfl | he
      · rfl
      · exact h.keyed e (List.mem_append_left _ he)
    · exact h.keyed e (List.mem_append_right _ he)
  · rw [← h.knows d]
    constructor
    · rintro (hd | hd)
      · rcases hmem.mp hd with heq | hd
        · exact .inr (heq ▸ hcandidate)
        · exact .inl hd
      · exact .inr hd
    · exact .imp_left fun hd => hmem.mpr (.inr hd)

theorem Holds.consider {fromDist : Kad128} {capacity : Nat} {r : List WireContact × CSearch}
    {accepted : List WireContact} (h : Holds r.2 accepted) (c : WireContact) :
    Holds (CSearch.consider fromDist capacity r c).2 (learn accepted c) := by
  have hadd := h.add c
  unfold CSearch.consider
  rcases r.2.add_cases c with heq | ⟨-, hnew, huntried, heq⟩
  · rw [heq] at hadd ⊢
    exact hadd
  · rw [heq] at hadd ⊢
    dsimp only at hadd ⊢
    split_ifs
    · have hcandidate := (mem_insert (v := c) hnew).mpr (.inl rfl)
      have hranked : Holds { r.2 with
          possible := insert (r.2.target.distance c.id) c r.2.possible
          best := (CSearch.top r.2.best (r.2.target.distance c.id)).2 } (learn accepted c) :=
        ⟨hadd.keyed, hadd.knows⟩
      exact hranked.dispatch hcandidate huntried
    · exact ⟨hadd.keyed, hadd.knows⟩
    · exact hadd

theorem Holds.considers (fromDist : Kad128) (capacity : Nat) {r : List WireContact × CSearch}
    {accepted : List WireContact} (h : Holds r.2 accepted) (contacts : List WireContact) :
    Holds (contacts.foldl (CSearch.consider fromDist capacity) r).2
      (contacts.foldl learn accepted) := by
  induction contacts generalizing r accepted with
  | nil => exact h
  | cons c contacts ih => exact ih (h.consider c)

theorem Holds.adds {s : CSearch} {accepted : List WireContact} (h : Holds s accepted)
    (contacts : List WireContact) :
    Holds (contacts.foldl (fun s c => (s.add c).2) s) (contacts.foldl learn accepted) := by
  induction contacts generalizing s accepted with
  | nil => exact h
  | cons c contacts ih => exact ih (h.add c)

theorem Holds.dispatches {s : CSearch} {accepted out : List WireContact} (h : Holds s accepted)
    (hout : ∀ c ∈ out, (s.target.distance c.id, c) ∈ s.possible ∧
      ∀ e ∈ s.tried, e.1 ≠ s.target.distance c.id)
    (hnodup : (out.map WireContact.id).Nodup) : Holds (out.foldl CSearch.dispatch s) accepted := by
  induction out generalizing s with
  | nil => exact h
  | cons c out ih =>
    obtain ⟨⟨hcandidate, huntried⟩, hrest⟩ := List.forall_mem_cons.mp hout
    rw [List.map_cons, List.nodup_cons] at hnodup
    refine ih (h.dispatch hcandidate huntried) (fun d hd => ⟨(hrest d hd).1, fun e he => ?_⟩)
      hnodup.2
    rcases (mem_insert huntried).mp he with rfl | he
    · intro hkey
      exact hnodup.1 (List.mem_map.mpr ⟨d, hd, (Kad128.distance_inj hkey).symm⟩)
    · exact (hrest d hd).2 e he

/-! ## What a harvest consumes -/

/-- The walk consumes candidates from the front, all of them done. -/
theorem walk_split (s : CSearch) (l : List (Kad128 × WireContact)) :
    (s.walk l).2.target = s.target ∧
      ∃ pre, l = pre ++ (s.walk l).2.possible ∧ ∀ e ∈ pre, s.Done e.1 := by
  induction l generalizing s with
  | nil => exact ⟨rfl, [], rfl, fun e he => absurd he List.not_mem_nil⟩
  | cons e l ih =>
    obtain ⟨dist, c⟩ := e
    have hskip {s' : CSearch} (htarget : s'.target = s.target) (hdone : s.Done dist)
        (hsame : ∀ d, s'.Done d → s.Done d) :
        (s'.walk l).2.target = s.target ∧ ∃ pre, (dist, c) :: l = pre ++ (s'.walk l).2.possible ∧
          ∀ e ∈ pre, s.Done e.1 := by
      obtain ⟨htarget', pre, hsplit, hpre⟩ := ih s'
      refine ⟨htarget'.trans htarget, (dist, c) :: pre, ?_, ?_⟩
      · rw [List.cons_append, ← hsplit]
      · exact List.forall_mem_cons.mpr ⟨hdone, fun e he => hsame _ (hpre e he)⟩
    have hstop : s.target = s.target ∧ ∃ pre, (dist, c) :: l = pre ++ (dist, c) :: l ∧
        ∀ e ∈ pre, s.Done e.1 := ⟨rfl, [], rfl, fun e he => absurd he List.not_mem_nil⟩
    rw [CSearch.walk]
    split_ifs with htried hresponded hask hfailed hspent
    · exact hskip rfl (.inl ⟨htried, .inl hresponded⟩) fun _ hd => hd
    · exact hskip rfl (.inl ⟨htried, .inl hresponded⟩) fun _ hd => hd
    · exact hskip rfl (.inl ⟨htried, .inr hfailed⟩) fun _ hd => hd
    · exact hstop
    · exact hskip rfl (.inr ⟨by simpa using htried, hspent⟩) fun _ hd => hd
    · exact hstop

theorem pending_iff {s : CSearch} {dist : Kad128} : s.pending dist = true ↔
    containsKey dist s.tried = true ∧ dist ∉ s.responded ∧ dist ∉ s.failed := by
  unfold CSearch.pending
  rw [Bool.and_eq_true, Bool.not_eq_true', Bool.or_eq_false_iff, decide_eq_false_iff_not,
    decide_eq_false_iff_not]

/-- A candidate out of reach is consumed unless an open FIND stands in front of it. -/
theorem remembers_harvest (hinv : w.Inv) (h : w.Remembers) (hstep : w.step .harvest = some w') :
    w'.Remembers ↔ w.Keeps .harvest := by
  obtain ⟨finds, values, hsound⟩ := hinv.sound
  have hsorted := hsound.sorted
  obtain ⟨htarget, pre, hsplit, hpre⟩ := walk_split w.log.search w.log.search.possible
  obtain ⟨htried, -, -, hends⟩ := w.log.search.walk_stops w.log.search.possible
  have hrest : ∀ e ∈ (w.log.search.walk w.log.search.possible).2.possible,
      e ∈ w.log.search.possible := fun e he => by
    rw [hsplit]
    exact List.mem_append_right _ he
  have hafter : w'.Remembers ↔ ∀ c, ((w.log.search.target.distance c.id, c) ∈ w.log.search.tried ∨
      (w.log.search.target.distance c.id, c) ∈
        (w.log.search.walk w.log.search.possible).2.possible) ↔ c ∈ w.accepted := by
    cases hstep
    rw [← htarget, ← htried]
    exact Iff.rfl
  rw [hafter]
  constructor
  · intro hall
    refine or_iff_not_imp_left.mpr fun hspent e he huntried => ?_
    rw [not_ne_iff] at hspent
    have hkey := hsound.key e he
    have hdone : w.log.search.Done e.1 := .inr ⟨huntried, hspent⟩
    have haccepted := (h e.2).mp (.inr (by rwa [← hkey]))
    have hleft : e ∈ (w.log.search.walk w.log.search.possible).2.possible := by
      rcases (hall e.2).mpr haccepted with hin | hin
      · rw [← hkey] at hin
        exact absurd rfl (containsKey_eq_false.mp huntried _ hin)
      · rwa [← hkey] at hin
    -- the walk stopped at a candidate in front of it that is not done
    rcases hends with hnil | ⟨first, rest, heq, hfirst, hopen⟩
    · rw [hnil] at hleft
      exact absurd hleft List.not_mem_nil
    · rw [heq] at hleft hsplit
      have hbehind : e ∈ rest :=
        (List.mem_cons.mp hleft).resolve_left fun heq => hopen (heq ▸ hdone)
      rw [hsplit] at hsorted
      have hlt := (List.pairwise_cons.mp (List.pairwise_append.mp hsorted).2.1).1 e hbehind
      refine ⟨first, hfirst, hlt, pending_iff.mpr ?_⟩
      unfold CSearch.Done at hopen
      rw [not_or, not_and, not_and, not_or] at hopen
      cases hfirstTried : containsKey first.1 w.log.search.tried with
      | false => exact absurd hspent (hopen.2 hfirstTried)
      | true => exact ⟨rfl, hopen.1 hfirstTried⟩
  · intro hkeeps c
    rw [← h c]
    refine ⟨.imp_right (hrest _), fun hin => hin.elim .inl fun hin => ?_⟩
    have hcases : (w.log.search.target.distance c.id, c) ∈ pre ++ _ := hsplit ▸ hin
    rcases List.mem_append.mp hcases with hgone | hleft
    · refine .inl ?_
      rcases hpre _ hgone with ⟨hkey, -⟩ | ⟨huntried, hspent⟩
      · obtain ⟨d, hd⟩ := containsKey_iff.mp hkey
        have hd' : w.log.search.Knows d :=
          hsound.keyed.known (e := (_, d)) (List.mem_append_left _ hd)
        have hid := Kad128.distance_inj ((hsound.tried _).mp hd).2
        have heq : c = d := hsound.known_eq (.inr hin) hd' hid
        subst heq
        exact hd
      · obtain ⟨e, he, hlt, hpending⟩ := hkeeps.resolve_left (not_ne_iff.mpr hspent) _ hin huntried
        obtain ⟨hkey, hresponded, hfailed⟩ := pending_iff.mp hpending
        rw [hsplit] at he hsorted
        rcases List.mem_append.mp he with he | he
        · rcases hpre e he with ⟨-, hdone⟩ | ⟨hnot, -⟩
          · exact absurd hdone (not_or.mpr ⟨hresponded, hfailed⟩)
          · exact absurd (hkey.symm.trans hnot) (by decide)
        · exact absurd hlt ((List.pairwise_append.mp hsorted).2.2 _ hgone e he).asymm
    · exact .inr hleft

/-! ## Every other event remembers -/

theorem remembers_iff (hinv : w.Inv) : w.Remembers ↔ Holds w.log.search w.accepted := by
  obtain ⟨finds, values, hsound⟩ := hinv.sound
  exact ⟨fun h => ⟨hsound.keyed, h⟩, fun h => h.knows⟩

theorem remembers_step {event : LookupEvent} (hinv : w.Inv) (h : w.Remembers)
    (hstep : w.step event = some w') : w'.Remembers ↔ w.Keeps event := by
  have hholds := (remembers_iff hinv).mp h
  obtain ⟨finds, values, hsound⟩ := hinv.sound
  cases event with
  | refill capacity =>
    cases hstep
    refine iff_of_true ?_ trivial
    obtain ⟨hout, hnodup, -⟩ := hsound.refill_out capacity
    exact (hholds.dispatches hout hnodup).knows
  | onResponse sender contacts capacity =>
    cases hstep
    refine iff_of_true ?_ trivial
    have htried := hsound.untried_iff (c := sender)
    unfold Remembers Log.step
    dsimp only
    cases hsender : w.log.wasDispatched sender with
    | false =>
      rw [CSearch.onResponse_unknown (htried.trans hsender)]
      exact h
    | true =>
      rw [CSearch.onResponse_known (htried.trans hsender)]
      have hall := Holds.considers (w.log.search.target.distance sender.id) capacity
        (r := ([], w.log.search)) hholds contacts
      exact hall.knows
  | onTimeout sender =>
    cases hstep
    refine iff_of_true ?_ trivial
    unfold Remembers Log.step CSearch.onTimeout
    dsimp only
    split_ifs <;> exact h
  | harvest => exact remembers_harvest hinv h hstep

theorem remembers_start (target : Kad128) (seeds : List WireContact)
    (findBudget valueBudget frontier : Nat) :
    (start target seeds findBudget valueBudget frontier).Remembers := by
  have hblank : Holds ⟨target, [], [], ∅, ∅, [], findBudget, valueBudget, frontier⟩ [] :=
    ⟨fun e he => absurd he List.not_mem_nil, fun c => iff_of_false
      (not_or.mpr ⟨List.not_mem_nil, List.not_mem_nil⟩) List.not_mem_nil⟩
  exact (hblank.adds seeds).knows

/-! ## The exact condition -/

theorem truthful_step {event : LookupEvent} (hinv : w.Inv) (h : w.Truthful)
    (hstep : w.step event = some w') : w'.Truthful ↔ w.Keeps event := by
  rw [truthful_iff (inv_step hinv hstep)]
  exact remembers_step hinv ((truthful_iff hinv).mp h) hstep

/-- Along a run `closest` always answers with the nearest contacts ever accepted exactly when no
    harvest consumes a candidate that was never tried. -/
theorem closest_iff (target : Kad128) (seeds : List WireContact)
    (findBudget valueBudget frontier : Nat) (events : List LookupEvent) :
    Runs.Always step Truthful (start target seeds findBudget valueBudget frontier) events ↔
      Runs.Throughout step Keeps (start target seeds findBudget valueBudget frontier) events := by
  have hinv := inv_start target seeds findBudget valueBudget frontier
  refine Runs.always_iff_throughout (fun w event w' h hs => inv_step h hs)
    (fun w event hs => absurd hs (by simp [step])) (fun w event w' h hg hs => truthful_step h hg hs)
    hinv ?_ events
  exact (truthful_iff hinv).mpr (remembers_start target seeds findBudget valueBudget frontier)

/-- The one FIND of the lookup goes to the nearer seed and fails. The harvest then consumes the
    farther one too, which was never tried. -/
theorem closest_forgets_untried :
    ¬Runs.Always step Truthful (start ⟨0, 0, 0, 0⟩ [contactAt 1, contactAt 2] 1 1 11)
      [.refill 3, .onTimeout (contactAt 1), .harvest] := by
  intro h
  have htrue := ((h.2 _ rfl).2 _ rfl).2 _ rfl
  exact absurd (htrue 2) (by decide)

end Learned
end PadMule.Kad
