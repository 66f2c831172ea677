import PadMule.Kad.Message
import PadMule.Lib.SortedMap
import Mathlib.Data.Finset.Insert

/-
  `mule-kad/src/lookup.rs`: the lookup of a target.

  `CSearch` is fed with events and says whom to send a FIND (`refill`, `on_response`) and whom to
  ask for values (`harvest`). `Log` keeps beside it what was dispatched, answered, failed and asked.
  Every event is a sequence of small moves (`Move`): a contact is learned, dispatched, answers,
  fails, or the closest candidate is consumed, with a value ask or without.
  `Sound` is the invariant of the moves.
-/

namespace PadMule.Kad

open PadMule.Proto SortedMap

def ALPHA_QUERY : Nat := 3

structure CSearch where
  target : Kad128
  /-- Candidates by distance. -/
  possible : List (Kad128 × WireContact)
  /-- All that were ever dispatched, by distance. -/
  tried : List (Kad128 × WireContact)
  responded : Finset Kad128
  failed : Finset Kad128
  /-- The closest distances seen in answers, ascending. -/
  best : List Kad128
  findBudget : Nat
  valueBudget : Nat
  frontier : Nat

namespace CSearch

def add (s : CSearch) (c : WireContact) : Option Kad128 × CSearch :=
  if c.version ≤ 1 then (none, s)
  else
    let dist := s.target.distance c.id
    if containsKey dist s.possible || containsKey dist s.tried then (none, s)
    else (some dist, { s with possible := insert dist c s.possible })

def new (target : Kad128) (seeds : List WireContact) (findBudget valueBudget frontier : Nat) :
    CSearch :=
  seeds.foldl (fun s c => (s.add c).2)
    ⟨target, [], [], ∅, ∅, [], findBudget, valueBudget, frontier⟩

/-- Mark a contact as tried, at the cost of one FIND. -/
def dispatch (s : CSearch) (c : WireContact) : CSearch :=
  { s with
    findBudget := s.findBudget - 1
    tried := insert (s.target.distance c.id) c s.tried }

def refill (s : CSearch) (capacity : Nat) : List WireContact × CSearch :=
  let untried := (s.possible.take s.frontier).filter fun e => !containsKey e.1 s.tried
  let out := (untried.map Prod.snd).take (min capacity s.findBudget)
  (out, out.foldl dispatch s)

/-- The gate on immediate dispatch, and the closest distances after it. -/
def top (best : List Kad128) (dist : Kad128) : Bool × List Kad128 :=
  let join (best : List Kad128) := if dist ∈ best then best else best.orderedInsert (· ≤ ·) dist
  if best.length < ALPHA_QUERY then (true, join best)
  else
    match best.getLast? with
    | none => (false, best)
    | some worst => if dist < worst then (true, join (best.erase worst)) else (false, best)

/-- One contact of an answer. -/
def consider (fromDist : Kad128) (capacity : Nat) (r : List WireContact × CSearch)
    (c : WireContact) : List WireContact × CSearch :=
  match r.2.add c with
  | (none, s) => (r.1, s)
  | (some dist, s) =>
    if dist < fromDist then
      let gate := top s.best dist
      let s := { s with best := gate.2 }
      if gate.1 && r.1.length < capacity && 0 < s.findBudget then (r.1 ++ [c], s.dispatch c)
      else (r.1, s)
    else (r.1, s)

def onResponse (s : CSearch) (sender : WireContact) (contacts : List WireContact)
    (capacity : Nat) : List WireContact × CSearch :=
  let fromDist := s.target.distance sender.id
  if !containsKey fromDist s.tried then ([], s)
  else
    let r := contacts.foldl (consider fromDist capacity) ([], s)
    (r.1, { r.2 with responded := Insert.insert fromDist r.2.responded })

def onTimeout (s : CSearch) (sender : WireContact) : CSearch :=
  let dist := s.target.distance sender.id
  if containsKey dist s.tried then { s with failed := Insert.insert dist s.failed } else s

/-- The walk of `harvest` over the candidates that are left. -/
def walk (s : CSearch) : List (Kad128 × WireContact) → List WireContact × CSearch
  | [] => ([], { s with possible := [] })
  | (dist, c) :: rest =>
    if containsKey dist s.tried then
      if dist ∈ s.responded then
        if dist.withinTolerance && 0 < s.valueBudget then
          let r := walk { s with valueBudget := s.valueBudget - 1 } rest
          (c :: r.1, r.2)
        else walk s rest
      else if dist ∈ s.failed then walk s rest
      else ([], { s with possible := (dist, c) :: rest })
    else if s.findBudget = 0 then walk s rest
    else ([], { s with possible := (dist, c) :: rest })

def harvest (s : CSearch) : List WireContact × CSearch := s.walk s.possible

end CSearch

/-! ## Runs -/

inductive LookupEvent where
  | refill (capacity : Nat)
  | onResponse (sender : WireContact) (contacts : List WireContact) (capacity : Nat)
  | onTimeout (sender : WireContact)
  | harvest

/-- A lookup with its history. -/
structure Log where
  search : CSearch
  dispatched : List WireContact
  /-- The dispatched contacts that answered, and those that failed, by id. -/
  answered : List Kad128
  failed : List Kad128
  /-- The contacts asked for values. -/
  asked : List WireContact
  /-- The ids of the contacts named to the search, those of Kad1 apart. -/
  learned : List Kad128

namespace Log

/-- The contacts of a list that a search may take in. -/
def named (contacts : List WireContact) : List Kad128 :=
  (contacts.filter fun c => 1 < c.version).map WireContact.id

def start (target : Kad128) (seeds : List WireContact) (findBudget valueBudget frontier : Nat) :
    Log :=
  ⟨.new target seeds findBudget valueBudget frontier, [], [], [], [], named seeds⟩

def wasDispatched (w : Log) (c : WireContact) : Bool := w.dispatched.any fun d => d.id = c.id

def step (w : Log) : LookupEvent → Log
  | .refill capacity =>
    let r := w.search.refill capacity
    { w with search := r.2, dispatched := w.dispatched ++ r.1 }
  | .onResponse sender contacts capacity =>
    let r := w.search.onResponse sender contacts capacity
    let w' := { w with search := r.2, dispatched := w.dispatched ++ r.1 }
    if w.wasDispatched sender then
      { w' with
        answered := w.answered ++ [sender.id]
        learned := w.learned ++ named contacts }
    else w'
  | .onTimeout sender =>
    let w' := { w with search := w.search.onTimeout sender }
    if w.wasDispatched sender then { w' with failed := w.failed ++ [sender.id] } else w'
  | .harvest =>
    let r := w.search.harvest
    { w with search := r.2, asked := w.asked ++ r.1 }

def run (w : Log) (events : List LookupEvent) : Log := events.foldl step w

/-- A dispatched contact that has neither answered nor failed. -/
def inFlight (w : Log) : List WireContact :=
  w.dispatched.filter fun c => c.id ∉ w.answered ∧ c.id ∉ w.failed

end Log

/-! ## Moves -/

/-- What a lookup does in the small. -/
inductive Move : Log → Log → Prop where
  | hear (w : Log) (ids : List Kad128) : Move w { w with learned := w.learned ++ ids }
  | learn {w : Log} {c : WireContact} (hheard : c.id ∈ w.learned)
      (hnew : ∀ e ∈ w.search.possible, e.1 ≠ w.search.target.distance c.id)
      (huntried : ∀ e ∈ w.search.tried, e.1 ≠ w.search.target.distance c.id) :
      Move w { w with search := { w.search with
        possible := insert (w.search.target.distance c.id) c w.search.possible } }
  | rank (w : Log) (best : List Kad128) : Move w { w with search := { w.search with best } }
  | dispatch {w : Log} {c : WireContact}
      (hcandidate : (w.search.target.distance c.id, c) ∈ w.search.possible)
      (huntried : ∀ e ∈ w.search.tried, e.1 ≠ w.search.target.distance c.id)
      (hbudget : 0 < w.search.findBudget) :
      Move w { w with search := w.search.dispatch c, dispatched := w.dispatched ++ [c] }
  | answer {w : Log} {c : WireContact} (hdispatched : w.wasDispatched c = true) :
      Move w { w with
        search := { w.search with
          responded := Insert.insert (w.search.target.distance c.id) w.search.responded }
        answered := w.answered ++ [c.id] }
  | fail {w : Log} {c : WireContact} (hdispatched : w.wasDispatched c = true) :
      Move w { w with
        search := { w.search with
          failed := Insert.insert (w.search.target.distance c.id) w.search.failed }
        failed := w.failed ++ [c.id] }
  | ask {w : Log} {dist : Kad128} {c : WireContact} {rest : List (Kad128 × WireContact)}
      (hfirst : w.search.possible = (dist, c) :: rest)
      (htried : containsKey dist w.search.tried = true) (hresponded : dist ∈ w.search.responded)
      (hnear : dist.withinTolerance = true) (hbudget : 0 < w.search.valueBudget) :
      Move w { w with
        search := { w.search with possible := rest, valueBudget := w.search.valueBudget - 1 }
        asked := w.asked ++ [c] }
  | pass {w : Log} {e : Kad128 × WireContact} {rest : List (Kad128 × WireContact)}
      (hfirst : w.search.possible = e :: rest)
      (hdone : containsKey e.1 w.search.tried = true ∧
          (e.1 ∈ w.search.responded ∨ e.1 ∈ w.search.failed) ∨
        containsKey e.1 w.search.tried = false ∧ w.search.findBudget = 0) :
      Move w { w with search := { w.search with possible := rest } }

/-- The moves one after another. -/
abbrev Moves : Log → Log → Prop := Relation.ReflTransGen Move

theorem wasDispatched_iff {w : Log} {c : WireContact} :
    w.wasDispatched c = true ↔ ∃ d ∈ w.dispatched, d.id = c.id := by
  unfold Log.wasDispatched
  rw [List.any_eq_true]
  simp

/-! ## The invariant -/

/-- What holds of a lookup that may send `finds` FINDs and `values` value asks. -/
structure Sound (finds values : Nat) (w : Log) : Prop where
  key : ∀ e ∈ w.search.possible, e.1 = w.search.target.distance e.2.id
  sorted : Sorted w.search.possible
  tried : ∀ e, e ∈ w.search.tried ↔ e.2 ∈ w.dispatched ∧ e.1 = w.search.target.distance e.2.id
  /-- A candidate that was dispatched is the one that was dispatched. -/
  same : ∀ e ∈ w.search.possible, ∀ c ∈ w.dispatched, c.id = e.2.id → c = e.2
  nodup : (w.dispatched.map WireContact.id).Nodup
  responded : ∀ i, w.search.target.distance i ∈ w.search.responded ↔ i ∈ w.answered
  failed : ∀ i, w.search.target.distance i ∈ w.search.failed ↔ i ∈ w.failed
  finds : w.search.findBudget + w.dispatched.length = finds
  values : w.search.valueBudget + w.asked.length = values
  asked : ∀ c ∈ w.asked, c ∈ w.dispatched ∧ c.id ∈ w.answered ∧
    (w.search.target.distance c.id).withinTolerance = true
  askedOnce : (w.asked.map WireContact.id).Nodup
  /-- Who was asked is no candidate any more. -/
  askedGone : ∀ c ∈ w.asked, ∀ e ∈ w.search.possible, e.2.id ≠ c.id
  /-- A dispatched contact stays a candidate until its outcome is known. -/
  waits : ∀ c ∈ w.dispatched, (∀ e ∈ w.search.possible, e.2 ≠ c) →
    c.id ∈ w.answered ∨ c.id ∈ w.failed
  learned : ∀ e ∈ w.search.possible, e.2.id ∈ w.learned
  dispatchedLearned : ∀ c ∈ w.dispatched, c.id ∈ w.learned

namespace Sound

variable {finds values : Nat} {w w' : Log}

theorem untried_iff (h : Sound finds values w) {c : WireContact} :
    containsKey (w.search.target.distance c.id) w.search.tried = w.wasDispatched c := by
  rw [Bool.eq_iff_iff, containsKey_iff, wasDispatched_iff]
  constructor
  · rintro ⟨d, hd⟩
    obtain ⟨hdispatched, hkey⟩ := (h.tried _).mp hd
    exact ⟨d, hdispatched, (Kad128.distance_inj hkey).symm⟩
  · rintro ⟨d, hd, hid⟩
    exact ⟨d, (h.tried (_, d)).mpr ⟨hd, by rw [hid]⟩⟩

/-- Who is not tried was not dispatched. -/
theorem fresh (h : Sound finds values w) {c : WireContact}
    (huntried : ∀ e ∈ w.search.tried, e.1 ≠ w.search.target.distance c.id) :
    ∀ d ∈ w.dispatched, d.id ≠ c.id := by
  intro d hd hid
  have htried := (h.tried (w.search.target.distance d.id, d)).mpr ⟨hd, rfl⟩
  exact huntried _ htried (by rw [hid])

/-- The closest candidate is no other one. -/
theorem first (h : Sound finds values w) {e : Kad128 × WireContact}
    {rest : List (Kad128 × WireContact)} (hfirst : w.search.possible = e :: rest) :
    (∀ e' ∈ rest, e.1 < e'.1) ∧ ∀ e' ∈ rest, e'.2.id ≠ e.2.id := by
  have hsorted := h.sorted
  rw [hfirst] at hsorted
  have hlt := (List.pairwise_cons.mp hsorted).1
  refine ⟨hlt, fun e' he' hid => ?_⟩
  have hkey := h.key e (hfirst ▸ List.mem_cons_self ..)
  have hkey' := h.key e' (hfirst ▸ List.mem_cons_of_mem _ he')
  exact absurd (hlt e' he') (by rw [hkey, hkey', hid]; exact lt_irrefl _)

/-- The closest candidate is consumed, its outcome known or out of reach. -/
theorem consumed (h : Sound finds values w) {e : Kad128 × WireContact}
    {rest : List (Kad128 × WireContact)} (hfirst : w.search.possible = e :: rest)
    (hdone : e.2 ∈ w.dispatched → e.2.id ∈ w.answered ∨ e.2.id ∈ w.failed) {c : WireContact}
    (hc : c ∈ w.dispatched) (hgone : ∀ e' ∈ rest, e'.2 ≠ c) :
    c.id ∈ w.answered ∨ c.id ∈ w.failed := by
  by_cases heq : e.2 = c
  · subst heq
    exact hdone hc
  · refine h.waits c hc fun e' he' => ?_
    rw [hfirst] at he'
    rcases List.mem_cons.mp he' with rfl | he'
    · exact heq
    · exact hgone e' he'

theorem move (h : Sound finds values w) (hmove : Move w w') : Sound finds values w' := by
  cases hmove with
  | hear ids =>
    exact { h with
      learned := fun e he => List.mem_append_left _ (h.learned e he)
      dispatchedLearned := fun c hc => List.mem_append_left _ (h.dispatchedLearned c hc) }
  | @learn c hheard hnew huntried =>
    have hmem {e : Kad128 × WireContact} := mem_insert (v := c) (e := e) hnew
    have hfresh := h.fresh huntried
    refine { h with
      key := fun e he => ?_
      sorted := h.sorted.insert c hnew
      same := fun e he d hd hid => ?_
      askedGone := fun a ha e he => ?_
      waits := fun d hd hgone => ?_
      learned := fun e he => ?_ }
    · rcases hmem.mp he with rfl | he
      · rfl
      · exact h.key e he
    · rcases hmem.mp he with rfl | he
      · exact absurd hid (hfresh d hd)
      · exact h.same e he d hd hid
    · rcases hmem.mp he with rfl | he
      · exact fun hid => hfresh a (h.asked a ha).1 hid.symm
      · exact h.askedGone a ha e he
    · exact h.waits d hd fun e he => hgone e (hmem.mpr (.inr he))
    · rcases hmem.mp he with rfl | he
      · exact hheard
      · exact h.learned e he
  | rank best => exact { h with }
  | @dispatch c hcandidate huntried hbudget =>
    have hmem {e : Kad128 × WireContact} := mem_insert (v := c) (e := e) huntried
    have hfresh := h.fresh huntried
    refine { h with
      tried := fun e => ?_
      same := fun e he d hd hid => ?_
      nodup := ?_
      finds := ?_
      asked := fun a ha => ?_
      waits := fun d hd hgone => ?_
      dispatchedLearned := fun d hd => ?_ }
    · show e ∈ insert _ c w.search.tried ↔ e.2 ∈ w.dispatched ++ [c] ∧ _
      rw [hmem, h.tried e, List.mem_append, List.mem_singleton]
      constructor
      · rintro (rfl | ⟨hd, hkey⟩)
        · exact ⟨.inr rfl, rfl⟩
        · exact ⟨.inl hd, hkey⟩
      · rintro ⟨hd | heq, hkey⟩
        · exact .inr ⟨hd, hkey⟩
        · exact .inl (Prod.ext (heq ▸ hkey) heq)
    · rcases List.mem_append.mp hd with hd | hd
      · exact h.same e he d hd hid
      · rw [List.mem_singleton.mp hd] at hid ⊢
        have hkey := h.key e he
        rw [← hid] at hkey
        have hsorted := h.sorted
        exact congrArg Prod.snd (hsorted.eq_of_key hcandidate he hkey.symm)
    · rw [List.map_append, List.map_singleton]
      refine List.Nodup.append h.nodup (List.nodup_singleton _) fun i hi hi' => ?_
      obtain ⟨d, hd, rfl⟩ := List.mem_map.mp hi
      exact hfresh d hd (List.mem_singleton.mp hi')
    · show w.search.findBudget - 1 + (w.dispatched ++ [c]).length = finds
      rw [List.length_append, List.length_singleton, ← h.finds]
      omega
    · obtain ⟨hd, hrest⟩ := h.asked a ha
      exact ⟨List.mem_append_left _ hd, hrest⟩
    · rcases List.mem_append.mp hd with hd | hd
      · exact h.waits d hd hgone
      · rw [List.mem_singleton.mp hd] at hgone
        exact absurd rfl (hgone _ hcandidate)
    · rcases List.mem_append.mp hd with hd | hd
      · exact h.dispatchedLearned d hd
      · rw [List.mem_singleton.mp hd]
        exact h.learned _ hcandidate
  | @answer c hdispatched =>
    refine { h with
      responded := fun i => ?_
      asked := fun a ha => ?_
      waits := fun d hd hgone => ?_ }
    · rw [Finset.mem_insert, h.responded i, List.mem_append, List.mem_singleton, or_comm]
      exact or_congr_right ⟨Kad128.distance_inj, fun heq => by rw [heq]⟩
    · obtain ⟨hd, hanswered, hnear⟩ := h.asked a ha
      exact ⟨hd, List.mem_append_left _ hanswered, hnear⟩
    · exact (h.waits d hd hgone).imp_left (List.mem_append_left _)
  | @fail c hdispatched =>
    refine { h with
      failed := fun i => ?_
      waits := fun d hd hgone => ?_ }
    · rw [Finset.mem_insert, h.failed i, List.mem_append, List.mem_singleton, or_comm]
      exact or_congr_right ⟨Kad128.distance_inj, fun heq => by rw [heq]⟩
    · exact (h.waits d hd hgone).imp_right (List.mem_append_left _)
  | @ask dist c rest hfirst htried hresponded hnear hbudget =>
    obtain ⟨hlt, hother⟩ := h.first hfirst
    have hcandidate : (dist, c) ∈ w.search.possible := hfirst ▸ List.mem_cons_self ..
    have hsub : ∀ e ∈ rest, e ∈ w.search.possible := fun e he =>
      hfirst ▸ List.mem_cons_of_mem _ he
    have hkey : dist = w.search.target.distance c.id := h.key _ hcandidate
    rw [hkey, h.untried_iff, wasDispatched_iff] at htried
    obtain ⟨d, hd, hid⟩ := htried
    have hsame : d = c := h.same _ hcandidate d hd hid
    rw [hkey, h.responded] at hresponded
    rw [hkey] at hnear
    refine { h with
      key := fun e he => h.key e (hsub e he)
      sorted := (List.pairwise_cons.mp (hfirst ▸ h.sorted)).2
      same := fun e he => h.same e (hsub e he)
      values := ?_
      asked := fun a ha => ?_
      askedOnce := ?_
      askedGone := fun a ha e he => ?_
      waits := fun d' hd' => h.consumed hfirst (fun _ => .inl hresponded) hd'
      learned := fun e he => h.learned e (hsub e he) }
    · show w.search.valueBudget - 1 + (w.asked ++ [c]).length = values
      rw [List.length_append, List.length_singleton, ← h.values]
      omega
    · rcases List.mem_append.mp ha with ha | ha
      · exact h.asked a ha
      · rw [List.mem_singleton.mp ha]
        exact ⟨hsame ▸ hd, hresponded, hnear⟩
    · rw [List.map_append, List.map_singleton]
      refine List.Nodup.append h.askedOnce (List.nodup_singleton _) fun i hi hi' => ?_
      obtain ⟨a, ha, rfl⟩ := List.mem_map.mp hi
      exact h.askedGone a ha _ hcandidate (List.mem_singleton.mp hi').symm
    · rcases List.mem_append.mp ha with ha | ha
      · exact h.askedGone a ha e (hsub e he)
      · rw [List.mem_singleton.mp ha]
        exact hother e he
  | @pass e rest hfirst hdone =>
    have hcandidate : e ∈ w.search.possible := hfirst ▸ List.mem_cons_self ..
    have hsub : ∀ e' ∈ rest, e' ∈ w.search.possible := fun e' he' =>
      hfirst ▸ List.mem_cons_of_mem _ he'
    have hkey := h.key e hcandidate
    rw [hkey, h.untried_iff, h.responded, h.failed] at hdone
    refine { h with
      key := fun e' he' => h.key e' (hsub e' he')
      sorted := (List.pairwise_cons.mp (hfirst ▸ h.sorted)).2
      same := fun e' he' => h.same e' (hsub e' he')
      askedGone := fun a ha e' he' => h.askedGone a ha e' (hsub e' he')
      waits := fun d' hd' => h.consumed hfirst (fun hd => ?_) hd'
      learned := fun e' he' => h.learned e' (hsub e' he') }
    rcases hdone with ⟨-, hknown⟩ | ⟨huntried, -⟩
    · exact hknown
    · exact absurd (wasDispatched_iff.mpr ⟨e.2, hd, rfl⟩) (by rw [huntried]; decide)

theorem moves (h : Sound finds values w) (hmoves : Moves w w') : Sound finds values w' := by
  induction hmoves with
  | refl => exact h
  | tail _ hmove ih => exact ih.move hmove

end Sound

/-! ## Events are moves -/

theorem CSearch.add_cases (s : CSearch) (c : WireContact) :
    s.add c = (none, s) ∨ (1 < c.version ∧
      (∀ e ∈ s.possible, e.1 ≠ s.target.distance c.id) ∧
      (∀ e ∈ s.tried, e.1 ≠ s.target.distance c.id) ∧
      s.add c = (some (s.target.distance c.id),
        { s with possible := insert (s.target.distance c.id) c s.possible })) := by
  unfold CSearch.add
  split_ifs with hversion
  · exact .inl rfl
  · dsimp only
    split_ifs with hknown
    · exact .inl rfl
    · rw [Bool.or_eq_true, not_or, Bool.not_eq_true, Bool.not_eq_true, containsKey_eq_false,
        containsKey_eq_false] at hknown
      exact .inr ⟨UInt8.not_le.mp hversion, hknown.1, hknown.2, rfl⟩

theorem moves_add {w : Log} {c : WireContact} (hheard : 1 < c.version → c.id ∈ w.learned) :
    Moves w { w with search := (w.search.add c).2 } := by
  rcases w.search.add_cases c with heq | ⟨hversion, hnew, huntried, heq⟩
  · rw [heq]
  · rw [heq]
    exact .single (.learn (hheard hversion) hnew huntried)

theorem mem_named {contacts : List WireContact} {c : WireContact} (hc : c ∈ contacts)
    (hversion : 1 < c.version) : c.id ∈ Log.named contacts :=
  List.mem_map_of_mem (List.mem_filter.mpr ⟨hc, decide_eq_true hversion⟩)

/-- A search that knows nobody. -/
def Log.blank (target : Kad128) (findBudget valueBudget frontier : Nat) : Log :=
  ⟨⟨target, [], [], ∅, ∅, [], findBudget, valueBudget, frontier⟩, [], [], [], [], []⟩

theorem sound_blank (target : Kad128) (finds values frontier : Nat) :
    Sound finds values (.blank target finds values frontier) where
  key _ he := absurd he List.not_mem_nil
  sorted := List.Pairwise.nil
  tried _ := iff_of_false List.not_mem_nil fun h => absurd h.1 List.not_mem_nil
  same _ he := absurd he List.not_mem_nil
  nodup := List.nodup_nil
  responded _ := iff_of_false (Finset.notMem_empty _) List.not_mem_nil
  failed _ := iff_of_false (Finset.notMem_empty _) List.not_mem_nil
  finds := rfl
  values := rfl
  asked _ ha := absurd ha List.not_mem_nil
  askedOnce := List.nodup_nil
  askedGone _ ha := absurd ha List.not_mem_nil
  waits _ hd := absurd hd List.not_mem_nil
  learned _ he := absurd he List.not_mem_nil
  dispatchedLearned _ hd := absurd hd List.not_mem_nil

theorem moves_adds {w : Log} {contacts : List WireContact}
    (hheard : ∀ c ∈ contacts, 1 < c.version → c.id ∈ w.learned) :
    Moves w { w with search := contacts.foldl (fun s c => (s.add c).2) w.search } := by
  induction contacts generalizing w with
  | nil => exact .refl
  | cons c contacts ih =>
    obtain ⟨hfirst, hrest⟩ := List.forall_mem_cons.mp hheard
    have hone := moves_add hfirst
    have hall := ih (w := { w with search := (w.search.add c).2 }) hrest
    exact hone.trans hall

theorem moves_start (target : Kad128) (seeds : List WireContact) (finds values frontier : Nat) :
    Moves (.blank target finds values frontier) (.start target seeds finds values frontier) := by
  have hhear := Move.hear (.blank target finds values frontier) (Log.named seeds)
  exact .trans (.single hhear) (moves_adds fun c hc => mem_named hc)

theorem moves_refill {finds values : Nat} {w : Log} (h : Sound finds values w)
    {out : List WireContact}
    (hout : ∀ c ∈ out, (w.search.target.distance c.id, c) ∈ w.search.possible ∧
      ∀ e ∈ w.search.tried, e.1 ≠ w.search.target.distance c.id)
    (hnodup : (out.map WireContact.id).Nodup) (hbudget : out.length ≤ w.search.findBudget) :
    Moves w { w with
      search := out.foldl CSearch.dispatch w.search, dispatched := w.dispatched ++ out } := by
  induction out generalizing w with
  | nil =>
    rw [List.append_nil]
    exact .refl
  | cons c out ih =>
    obtain ⟨⟨hcandidate, huntried⟩, hrest⟩ := List.forall_mem_cons.mp hout
    rw [List.map_cons, List.nodup_cons] at hnodup
    rw [List.length_cons] at hbudget
    have hmove : Move w { w with
        search := w.search.dispatch c, dispatched := w.dispatched ++ [c] } :=
      .dispatch hcandidate huntried (by omega)
    have hall := ih (h.move hmove) (fun c' hc' => ?_) hnodup.2 ?_
    · rw [List.append_assoc] at hall
      exact .head hmove hall
    · obtain ⟨hcandidate', huntried'⟩ := hrest c' hc'
      refine ⟨hcandidate', fun e he => ?_⟩
      rcases (mem_insert huntried).mp he with rfl | he
      · intro hkey
        exact hnodup.1 (List.mem_map.mpr ⟨c', hc', (Kad128.distance_inj hkey).symm⟩)
      · exact huntried' e he
    · show out.length ≤ w.search.findBudget - 1
      omega

theorem moves_consider (w : Log) (fromDist : Kad128) (capacity : Nat) (out : List WireContact)
    {c : WireContact} (hheard : 1 < c.version → c.id ∈ w.learned) :
    ∃ more, (CSearch.consider fromDist capacity (out, w.search) c).1 = out ++ more ∧
      Moves w { w with
        search := (CSearch.consider fromDist capacity (out, w.search) c).2
        dispatched := w.dispatched ++ more } := by
  unfold CSearch.consider
  have hadd := moves_add hheard
  rcases w.search.add_cases c with heq | ⟨hversion, hnew, huntried, heq⟩
  · rw [heq] at hadd ⊢
    exact ⟨[], by simp, by simpa using hadd⟩
  · rw [heq] at hadd ⊢
    dsimp only at hadd ⊢
    split_ifs with hcloser hgate
    · rw [Bool.and_eq_true, decide_eq_true_eq] at hgate
      have hcandidate := (mem_insert (v := c) hnew).mpr (.inl rfl)
      exact ⟨[c], rfl, (hadd.tail (.rank _ _)).tail (.dispatch hcandidate huntried hgate.2)⟩
    · exact ⟨[], by simp, by simpa using hadd.tail (.rank _ _)⟩
    · exact ⟨[], by simp, by simpa using hadd⟩

theorem moves_considers {w : Log} (fromDist : Kad128) (capacity : Nat) (out : List WireContact)
    {contacts : List WireContact} (hheard : ∀ c ∈ contacts, 1 < c.version → c.id ∈ w.learned) :
    ∃ more, (contacts.foldl (CSearch.consider fromDist capacity) (out, w.search)).1 = out ++ more ∧
      Moves w { w with
        search := (contacts.foldl (CSearch.consider fromDist capacity) (out, w.search)).2
        dispatched := w.dispatched ++ more } := by
  induction contacts generalizing w out with
  | nil => exact ⟨[], by simp, by rw [List.append_nil]; exact .refl⟩
  | cons c contacts ih =>
    obtain ⟨hfirst, hrest⟩ := List.forall_mem_cons.mp hheard
    obtain ⟨one, hone, hmoves⟩ := moves_consider w fromDist capacity out hfirst
    rw [List.foldl_cons]
    generalize CSearch.consider fromDist capacity (out, w.search) c = r at hone hmoves ⊢
    obtain ⟨out', s'⟩ := r
    dsimp only at hone hmoves
    obtain ⟨more, hmore, hmoves'⟩ :=
      ih (w := { w with search := s', dispatched := w.dispatched ++ one }) out' hrest
    refine ⟨one ++ more, ?_, ?_⟩
    · rw [hmore, hone, List.append_assoc]
    · rw [List.append_assoc] at hmoves'
      exact hmoves.trans hmoves'

/-- What the walk answers does not depend on the candidates it starts from. -/
theorem CSearch.walk_congr (s : CSearch) (possible l : List (Kad128 × WireContact)) :
    ({ s with possible } : CSearch).walk l = s.walk l := by
  induction l generalizing s with
  | nil => rfl
  | cons e l ih =>
    simp only [walk]
    split_ifs
    · rw [← ih { s with valueBudget := s.valueBudget - 1 }]
    · exact ih s
    · exact ih s
    · rfl
    · exact ih s
    · rfl

/-- The closest candidate is consumed, and the walk goes on. -/
theorem moves_pass {w : Log} {e : Kad128 × WireContact} {rest : List (Kad128 × WireContact)}
    (hfirst : w.search.possible = e :: rest)
    (hdone : containsKey e.1 w.search.tried = true ∧
        (e.1 ∈ w.search.responded ∨ e.1 ∈ w.search.failed) ∨
      containsKey e.1 w.search.tried = false ∧ w.search.findBudget = 0)
    (hrest : Moves { w with search := { w.search with possible := rest } }
      { w with
        search := (({ w.search with possible := rest } : CSearch).walk rest).2
        asked := w.asked ++ (({ w.search with possible := rest } : CSearch).walk rest).1 }) :
    Moves w { w with
      search := (w.search.walk rest).2, asked := w.asked ++ (w.search.walk rest).1 } := by
  rw [CSearch.walk_congr] at hrest
  exact .head (.pass hfirst hdone) hrest

theorem moves_walk {w : Log} {l : List (Kad128 × WireContact)} (hl : w.search.possible = l) :
    Moves w { w with
      search := (w.search.walk l).2, asked := w.asked ++ (w.search.walk l).1 } := by
  induction l generalizing w with
  | nil =>
    rw [CSearch.walk, ← hl, List.append_nil]
  | cons e rest ih =>
    obtain ⟨dist, c⟩ := e
    have hstop : Moves w { w with
        search := { w.search with possible := (dist, c) :: rest }, asked := w.asked ++ [] } := by
      rw [← hl, List.append_nil]
    rw [CSearch.walk]
    split_ifs with htried hresponded hask hfailed hspent
    · rw [Bool.and_eq_true, decide_eq_true_eq] at hask
      have hrest := ih (w := { w with
        search := { w.search with possible := rest, valueBudget := w.search.valueBudget - 1 }
        asked := w.asked ++ [c] }) rfl
      have hwalk := CSearch.walk_congr
        { w.search with valueBudget := w.search.valueBudget - 1 } rest rest
      dsimp only at hrest hwalk
      rw [hwalk, List.append_assoc] at hrest
      exact .head (.ask hl htried hresponded hask.1 hask.2) hrest
    · exact moves_pass hl (.inl ⟨htried, .inl hresponded⟩) (ih rfl)
    · exact moves_pass hl (.inl ⟨htried, .inr hfailed⟩) (ih rfl)
    · exact hstop
    · exact moves_pass hl (.inr ⟨by simpa using htried, hspent⟩) (ih rfl)
    · exact hstop

/-- The candidates that `refill` may dispatch. -/
theorem Sound.refill_out {finds values : Nat} {w : Log} (h : Sound finds values w)
    (capacity : Nat) :
    (∀ c ∈ (w.search.refill capacity).1,
      (w.search.target.distance c.id, c) ∈ w.search.possible ∧
        ∀ e ∈ w.search.tried, e.1 ≠ w.search.target.distance c.id) ∧
      ((w.search.refill capacity).1.map WireContact.id).Nodup ∧
      (w.search.refill capacity).1.length ≤ w.search.findBudget := by
  have hsub : ((w.search.possible.take w.search.frontier).filter fun e =>
      !containsKey e.1 w.search.tried).Sublist w.search.possible :=
    List.filter_sublist.trans (List.take_sublist _ _)
  unfold CSearch.refill
  dsimp only
  refine ⟨fun c hc => ?_, ?_, (List.length_take_le _ _).trans (Nat.min_le_right _ _)⟩
  · obtain ⟨e, he, rfl⟩ := List.mem_map.mp (List.mem_of_mem_take hc)
    have hmem := hsub.subset he
    have huntried := (List.mem_filter.mp he).2
    rw [Bool.not_eq_true', containsKey_eq_false, h.key e hmem] at huntried
    exact ⟨h.key e hmem ▸ hmem, huntried⟩
  · have hall : (w.search.possible.map fun e => e.2.id).Nodup := by
      refine List.Nodup.map_on (fun e he e' he' hid => ?_) ?_
      · refine h.sorted.eq_of_key he he' ?_
        rw [h.key e he, h.key e' he', hid]
      · exact h.sorted.imp fun hlt heq => absurd (heq ▸ hlt) (lt_irrefl _)
    rw [List.map_take, List.map_map]
    exact (hall.sublist (hsub.map _)).sublist (List.take_sublist _ _)

theorem move_target {w w' : Log} (h : Move w w') :
    w'.search.target = w.search.target ∧ w'.search.frontier = w.search.frontier := by
  cases h <;> exact ⟨rfl, rfl⟩

theorem moves_target {w w' : Log} (h : Moves w w') :
    w'.search.target = w.search.target ∧ w'.search.frontier = w.search.frontier := by
  induction h with
  | refl => exact ⟨rfl, rfl⟩
  | tail _ hmove ih => exact ⟨(move_target hmove).1.trans ih.1, (move_target hmove).2.trans ih.2⟩

theorem CSearch.onResponse_unknown {s : CSearch} {sender : WireContact}
    (h : containsKey (s.target.distance sender.id) s.tried = false) (contacts : List WireContact)
    (capacity : Nat) : s.onResponse sender contacts capacity = ([], s) := by
  unfold CSearch.onResponse
  dsimp only
  rw [h]
  rfl

theorem CSearch.onResponse_known {s : CSearch} {sender : WireContact}
    (h : containsKey (s.target.distance sender.id) s.tried = true) (contacts : List WireContact)
    (capacity : Nat) : s.onResponse sender contacts capacity =
      ((contacts.foldl (consider (s.target.distance sender.id) capacity) ([], s)).1,
        { (contacts.foldl (consider (s.target.distance sender.id) capacity) ([], s)).2 with
          responded := Insert.insert (s.target.distance sender.id)
            (contacts.foldl (consider (s.target.distance sender.id) capacity) ([], s)).2.responded
        }) := by
  unfold CSearch.onResponse
  dsimp only
  rw [h]
  rfl

theorem moves_onResponse {w : Log} {sender : WireContact} (hsender : w.wasDispatched sender = true)
    (htried : containsKey (w.search.target.distance sender.id) w.search.tried = true)
    (contacts : List WireContact) (capacity : Nat) :
    Moves w { w with
      search := (w.search.onResponse sender contacts capacity).2
      dispatched := w.dispatched ++ (w.search.onResponse sender contacts capacity).1
      answered := w.answered ++ [sender.id]
      learned := w.learned ++ Log.named contacts } := by
  obtain ⟨more, hmore, hmoves⟩ := moves_considers
    (w := { w with learned := w.learned ++ Log.named contacts })
    (w.search.target.distance sender.id) capacity [] fun c hc hversion =>
      List.mem_append_right _ (mem_named hc hversion)
  have htarget := (moves_target hmoves).1
  rw [CSearch.onResponse_known htried]
  dsimp only at hmore hmoves htarget ⊢
  rw [hmore, List.nil_append]
  generalize (contacts.foldl (CSearch.consider (w.search.target.distance sender.id) capacity)
    ([], w.search)).2 = s at hmoves htarget ⊢
  have hall := Relation.ReflTransGen.head (.hear w (Log.named contacts)) hmoves
  have hanswer := Move.answer (c := sender)
    (w := { w with
      search := s, dispatched := w.dispatched ++ more
      learned := w.learned ++ Log.named contacts })
    (wasDispatched_iff.mpr (by
      obtain ⟨d, hd, hid⟩ := wasDispatched_iff.mp hsender
      exact ⟨d, List.mem_append_left _ hd, hid⟩))
  rw [htarget] at hanswer
  exact hall.tail hanswer

/-- Every event is a sequence of moves. -/
theorem Sound.moves_step {finds values : Nat} {w : Log} (h : Sound finds values w)
    (event : LookupEvent) : Moves w (w.step event) := by
  cases event with
  | refill capacity =>
    obtain ⟨hout, hnodup, hbudget⟩ := h.refill_out capacity
    exact moves_refill h hout hnodup hbudget
  | onResponse sender contacts capacity =>
    have htried := h.untried_iff (c := sender)
    unfold Log.step
    dsimp only
    cases hsender : w.wasDispatched sender with
    | false =>
      rw [CSearch.onResponse_unknown (htried.trans hsender), List.append_nil, if_neg (by decide)]
    | true =>
      rw [if_pos rfl]
      exact moves_onResponse hsender (htried.trans hsender) contacts capacity
  | onTimeout sender =>
    have htried := h.untried_iff (c := sender)
    unfold Log.step CSearch.onTimeout
    dsimp only
    rw [htried]
    cases hsender : w.wasDispatched sender with
    | false => exact .refl
    | true => exact .single (.fail hsender)
  | harvest => exact moves_walk rfl

theorem Sound.run {finds values : Nat} {w : Log} (h : Sound finds values w)
    (events : List LookupEvent) : Sound finds values (w.run events) := by
  induction events generalizing w with
  | nil => exact h
  | cons event events ih => exact ih (h.moves (h.moves_step event))

theorem Sound.run_constants {finds values : Nat} {w : Log} (h : Sound finds values w)
    (events : List LookupEvent) : (w.run events).search.target = w.search.target ∧
      (w.run events).search.frontier = w.search.frontier := by
  induction events generalizing w with
  | nil => exact ⟨rfl, rfl⟩
  | cons event events ih =>
    have hmoves := h.moves_step event
    obtain ⟨htarget, hfrontier⟩ := ih (h.moves hmoves)
    have hone := moves_target hmoves
    exact ⟨htarget.trans hone.1, hfrontier.trans hone.2⟩

theorem sound_start (target : Kad128) (seeds : List WireContact) (finds values frontier : Nat) :
    Sound finds values (.start target seeds finds values frontier) :=
  (sound_blank target finds values frontier).moves (moves_start target seeds finds values frontier)

theorem start_constants (target : Kad128) (seeds : List WireContact)
    (finds values frontier : Nat) :
    (Log.start target seeds finds values frontier).search.target = target ∧
      (Log.start target seeds finds values frontier).search.frontier = frontier :=
  moves_target (moves_start target seeds finds values frontier)

/-! ## The walk -/

namespace CSearch

/-- The outcome of a candidate is known, or it is out of reach. -/
def Done (s : CSearch) (dist : Kad128) : Prop :=
  containsKey dist s.tried = true ∧ (dist ∈ s.responded ∨ dist ∈ s.failed) ∨
    containsKey dist s.tried = false ∧ s.findBudget = 0

/-- Whoever the walk asks, all candidates before it are done. -/
theorem walk_asks {s : CSearch} {l : List (Kad128 × WireContact)} {c : WireContact}
    (hc : c ∈ (s.walk l).1) : ∃ pre dist rest, l = pre ++ (dist, c) :: rest ∧
      ∀ e ∈ pre, s.Done e.1 := by
  induction l generalizing s with
  | nil => exact absurd hc List.not_mem_nil
  | cons e l ih =>
    obtain ⟨dist, first⟩ := e
    have hskip {s' : CSearch} (hdone : s.Done dist) (hsame : ∀ d, s'.Done d → s.Done d)
        (hc : c ∈ (s'.walk l).1) : ∃ pre dist' rest, (dist, first) :: l =
          pre ++ (dist', c) :: rest ∧ ∀ e ∈ pre, s.Done e.1 := by
      obtain ⟨pre, dist', rest, rfl, hpre⟩ := ih hc
      exact ⟨(dist, first) :: pre, dist', rest, rfl,
        List.forall_mem_cons.mpr ⟨hdone, fun e he => hsame _ (hpre e he)⟩⟩
    rw [walk] at hc
    split_ifs at hc with htried hresponded hask hfailed hspent
    · rcases List.mem_cons.mp hc with rfl | hc
      · exact ⟨[], dist, l, rfl, fun e he => absurd he List.not_mem_nil⟩
      · refine hskip (.inl ⟨htried, .inl hresponded⟩) ?_ hc
        exact fun _ hd => hd
    · exact hskip (.inl ⟨htried, .inl hresponded⟩) (fun _ hd => hd) hc
    · exact hskip (.inl ⟨htried, .inr hfailed⟩) (fun _ hd => hd) hc
    · exact absurd hc List.not_mem_nil
    · exact hskip (.inr ⟨by simpa using htried, hspent⟩) (fun _ hd => hd) hc
    · exact absurd hc List.not_mem_nil

/-- The walk ends at a candidate that is not done, and leaves all but the value budget. -/
theorem walk_stops (s : CSearch) (l : List (Kad128 × WireContact)) :
    (s.walk l).2.tried = s.tried ∧ (s.walk l).2.findBudget = s.findBudget ∧
      (s.walk l).2.frontier = s.frontier ∧
      ((s.walk l).2.possible = [] ∨ ∃ e rest, (s.walk l).2.possible = e :: rest ∧ e ∈ l ∧
        ¬s.Done e.1) := by
  induction l generalizing s with
  | nil => exact ⟨rfl, rfl, rfl, .inl rfl⟩
  | cons e l ih =>
    obtain ⟨dist, c⟩ := e
    have hskip {s' : CSearch} (htried : s'.tried = s.tried)
        (hbudget : s'.findBudget = s.findBudget) (hfrontier : s'.frontier = s.frontier)
        (hsame : ∀ d, s.Done d → s'.Done d) :
        (s'.walk l).2.tried = s.tried ∧ (s'.walk l).2.findBudget = s.findBudget ∧
          (s'.walk l).2.frontier = s.frontier ∧
          ((s'.walk l).2.possible = [] ∨ ∃ e rest, (s'.walk l).2.possible = e :: rest ∧
            e ∈ (dist, c) :: l ∧ ¬s.Done e.1) := by
      obtain ⟨htried', hbudget', hfrontier', hends⟩ := ih s'
      refine ⟨htried'.trans htried, hbudget'.trans hbudget, hfrontier'.trans hfrontier,
        hends.imp_right ?_⟩
      rintro ⟨e, rest, heq, he, hopen⟩
      exact ⟨e, rest, heq, List.mem_cons_of_mem _ he, fun hdone => hopen (hsame _ hdone)⟩
    rw [walk]
    split_ifs with htried hresponded hask hfailed hspent
    · exact hskip rfl rfl rfl fun _ hd => hd
    · exact hskip rfl rfl rfl fun _ hd => hd
    · exact hskip rfl rfl rfl fun _ hd => hd
    · refine ⟨rfl, rfl, rfl, .inr ⟨(dist, c), l, rfl, List.mem_cons_self .., ?_⟩⟩
      rintro (⟨-, hdone⟩ | ⟨huntried, -⟩)
      · exact hdone.elim hresponded hfailed
      · exact absurd (htried.symm.trans huntried) (by decide)
    · exact hskip rfl rfl rfl fun _ hd => hd
    · refine ⟨rfl, rfl, rfl, .inr ⟨(dist, c), l, rfl, List.mem_cons_self .., ?_⟩⟩
      rintro (⟨hdone, -⟩ | ⟨-, hbudget⟩)
      · exact htried hdone
      · exact hspent hbudget

end CSearch

/-! ## Who enters a search -/

namespace CSearch

/-- Neither a candidate nor tried. -/
def unseen (s : CSearch) (id : Kad128) : Bool :=
  !(containsKey (s.target.distance id) s.possible || containsKey (s.target.distance id) s.tried)

/-- The contacts of an answer that may enter. -/
def entering (s : CSearch) (sender : WireContact) (contacts : List WireContact) :
    List WireContact :=
  if containsKey (s.target.distance sender.id) s.tried then contacts.filter fun c => s.unseen c.id
  else []

theorem ne_of_mem_entering {s : CSearch} {sender c : WireContact} {contacts : List WireContact}
    (h : c ∈ s.entering sender contacts) : c ∈ contacts ∧ c.id ≠ sender.id := by
  unfold entering at h
  split_ifs at h with htried
  · obtain ⟨hc, hunseen⟩ := List.mem_filter.mp h
    refine ⟨hc, fun hid => ?_⟩
    unfold unseen at hunseen
    rw [hid, htried, Bool.or_true] at hunseen
    exact absurd hunseen (by decide)
  · exact absurd h List.not_mem_nil

theorem entering_sublist (s : CSearch) (sender : WireContact) (contacts : List WireContact) :
    (s.entering sender contacts).Sublist contacts := by
  unfold entering
  split_ifs
  · exact List.filter_sublist
  · exact List.nil_sublist _

/-- All candidates are of a kind. -/
def Only (P : WireContact → Prop) (s : CSearch) : Prop := ∀ e ∈ s.possible, P e.2

variable {P : WireContact → Prop} {s : CSearch}

theorem Only.add (h : s.Only P) {c : WireContact} (hc : s.unseen c.id = true → P c) :
    (s.add c).2.Only P ∧ ∀ id, (s.add c).2.unseen id = true → s.unseen id = true := by
  rcases s.add_cases c with heq | ⟨-, hnew, huntried, heq⟩
  · rw [heq]
    exact ⟨h, fun _ hid => hid⟩
  · rw [heq]
    refine ⟨fun e he => ?_, fun id hid => ?_⟩
    · rcases mem_of_mem_insert he with rfl | he
      · refine hc ?_
        unfold unseen
        rw [containsKey_eq_false.mpr hnew, containsKey_eq_false.mpr huntried]
        rfl
      · exact h e he
    · unfold unseen at hid ⊢
      dsimp only at hid
      rw [containsKey_insert, Bool.or_assoc, Bool.not_or, Bool.and_eq_true] at hid
      exact hid.2

theorem only_new {target : Kad128} {seeds : List WireContact} (h : ∀ c ∈ seeds, P c)
    (findBudget valueBudget frontier : Nat) :
    (new target seeds findBudget valueBudget frontier).Only P := by
  have hfold (s : CSearch) (hs : s.Only P) : (seeds.foldl (fun s c => (s.add c).2) s).Only P := by
    induction seeds generalizing s with
    | nil => exact hs
    | cons c seeds ih =>
      obtain ⟨hc, hseeds⟩ := List.forall_mem_cons.mp h
      exact ih hseeds (s.add c).2 (hs.add fun _ => hc).1
  exact hfold _ fun e he => absurd he List.not_mem_nil

theorem unseen_dispatch {c : WireContact} {id : Kad128} (h : (s.dispatch c).unseen id = true) :
    s.unseen id = true := by
  unfold dispatch unseen at h
  unfold unseen
  dsimp only at h
  rw [containsKey_insert, Bool.or_left_comm, Bool.not_or, Bool.and_eq_true] at h
  exact h.2

/-- Whoever is picked out of an answer is of the kind, and so is every candidate after it. -/
structure Picked (P : WireContact → Prop) (s : CSearch) (r : List WireContact × CSearch) :
    Prop where
  out : ∀ c ∈ r.1, P c
  only : r.2.Only P
  unseen : ∀ id, r.2.unseen id = true → s.unseen id = true

theorem Picked.consider {r : List WireContact × CSearch} (h : Picked P s r) {c : WireContact}
    (hc : s.unseen c.id = true → P c) (fromDist : Kad128) (capacity : Nat) :
    Picked P s (consider fromDist capacity r c) := by
  obtain ⟨honly, hunseen⟩ := h.only.add fun hid => hc (h.unseen _ hid)
  unfold CSearch.consider
  rcases r.2.add_cases c with heq | ⟨-, hnew, huntried, heq⟩
  · rw [heq]
    exact ⟨h.out, h.only, h.unseen⟩
  · have hentered : P c := by
      refine hc (h.unseen _ ?_)
      unfold CSearch.unseen
      rw [containsKey_eq_false.mpr hnew, containsKey_eq_false.mpr huntried]
      rfl
    rw [heq] at honly hunseen ⊢
    dsimp only
    split_ifs with hcloser hgate
    · refine ⟨fun d hd => ?_, honly, fun id hid => ?_⟩
      · rcases List.mem_append.mp hd with hd | hd
        · exact h.out d hd
        · exact List.mem_singleton.mp hd ▸ hentered
      · exact h.unseen _ (hunseen _ (unseen_dispatch hid))
    · exact ⟨h.out, honly, fun id hid => h.unseen _ (hunseen _ hid)⟩
    · exact ⟨h.out, honly, fun id hid => h.unseen _ (hunseen _ hid)⟩

theorem Only.onResponse (h : s.Only P) {sender : WireContact} {contacts : List WireContact}
    (hnew : ∀ c ∈ s.entering sender contacts, P c) (capacity : Nat) :
    (∀ c ∈ (s.onResponse sender contacts capacity).1, P c) ∧
      (s.onResponse sender contacts capacity).2.Only P := by
  cases htried : containsKey (s.target.distance sender.id) s.tried with
  | false =>
    rw [onResponse_unknown htried]
    exact ⟨fun c hc => absurd hc List.not_mem_nil, h⟩
  | true =>
    have hcontacts : ∀ c ∈ contacts, s.unseen c.id = true → P c := by
      intro c hc hunseen
      refine hnew c ?_
      unfold entering
      rw [if_pos htried]
      exact List.mem_filter.mpr ⟨hc, hunseen⟩
    have hfold (r : List WireContact × CSearch) (hr : Picked P s r) :
        Picked P s (contacts.foldl (consider (s.target.distance sender.id) capacity) r) := by
      clear hnew
      induction contacts generalizing r with
      | nil => exact hr
      | cons c contacts ih =>
        obtain ⟨hc, hrest⟩ := List.forall_mem_cons.mp hcontacts
        exact ih hrest _ (hr.consider hc _ _)
    have hpicked := hfold ([], s) ⟨fun c hc => absurd hc List.not_mem_nil, h, fun _ hid => hid⟩
    rw [onResponse_known htried]
    exact ⟨hpicked.out, hpicked.only⟩

theorem Only.refill (h : s.Only P) (capacity : Nat) :
    (∀ c ∈ (s.refill capacity).1, P c) ∧ (s.refill capacity).2.Only P := by
  have hkept (s : CSearch) (out : List WireContact) :
      (out.foldl dispatch s).possible = s.possible := by
    induction out generalizing s with
    | nil => rfl
    | cons c out ih => exact ih (s.dispatch c)
  unfold CSearch.refill
  refine ⟨fun c hc => ?_, fun e he => ?_⟩
  · obtain ⟨e, he, rfl⟩ := List.mem_map.mp (List.mem_of_mem_take hc)
    exact h e (List.mem_of_mem_take (List.mem_filter.mp he).1)
  · dsimp only at he
    rw [hkept] at he
    exact h e he

theorem Only.onTimeout (h : s.Only P) (sender : WireContact) : (s.onTimeout sender).Only P := by
  unfold CSearch.onTimeout
  dsimp only
  split_ifs
  · exact h
  · exact h

theorem only_walk (s : CSearch) {l : List (Kad128 × WireContact)} (h : ∀ e ∈ l, P e.2) :
    (∀ c ∈ (s.walk l).1, P c) ∧ (s.walk l).2.Only P := by
  induction l generalizing s with
  | nil => exact ⟨fun c hc => absurd hc List.not_mem_nil, fun e he => absurd he List.not_mem_nil⟩
  | cons e l ih =>
    obtain ⟨dist, c⟩ := e
    obtain ⟨hc, hl⟩ := List.forall_mem_cons.mp h
    rw [walk]
    split_ifs
    · obtain ⟨hasked, honly⟩ := ih { s with valueBudget := s.valueBudget - 1 } hl
      exact ⟨List.forall_mem_cons.mpr ⟨hc, hasked⟩, honly⟩
    · exact ih s hl
    · exact ih s hl
    · exact ⟨fun d hd => absurd hd List.not_mem_nil, h⟩
    · exact ih s hl
    · exact ⟨fun d hd => absurd hd List.not_mem_nil, h⟩

end CSearch

/-! ## Safety -/

/-- Who is asked next: everybody the search knows that is closer is done. -/
theorem Sound.closer_done {finds values : Nat} {w : Log} (h : Sound finds values w)
    {c : WireContact} (hc : c ∈ w.search.harvest.1) {o : WireContact}
    (ho : o ∈ w.dispatched ∨ ∃ e ∈ w.search.possible, e.2 = o)
    (hcloser : w.search.target.distance o.id < w.search.target.distance c.id) :
    (o ∈ w.dispatched ∧ (o.id ∈ w.answered ∨ o.id ∈ w.failed)) ∨
      (o ∉ w.dispatched ∧ w.dispatched.length = finds) := by
  obtain ⟨pre, dist, rest, hpossible, hpre⟩ := CSearch.walk_asks hc
  have hsorted := h.sorted
  rw [hpossible] at hsorted
  have hkey : dist = w.search.target.distance c.id :=
    h.key (dist, c) (by rw [hpossible]; simp)
  have hbefore : ∀ e ∈ w.search.possible, e.1 < dist → e ∈ pre := by
    intro e he hlt
    rw [hpossible] at he
    rcases List.mem_append.mp he with hin | hin
    · exact hin
    · obtain ⟨hrest, -⟩ := List.pairwise_cons.mp (List.pairwise_append.mp hsorted).2.1
      rcases List.mem_cons.mp hin with rfl | hin
      · exact absurd hlt (lt_irrefl _)
      · exact absurd hlt (hrest e hin).not_gt
  by_cases hcandidate : ∃ e ∈ w.search.possible, e.2 = o
  · obtain ⟨e, he, rfl⟩ := hcandidate
    have hekey := h.key e he
    have hdone := hpre e (hbefore e he (by rw [hekey, hkey]; exact hcloser))
    unfold CSearch.Done at hdone
    rw [hekey, h.untried_iff, h.responded, h.failed] at hdone
    rcases hdone with ⟨hdispatched, houtcome⟩ | ⟨huntried, hspent⟩
    · obtain ⟨d, hd, hid⟩ := wasDispatched_iff.mp hdispatched
      exact .inl ⟨h.same e he d hd hid ▸ hd, houtcome⟩
    · refine .inr ⟨fun hd => ?_, by have := h.finds; omega⟩
      rw [wasDispatched_iff.mpr ⟨e.2, hd, rfl⟩] at huntried
      cases huntried
  · have hd : o ∈ w.dispatched := ho.resolve_right hcandidate
    exact .inl ⟨hd, h.waits o hd fun e he heq => hcandidate ⟨e, he, heq⟩⟩

/-- Over any events: nobody is sent two FINDs or two value asks, neither budget is overdrawn, who is
    asked for values was sent a FIND, answered it and is in tolerance; and when somebody is asked,
    everybody the search knows that is closer was sent a FIND that was answered or failed, or can
    no longer be sent one. -/
theorem lookup_safe (target : Kad128) (seeds : List WireContact) (finds values frontier : Nat)
    (events : List LookupEvent) :
    let w := (Log.start target seeds finds values frontier).run events
    (w.dispatched.map WireContact.id).Nodup ∧ w.dispatched.length ≤ finds ∧
      (w.asked.map WireContact.id).Nodup ∧ w.asked.length ≤ values ∧
      (∀ c ∈ w.asked, c ∈ w.dispatched ∧ c.id ∈ w.answered ∧
        (target.distance c.id).withinTolerance = true) ∧
      ∀ c ∈ w.search.harvest.1, ∀ o,
        (o ∈ w.dispatched ∨ ∃ e ∈ w.search.possible, e.2 = o) →
        target.distance o.id < target.distance c.id →
        (o ∈ w.dispatched ∧ (o.id ∈ w.answered ∨ o.id ∈ w.failed)) ∨
          (o ∉ w.dispatched ∧ w.dispatched.length = finds) := by
  intro w
  have hstart := sound_start target seeds finds values frontier
  have hsound : Sound finds values w := hstart.run events
  have htarget : w.search.target = target :=
    (hstart.run_constants events).1.trans (start_constants target seeds finds values frontier).1
  refine ⟨hsound.nodup, by have := hsound.finds; omega, hsound.askedOnce,
    by have := hsound.values; omega, fun c hc => ?_, fun c hc o ho hcloser => ?_⟩
  · rw [← htarget]
    exact hsound.asked c hc
  · rw [← htarget] at hcloser
    exact hsound.closer_done hc ho hcloser

end PadMule.Kad
