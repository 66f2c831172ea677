import PadMule.Kad.Lookup

/-
  `mule-kad/src/lookup.rs`: a lookup comes to its end.

  With nothing in flight a harvest consumes every candidate that was tried, and those that the
  spent budget cannot reach; the first it leaves is one that a refill sends a FIND. A driver that
  waits for an outcome in every round has one dispatch less in every round, and there are no more
  of them than contacts the search was told of.
-/

namespace PadMule.Kad

open PadMule.Proto SortedMap

variable {finds values : Nat} {w w' : Log}

/-! ## Nobody is stranded -/

theorem mem_inFlight {c : WireContact} :
    c ∈ w.inFlight ↔ c ∈ w.dispatched ∧ c.id ∉ w.answered ∧ c.id ∉ w.failed := by
  unfold Log.inFlight
  rw [List.mem_filter, decide_eq_true_eq]

/-- With nothing in flight, a candidate that is not done was never tried and can still be. -/
theorem Sound.open_candidate (h : Sound finds values w) (hidle : w.inFlight = [])
    {e : Kad128 × WireContact} (he : e ∈ w.search.possible) (hopen : ¬w.search.Done e.1) :
    containsKey e.1 w.search.tried = false ∧ w.search.findBudget ≠ 0 := by
  have hkey := h.key e he
  unfold CSearch.Done at hopen
  cases htried : containsKey e.1 w.search.tried with
  | false => exact ⟨rfl, fun hspent => hopen (.inr ⟨htried, hspent⟩)⟩
  | true =>
    refine absurd (.inl ⟨htried, ?_⟩) hopen
    rw [hkey, h.untried_iff, wasDispatched_iff] at htried
    obtain ⟨d, hd, hid⟩ := htried
    rw [hkey, h.responded, h.failed, ← hid]
    by_contra hneither
    rw [not_or] at hneither
    exact absurd (mem_inFlight.mpr ⟨hd, hneither⟩) (by rw [hidle]; exact List.not_mem_nil)

/-- A refill sends a FIND to an untried candidate at the front. -/
theorem refill_ne_nil {s : CSearch} {e : Kad128 × WireContact} {rest : List (Kad128 × WireContact)}
    (hfirst : s.possible = e :: rest) (hfrontier : 1 ≤ s.frontier)
    (huntried : containsKey e.1 s.tried = false) (hbudget : s.findBudget ≠ 0) {capacity : Nat}
    (hcapacity : 0 < capacity) : (s.refill capacity).1 ≠ [] := by
  obtain ⟨frontier, hsucc⟩ := Nat.exists_eq_add_of_le' hfrontier
  unfold CSearch.refill
  dsimp only
  rw [hfirst, hsucc, List.take_succ_cons, List.filter_cons_of_pos (by rw [huntried]; rfl),
    List.map_cons]
  intro hnil
  have hlen := congrArg List.length hnil
  rw [List.length_take, List.length_cons, List.length_nil] at hlen
  omega

theorem Sound.not_stranded (h : Sound finds values w) (hfrontier : 1 ≤ w.search.frontier)
    (hidle : w.inFlight = []) {capacity : Nat} (hcapacity : 0 < capacity) :
    (w.step .harvest).search.possible = [] ∨
      ((w.step .harvest).search.refill capacity).1 ≠ [] := by
  obtain ⟨htried, hbudget, hsame, hends⟩ := w.search.walk_stops w.search.possible
  rcases hends with hnil | ⟨e, rest, hfirst, he, hopen⟩
  · exact .inl hnil
  · obtain ⟨huntried, hleft⟩ := h.open_candidate hidle he hopen
    refine .inr (refill_ne_nil hfirst ?_ ?_ ?_ hcapacity)
    · exact hsame.symm ▸ hfrontier
    · exact htried.symm ▸ huntried
    · exact hbudget.symm ▸ hleft

/-- There are no more dispatches than contacts named to the search. -/
theorem Sound.dispatched_le (h : Sound finds values w) :
    w.dispatched.length ≤ w.learned.dedup.length := by
  have hids : (w.dispatched.map WireContact.id).length = w.dispatched.length := List.length_map _
  rw [← hids]
  refine (List.Nodup.subperm h.nodup fun i hi => ?_).length_le
  obtain ⟨c, hc, rfl⟩ := List.mem_map.mp hi
  exact List.mem_dedup.mpr (h.dispatchedLearned c hc)

/-! ## Nothing left -/

namespace CSearch

/-- The walk would ask the candidate for values. -/
def Askable (s : CSearch) (dist : Kad128) : Prop :=
  containsKey dist s.tried = true ∧ dist ∈ s.responded ∧ dist.withinTolerance = true ∧
    0 < s.valueBudget

/-- A walk and the refill behind it hand out nothing. -/
def Exhausted (s : CSearch) : Prop :=
  s.harvest.1 = [] ∧ (s.harvest.2.refill ALPHA_QUERY).1 = []

/-- The walk consumes all candidates without a value ask when each is done and cannot be asked. -/
theorem walk_clears_iff (s : CSearch) (l : List (Kad128 × WireContact)) :
    (s.walk l).1 = [] ∧ (s.walk l).2.possible = [] ↔
      ∀ e ∈ l, s.Done e.1 ∧ ¬s.Askable e.1 := by
  induction l with
  | nil => exact iff_of_true ⟨rfl, rfl⟩ fun e he => absurd he List.not_mem_nil
  | cons e l ih =>
    obtain ⟨dist, c⟩ := e
    rw [walk, List.forall_mem_cons]
    have hskip (hdone : s.Done dist) (hask : ¬s.Askable dist) :
        (s.walk l).1 = [] ∧ (s.walk l).2.possible = [] ↔
          (s.Done dist ∧ ¬s.Askable dist) ∧ ∀ e ∈ l, s.Done e.1 ∧ ¬s.Askable e.1 :=
      ih.trans (and_iff_right ⟨hdone, hask⟩).symm
    split_ifs with htried hresponded hask hfailed hspent
    · rw [Bool.and_eq_true, decide_eq_true_eq] at hask
      refine iff_of_false (fun h => h.1.elim) fun h => h.1.2 ?_
      exact ⟨htried, hresponded, hask.1, hask.2⟩
    · rw [Bool.and_eq_true, decide_eq_true_eq] at hask
      exact hskip (.inl ⟨htried, .inl hresponded⟩) fun h => hask h.2.2
    · exact hskip (.inl ⟨htried, .inr hfailed⟩) fun h => hresponded h.2.1
    · refine iff_of_false (fun h => h.2.elim) fun h => ?_
      rcases h.1.1 with ⟨-, hknown⟩ | ⟨huntried, -⟩
      · exact hknown.elim hresponded hfailed
      · exact absurd (htried.symm.trans huntried) (by decide)
    · exact hskip (.inr ⟨by simpa using htried, hspent⟩) fun h => htried h.1
    · refine iff_of_false (fun h => h.2.elim) fun h => ?_
      rcases h.1.1 with ⟨hdone, -⟩ | ⟨-, hbudget⟩
      · exact htried hdone
      · exact hspent hbudget

theorem refill_of_nil {s : CSearch} (h : s.possible = []) (capacity : Nat) :
    (s.refill capacity).1 = [] := by
  unfold refill
  dsimp only
  rw [h, List.take_nil, List.filter_nil, List.map_nil, List.take_nil]

end CSearch

theorem Sound.exhausted_iff (h : Sound finds values w) (hfrontier : 1 ≤ w.search.frontier)
    (hidle : w.inFlight = []) : w.search.Exhausted ↔
      ∀ e ∈ w.search.possible, w.search.Done e.1 ∧ ¬w.search.Askable e.1 := by
  rw [← CSearch.walk_clears_iff]
  refine and_congr_right fun _ => ?_
  rcases h.not_stranded hfrontier hidle (show 0 < ALPHA_QUERY by decide) with hnil | hsends
  · exact iff_of_true (CSearch.refill_of_nil hnil _) hnil
  · exact iff_of_false hsends fun hnil => hsends (CSearch.refill_of_nil hnil _)

/-! ## A driver -/

/-- The pass of a driver after every outcome. -/
def Log.progress (w : Log) (capacity : Nat) : Log := (w.step .harvest).step (.refill capacity)

/-- A driver after `n` outcomes: it waits for something in flight to answer or to fail, and makes
    its pass; with nothing in flight it has room for a FIND. -/
inductive Drives (start : Log) : Nat → Log → Prop where
  | begins {capacity : Nat} (hroom : start.inFlight = [] → 0 < capacity) :
      Drives start 0 (start.progress capacity)
  | answered {n : Nat} {w : Log} (h : Drives start n w) {c : WireContact} (hc : c ∈ w.inFlight)
      (contacts : List WireContact) (room : Nat) {capacity : Nat}
      (hroom : (w.step (.onResponse c contacts room)).inFlight = [] → 0 < capacity) :
      Drives start (n + 1) ((w.step (.onResponse c contacts room)).progress capacity)
  | failed {n : Nat} {w : Log} (h : Drives start n w) {c : WireContact} (hc : c ∈ w.inFlight)
      {capacity : Nat} (hroom : (w.step (.onTimeout c)).inFlight = [] → 0 < capacity) :
      Drives start (n + 1) ((w.step (.onTimeout c)).progress capacity)

theorem Sound.step (h : Sound finds values w) (event : LookupEvent) :
    Sound finds values (w.step event) := h.moves (h.moves_step event)

theorem Sound.progress (h : Sound finds values w) (capacity : Nat) :
    Sound finds values (w.progress capacity) := (h.step .harvest).step (.refill capacity)

/-- An outcome is one of a dispatched contact. -/
def OutcomesKnown (w : Log) : Prop :=
  ∀ i, i ∈ w.answered ∨ i ∈ w.failed → ∃ d ∈ w.dispatched, d.id = i

theorem OutcomesKnown.step (h : OutcomesKnown w) (event : LookupEvent) :
    OutcomesKnown (w.step event) := by
  have hmore {more : List WireContact} {i : Kad128} (hi : ∃ d ∈ w.dispatched, d.id = i) :
      ∃ d ∈ w.dispatched ++ more, d.id = i := by
    obtain ⟨d, hd, hid⟩ := hi
    exact ⟨d, List.mem_append_left _ hd, hid⟩
  cases event with
  | refill capacity => exact fun i hi => hmore (h i hi)
  | onResponse sender contacts capacity =>
    unfold Log.step
    dsimp only
    split_ifs with hsender
    · rintro i (hi | hi)
      · rcases List.mem_append.mp hi with hi | hi
        · exact hmore (h i (.inl hi))
        · exact hmore (List.mem_singleton.mp hi ▸ wasDispatched_iff.mp hsender)
      · exact hmore (h i (.inr hi))
    · exact fun i hi => hmore (h i hi)
  | onTimeout sender =>
    unfold Log.step
    dsimp only
    split_ifs with hsender
    · rintro i (hi | hi)
      · exact h i (.inl hi)
      · rcases List.mem_append.mp hi with hi | hi
        · exact h i (.inr hi)
        · exact List.mem_singleton.mp hi ▸ wasDispatched_iff.mp hsender
    · exact h
  | harvest => exact h

/-- A pass that leaves nothing in flight leaves no candidate. -/
theorem Sound.progress_done (h : Sound finds values w) (hknown : OutcomesKnown w)
    (hfrontier : 1 ≤ w.search.frontier) {capacity : Nat}
    (hroom : w.inFlight = [] → 0 < capacity) (hidle : (w.progress capacity).inFlight = []) :
    (w.progress capacity).search.possible = [] := by
  have hbefore : w.inFlight = [] := by
    refine List.eq_nil_iff_forall_not_mem.mpr fun c hc => ?_
    obtain ⟨hd, hopen⟩ := mem_inFlight.mp hc
    have hstill : c ∈ (w.progress capacity).inFlight :=
      mem_inFlight.mpr ⟨List.mem_append_left _ hd, hopen⟩
    rw [hidle] at hstill
    exact absurd hstill List.not_mem_nil
  have hnone : ((w.step .harvest).search.refill capacity).1 = [] := by
    refine List.eq_nil_iff_forall_not_mem.mpr fun c hc => ?_
    have hfresh := (h.step .harvest).fresh (((h.step .harvest).refill_out capacity).1 c hc).2
    have hopen (hknown : ∃ d ∈ w.dispatched, d.id = c.id) : False := by
      obtain ⟨d, hd, hid⟩ := hknown
      exact hfresh d hd hid
    have hflying : c ∈ (w.progress capacity).inFlight :=
      mem_inFlight.mpr ⟨List.mem_append_right _ hc, fun ha => hopen (hknown c.id (.inl ha)),
        fun hf => hopen (hknown c.id (.inr hf))⟩
    rw [hidle] at hflying
    exact absurd hflying List.not_mem_nil
  rcases h.not_stranded hfrontier hbefore (hroom hbefore) with hnil | hsends
  · show (List.foldl CSearch.dispatch (w.step .harvest).search
      ((w.step .harvest).search.refill capacity).1).possible = []
    rw [hnone]
    exact hnil
  · exact absurd hnone hsends

/-! ## The rounds of a driver -/

/-- How many dispatches have had their outcome. -/
def settled (w : Log) : Nat := w.dispatched.countP fun c => c.id ∈ w.answered ∨ c.id ∈ w.failed

theorem settled_le (w : Log) : settled w ≤ w.dispatched.length := List.countP_le_length

/-- What is settled stays settled. -/
theorem settled_mono {more : List WireContact} (hdispatched : w'.dispatched = w.dispatched ++ more)
    (hanswered : ∀ i ∈ w.answered, i ∈ w'.answered) (hfailed : ∀ i ∈ w.failed, i ∈ w'.failed) :
    settled w ≤ settled w' := by
  unfold settled
  rw [hdispatched, List.countP_append]
  refine le_trans (List.countP_mono_left fun c _ hc => ?_) (Nat.le_add_right _ _)
  rw [decide_eq_true_eq] at hc ⊢
  exact hc.imp (hanswered _) (hfailed _)

/-- One more is settled when something in flight has its outcome. -/
theorem settled_lt {more : List WireContact} {c : WireContact} (hc : c ∈ w.inFlight)
    (hdispatched : w'.dispatched = w.dispatched ++ more)
    (hanswered : ∀ i ∈ w.answered, i ∈ w'.answered) (hfailed : ∀ i ∈ w.failed, i ∈ w'.failed)
    (houtcome : c.id ∈ w'.answered ∨ c.id ∈ w'.failed) : settled w < settled w' := by
  obtain ⟨hd, hopen⟩ := mem_inFlight.mp hc
  obtain ⟨pre, post, hsplit⟩ := List.append_of_mem hd
  have hmono (l : List WireContact) : (l.countP fun c => c.id ∈ w.answered ∨ c.id ∈ w.failed) ≤
      l.countP fun c => c.id ∈ w'.answered ∨ c.id ∈ w'.failed := by
    refine List.countP_mono_left fun o _ ho => ?_
    rw [decide_eq_true_eq] at ho ⊢
    exact ho.imp (hanswered _) (hfailed _)
  have hpre := hmono pre
  have hpost := hmono post
  unfold settled
  rw [hdispatched, hsplit, List.countP_append, List.countP_append, List.countP_append,
    List.countP_cons_of_neg (by rw [decide_eq_true_eq, not_or]; exact hopen),
    List.countP_cons_of_pos (by exact decide_eq_true houtcome)]
  omega

theorem settled_progress (w : Log) (capacity : Nat) : settled w ≤ settled (w.progress capacity) :=
  @settled_mono w (w.progress capacity) _ rfl (fun _ hi => hi) fun _ hi => hi

theorem settled_onResponse {c : WireContact} (hc : c ∈ w.inFlight) (contacts : List WireContact)
    (room : Nat) : settled w < settled (w.step (.onResponse c contacts room)) := by
  have hsender := wasDispatched_iff.mpr ⟨c, (mem_inFlight.mp hc).1, rfl⟩
  have hstep : (w.step (.onResponse c contacts room)).dispatched =
      w.dispatched ++ (w.search.onResponse c contacts room).1 ∧
      (w.step (.onResponse c contacts room)).answered = w.answered ++ [c.id] ∧
      (w.step (.onResponse c contacts room)).failed = w.failed := by
    unfold Log.step
    dsimp only
    rw [if_pos hsender]
    exact ⟨rfl, rfl, rfl⟩
  obtain ⟨hdispatched, hanswered, hfailed⟩ := hstep
  refine settled_lt hc hdispatched (fun i hi => ?_) (fun i hi => ?_) (.inl ?_)
  · rw [hanswered]
    exact List.mem_append_left _ hi
  · rw [hfailed]
    exact hi
  · rw [hanswered]
    exact List.mem_append_right _ (List.mem_singleton_self _)

theorem settled_onTimeout {c : WireContact} (hc : c ∈ w.inFlight) :
    settled w < settled (w.step (.onTimeout c)) := by
  have hsender := wasDispatched_iff.mpr ⟨c, (mem_inFlight.mp hc).1, rfl⟩
  have hstep : (w.step (.onTimeout c)).dispatched = w.dispatched ++ [] ∧
      (w.step (.onTimeout c)).answered = w.answered ∧
      (w.step (.onTimeout c)).failed = w.failed ++ [c.id] := by
    unfold Log.step
    dsimp only
    rw [if_pos hsender, List.append_nil]
    exact ⟨rfl, rfl, rfl⟩
  obtain ⟨hdispatched, hanswered, hfailed⟩ := hstep
  refine settled_lt hc hdispatched (fun i hi => ?_) (fun i hi => ?_) (.inr ?_)
  · rw [hanswered]
    exact hi
  · rw [hfailed]
    exact List.mem_append_left _ hi
  · rw [hfailed]
    exact List.mem_append_right _ (List.mem_singleton_self _)

/-- What holds after every round. -/
theorem drives_invariant {start : Log} (hsound : Sound finds values start)
    (hknown : OutcomesKnown start) (hfrontier : 1 ≤ start.search.frontier) {n : Nat} {w : Log}
    (h : Drives start n w) : Sound finds values w ∧ OutcomesKnown w ∧ 1 ≤ w.search.frontier ∧
      n ≤ settled w ∧ (w.inFlight = [] → w.search.possible = []) := by
  have hpass {w : Log} (hsound : Sound finds values w) (hknown : OutcomesKnown w)
      (hfrontier : 1 ≤ w.search.frontier) {n capacity : Nat} (hn : n ≤ settled w)
      (hroom : w.inFlight = [] → 0 < capacity) :
      Sound finds values (w.progress capacity) ∧ OutcomesKnown (w.progress capacity) ∧
        1 ≤ (w.progress capacity).search.frontier ∧ n ≤ settled (w.progress capacity) ∧
        ((w.progress capacity).inFlight = [] → (w.progress capacity).search.possible = []) :=
    ⟨hsound.progress capacity, (hknown.step .harvest).step (.refill capacity),
      (hsound.run_constants [.harvest, .refill capacity]).2.symm ▸ hfrontier,
      hn.trans (settled_progress w capacity), hsound.progress_done hknown hfrontier hroom⟩
  induction h with
  | begins hroom => exact hpass hsound hknown hfrontier (Nat.zero_le _) hroom
  | answered h hc contacts room hroom ih =>
    obtain ⟨hsound, hknown, hfrontier, hn, -⟩ := ih
    refine hpass (hsound.step _) (hknown.step _) ?_ ?_ hroom
    · exact (hsound.run_constants [.onResponse _ contacts room]).2.symm ▸ hfrontier
    · exact hn.trans_lt (settled_onResponse hc contacts room)
  | failed h hc hroom ih =>
    obtain ⟨hsound, hknown, hfrontier, hn, -⟩ := ih
    refine hpass (hsound.step _) (hknown.step _) ?_ ?_ hroom
    · exact (hsound.run_constants [.onTimeout _]).2.symm ▸ hfrontier
    · exact hn.trans_lt (settled_onTimeout hc)

theorem outcomesKnown_start (target : Kad128) (seeds : List WireContact)
    (finds values frontier : Nat) :
    OutcomesKnown (.start target seeds finds values frontier) := by
  rintro i (hi | hi)
  · exact absurd hi List.not_mem_nil
  · exact absurd hi List.not_mem_nil

/-- In any reachable state with nothing in flight, a harvest leaves no candidate or one that a
    refill dispatches; there are no more dispatches than contacts learned of; and a driver that
    waits for an outcome in every round ends, after no more rounds than contacts learned of and no
    more than its budget, with no candidate left. -/
theorem lookup_ends (target : Kad128) (seeds : List WireContact) (finds values frontier : Nat)
    (hfrontier : 1 ≤ frontier) :
    (∀ events, let w := (Log.start target seeds finds values frontier).run events
      (w.inFlight = [] → (w.step .harvest).search.possible = [] ∨
          ((w.step .harvest).search.refill 1).1 ≠ []) ∧
        w.dispatched.length ≤ w.learned.dedup.length) ∧
      ∀ n w, Drives (.start target seeds finds values frontier) n w →
        n ≤ w.learned.dedup.length ∧ n ≤ finds ∧ (w.inFlight = [] → w.search.possible = []) := by
  have hstart := sound_start target seeds finds values frontier
  have hframe := (start_constants target seeds finds values frontier).2
  refine ⟨fun events => ?_, fun n w hdrives => ?_⟩
  · have hsound := hstart.run events
    have hsame := (hstart.run_constants events).2
    exact ⟨fun hidle => hsound.not_stranded (by rw [hsame, hframe]; exact hfrontier) hidle
      Nat.one_pos, hsound.dispatched_le⟩
  · obtain ⟨hsound, -, -, hn, hends⟩ := drives_invariant hstart
      (outcomesKnown_start target seeds finds values frontier)
      (by rw [hframe]; exact hfrontier) hdrives
    have hall := hn.trans (settled_le w)
    exact ⟨hall.trans hsound.dispatched_le, by have := hsound.finds; omega, hends⟩

/-- A contact at a distance from the zero target. -/
def contactAt (d : UInt32) : WireContact := ⟨⟨d, 0, 0, 0⟩, 0xCB007100 ||| d, 4672, 4662, 8⟩

/-- Two seeds and one FIND: its answer leaves nobody behind. -/
theorem spent_budget_strands_nobody :
    let w := (Log.start ⟨0, 0, 0, 0⟩ [contactAt 0x80, contactAt 0x100] 1 1000 10).run
      [.refill 3, .onResponse (contactAt 0x80) [] 3]
    w.inFlight = [] ∧ ((w.step .harvest).search.possible = [] ∨
      ((w.step .harvest).search.refill 1).1 ≠ []) := by
  have hends := (lookup_ends ⟨0, 0, 0, 0⟩ [contactAt 0x80, contactAt 0x100] 1 1000 10 (by decide)).1
    [.refill 3, .onResponse (contactAt 0x80) [] 3]
  exact ⟨by decide +kernel, hends.1 (by decide +kernel)⟩

end PadMule.Kad
