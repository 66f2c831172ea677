import PadMule.Engine.KadDrive
import PadMule.Kad.Closest

/-
  `mule-engine/src/kad_live.rs`: the loop of `drive_lookup`.

  `Driver` is the loop around the lookup of `KadDrive`: a pass at its top, then whatever the
  `select!` sees first. `log` keeps beside it which FINDs the search handed out and what became of
  them. An answer or a timeout always leads to another pass, so that the loop runs dry only behind
  one; but a pass that begins with nothing in flight and gets no datagram out ends the lookup,
  whatever is left. `ends_done_iff` says that the lookup ends when it is done along a run exactly
  when no pass of it is of that kind while something is.
-/

namespace PadMule.Engine.KadDrive

open PadMule.Proto PadMule.Kad SortedMap KadGate

/-! ## The loop -/

def KAD_SEARCH_SOURCE_TOTAL : Nat := 20

def KAD_SEARCH_KEYWORD_TOTAL : Nat := 300

def KAD_PUBLISH_STORE_TOTAL : Nat := 10

def LOOKUP_VALUE_BUDGET : Nat := K

/-- What the closest nodes are asked for. -/
inductive ValueAsk where
  | none
  | sources
  | keyword (keyword : String)
  | publishKeyword
  | publishSource
deriving DecidableEq

namespace ValueAsk

def isPublish : ValueAsk → Bool
  | publishKeyword | publishSource => true
  | _ => false

/-- The search total. -/
def cap : ValueAsk → Nat
  | sources => KAD_SEARCH_SOURCE_TOTAL
  | keyword _ => KAD_SEARCH_KEYWORD_TOTAL
  | publishKeyword | publishSource => KAD_PUBLISH_STORE_TOTAL
  | none => 2 ^ 64 - 1

/-- A refresh asks nobody for values. -/
def budget : ValueAsk → Nat
  | none => 0
  | _ => LOOKUP_VALUE_BUDGET

end ValueAsk

structure ResolveOutcome where
  sources : List Source
  nodesQueried : Nat
  findNodeResponses : Nat
  nodesSearched : Nat
  searchResponses : Nat
  closestPrefixBits : Nat
  publishedTo : Nat

inductive Ending where
  | enough
  | exhausted
  | deadline
deriving DecidableEq

inductive Phase where
  /-- At the top of the loop. -/
  | top
  /-- In its `select!`. -/
  | select
  | ended (e : Ending)
deriving DecidableEq

structure Driver where
  drive : Drive
  value : ValueAsk
  want : Nat
  needProgress : Bool
  phase : Phase
  out : ResolveOutcome
  files : List FileResult
  /-- The FINDs that the search handed out, and their outcomes. -/
  log : Log

/-- What a run of the loop is made of: its top, with the word for every datagram whether it goes
    out, what the `select!` sees, and what the read loop does to the table meanwhile. -/
inductive DriverEvent where
  | turn (sent : WireContact → Bool)
  | reply (i : Nat) (answer : ReplyAnswer) (m : Moment) (sent : WireContact → Bool)
  | timeout (i : Nat)
  | tick (stalled : Bool)
  | deadline
  | table (ops : List RoutingOp)

/-- The loop over the results of one answer: nothing past the total, nothing unwanted, nothing
    twice. -/
def gather {α κ : Type} [DecidableEq κ] (total : Nat) (wanted : α → Bool) (key : α → κ) :
    List α → List α → List α
  | acc, [] => acc
  | acc, x :: xs =>
    if total ≤ acc.length then acc
    else if !wanted x || acc.any fun y => key y = key x then gather total wanted key acc xs
    else gather total wanted key (acc ++ [x]) xs

/-- The leading zero bits of a distance. -/
def leadingZeroBits (d : Kad128) : Nat :=
  128 - Nat.size (((d.w0.toNat * 2 ^ 32 + d.w1.toNat) * 2 ^ 32 + d.w2.toNat) * 2 ^ 32 + d.w3.toNat)

/-- FINDs whose datagram does not go out time out at once. -/
def failSends (sent : WireContact → Bool) (l : Log) (finds : List WireContact) : Log :=
  finds.foldl (fun l c => if sent c then l else l.step (.onTimeout c)) l

namespace Driver

/-- The driver over some seeds. -/
def new (t : RoutingTable) (ipFilter : Option IpFilter) (seeds : List WireContact)
    (target : Kad128) (value : ValueAsk) (want findBudget : Nat) : Driver :=
  { drive :=
      { table := t, ipFilter, publishing := value.isPublish
        search := .new target seeds findBudget value.budget K
        findsInflight := 0, inflight := [], seeds, dialled := [], absorbed := [] }
    value, want, needProgress := true, phase := .top
    out := ⟨[], 0, 0, 0, 0, 0, 0⟩, files := []
    log := .start target seeds findBudget value.budget K }

def stop (d : Driver) : Nat := min d.want d.value.cap

def results (d : Driver) : Nat :=
  match d.value with
  | .sources => d.out.sources.length
  | .keyword _ => d.files.length
  | .publishKeyword | .publishSource => d.out.publishedTo
  | .none => 0

def Enough (d : Driver) : Prop := d.value ≠ .none ∧ d.stop ≤ d.results

instance (d : Driver) : Decidable d.Enough := inferInstanceAs (Decidable (_ ∧ _))

/-- The progress pass: value asks first, then FINDs. A refresh has no value budget, so that nobody
    is asked there. -/
def progress (sent : WireContact → Bool) (d : Driver) : Driver :=
  let asks := d.drive.search.harvest
  let finds := (asks.2.refill (ALPHA_QUERY - d.drive.findsInflight)).1
  { d with
    needProgress := false
    drive := d.drive.progress sent
    out := { d.out with
      nodesSearched := d.out.nodesSearched + asks.1.countP sent
      nodesQueried := d.out.nodesQueried + finds.countP sent }
    log := failSends sent (d.log.progress (ALPHA_QUERY - d.drive.findsInflight)) finds }

/-- From the top of the loop to its `select!`. -/
def turn (sent : WireContact → Bool) (d : Driver) : Driver :=
  if d.Enough then { d with phase := .ended .enough }
  else
    let d := if d.needProgress then d.progress sent else d
    { d with phase := if d.drive.inflight.isEmpty then .ended .exhausted else .select }

/-- The payload of an answer to a value ask. -/
def collect (toLowercase : String → String) (payload : Bytes) (d : Driver) : Driver :=
  if d.value.isPublish then
    if (parsePublishRes payload).isOk then
      { d with out := { d.out with publishedTo := d.out.publishedTo + 1 } }
    else d
  else
    match parseSearchRes payload with
    | .error _ => d
    | .ok res =>
      let d := { d with out := { d.out with searchResponses := d.out.searchResponses + 1 } }
      match d.value with
      | .sources =>
        { d with out := { d.out with
            sources := gather KAD_SEARCH_SOURCE_TOTAL (fun _ => true) Source.clientHash
              d.out.sources (res.results.filterMap SearchResult.asSource) } }
      | .keyword keyword =>
        { d with
          files := gather KAD_SEARCH_KEYWORD_TOTAL
            (fun f => kadFilenameMatches toLowercase f.name keyword) FileResult.hash
            d.files (res.results.filterMap SearchResult.asFile) }
      | _ => d

/-- An answer to a FIND. -/
def answered (responder : WireContact) (answer : ReplyAnswer) (m : Moment)
    (sent : WireContact → Bool) (d : Driver) : Driver :=
  match Drive.usable answer.payload with
  | none => { d with log := d.log.step (.onTimeout responder) }
  | some contacts =>
    let frontier :=
      (absorbFindAnswer d.drive.table d.drive.ipFilter m responder answer contacts).1
    let capacity := ALPHA_QUERY - (d.drive.findsInflight - 1)
    let finds := (d.drive.search.onResponse responder frontier capacity).1
    { d with
      out := { d.out with
        findNodeResponses := d.out.findNodeResponses + 1
        nodesQueried := d.out.nodesQueried + finds.countP sent }
      log := failSends sent (d.log.step (.onResponse responder frontier capacity)) finds }

/-- A request is over, and the loop goes round with a pass. -/
def joined (e : DriveEvent) (d : Driver) : Driver :=
  { d with drive := d.drive.step e, needProgress := true, phase := .top }

def step (toLowercase : String → String) (d : Driver) : DriverEvent → Option Driver
  | .turn sent => if d.phase = .top then some (d.turn sent) else none
  | .reply i answer m sent =>
    if d.phase = .select then
      match d.drive.inflight[i]? with
      | none => none
      | some (.find, responder) =>
        some ((d.answered responder answer m sent).joined (.reply i answer m sent))
      | some (.value, _) =>
        some ((d.collect toLowercase answer.payload).joined (.reply i answer m sent))
    else none
  | .timeout i =>
    if d.phase = .select then
      match d.drive.inflight[i]? with
      | none => none
      | some (.find, c) =>
        some ({ d with log := d.log.step (.onTimeout c) }.joined (.timeout i))
      | some (.value, _) => some (d.joined (.timeout i))
    else none
  | .tick stalled =>
    if d.phase = .select then
      some { d with needProgress := d.needProgress || stalled, phase := .top }
    else none
  | .deadline => if d.phase = .select then some { d with phase := .ended .deadline } else none
  | .table ops => some { d with drive := d.drive.step (.table ops) }

/-- What `drive_lookup` returns. -/
def result (d : Driver) : ResolveOutcome × List FileResult :=
  match d.drive.search.closest 1 with
  | c :: _ =>
    ({ d.out with
      closestPrefixBits := leadingZeroBits (d.drive.search.target.distance c.id) }, d.files)
  | [] => (d.out, d.files)

end Driver

/-- The driver of the lookup that `start` makes of a live table. -/
theorem start_eq {t : RoutingTable} {ipFilter : Option IpFilter} {value : ValueAsk}
    {target : Kad128} {findBudget : Nat} {w : Drive}
    (h : start t ipFilter value.isPublish target findBudget value.budget = some w) (want : Nat) :
    (Driver.new t ipFilter ((t.closestTo target 50).map wire) target value want
      findBudget).drive = w := by
  unfold start at h
  dsimp only at h
  split_ifs at h
  exact Option.some.inj h

/-! ## What is gathered -/

/-- What the results of a search come to. -/
structure Gathered {α κ : Type} (total : Nat) (wanted : α → Bool) (key : α → κ) (l : List α) :
    Prop where
  once : (l.map key).Nodup
  few : l.length ≤ total
  wanted : ∀ x ∈ l, wanted x = true

theorem Gathered.gather {α κ : Type} [DecidableEq κ] {total : Nat} {wanted : α → Bool}
    {key : α → κ} {acc : List α} (h : Gathered total wanted key acc) (xs : List α) :
    Gathered total wanted key (gather total wanted key acc xs) := by
  induction xs generalizing acc with
  | nil => exact h
  | cons x xs ih =>
    rw [KadDrive.gather]
    split_ifs with hfull hskip
    · exact h
    · exact ih h
    · rw [Bool.or_eq_true, not_or, Bool.not_eq_true', Bool.not_eq_false, List.any_eq_true] at hskip
      obtain ⟨hwanted, hnew⟩ := hskip
      refine ih ⟨?_, ?_, fun y hy => ?_⟩
      · rw [List.map_append, List.map_singleton, List.nodup_append]
        refine ⟨h.once, List.nodup_singleton _, fun k hk k' hk' heq => hnew ?_⟩
        obtain ⟨y, hy, rfl⟩ := List.mem_map.mp hk
        exact ⟨y, hy, decide_eq_true (heq.trans (List.mem_singleton.mp hk'))⟩
      · rw [List.length_append, List.length_singleton]
        omega
      · rcases List.mem_append.mp hy with hy | hy
        · exact h.wanted y hy
        · exact List.mem_singleton.mp hy ▸ hwanted

/-! ## The FINDs in flight -/

/-- The FINDs among the requests in flight. -/
def Drive.finds (w : Drive) : List WireContact :=
  (w.inflight.filter fun r => r.1 = .find).map Prod.snd

theorem search_onTimeout (l : Log) (c : WireContact) :
    (l.step (.onTimeout c)).search = l.search.onTimeout c := by
  unfold Log.step
  dsimp only
  split_ifs <;> rfl

theorem onTimeout_of_dispatched {l : Log} {c : WireContact} (h : l.wasDispatched c = true) :
    l.step (.onTimeout c) =
      { l with search := l.search.onTimeout c, failed := l.failed ++ [c.id] } := if_pos h

theorem onResponse_of_dispatched {l : Log} {c : WireContact} (h : l.wasDispatched c = true)
    (contacts : List WireContact) (capacity : Nat) :
    l.step (.onResponse c contacts capacity) =
      { l with
        search := (l.search.onResponse c contacts capacity).2
        dispatched := l.dispatched ++ (l.search.onResponse c contacts capacity).1
        answered := l.answered ++ [c.id]
        learned := l.learned ++ Log.named contacts } := if_pos h

theorem length_consider_le {fromDist : Kad128} {capacity : Nat}
    {r : List WireContact × CSearch} (h : r.1.length ≤ capacity) (c : WireContact) :
    (CSearch.consider fromDist capacity r c).1.length ≤ capacity := by
  unfold CSearch.consider
  split
  · exact h
  · dsimp only
    split_ifs with hnear hgate
    · rw [Bool.and_eq_true, Bool.and_eq_true, decide_eq_true_eq] at hgate
      rw [List.length_append, List.length_singleton]
      exact hgate.1.2
    · exact h
    · exact h

/-- An answer dispatches no more than there is room for. -/
theorem length_onResponse_le (s : CSearch) (sender : WireContact) (contacts : List WireContact)
    (capacity : Nat) : (s.onResponse sender contacts capacity).1.length ≤ capacity := by
  unfold CSearch.onResponse
  dsimp only
  split_ifs
  · exact Nat.zero_le _
  · generalize hr : (([], s) : List WireContact × CSearch) = r
    have hroom : r.1.length ≤ capacity := by
      rw [← hr]
      exact Nat.zero_le _
    clear hr
    induction contacts generalizing r with
    | nil => exact hroom
    | cons c contacts ih => exact ih _ (length_consider_le hroom c)

theorem length_refill_le (s : CSearch) (capacity : Nat) :
    (s.refill capacity).1.length ≤ capacity :=
  (List.length_take_le _ _).trans (Nat.min_le_left _ _)

/-- Where the search of a lookup and its requests stand, while the FINDs `due` are handed out and
    neither dialled nor resolved. -/
structure Books (finds values : Nat) (due : List WireContact) (w : Drive) (l : Log) : Prop where
  mirror : l.search = w.search
  sound : Kad.Sound finds values l
  known : OutcomesKnown l
  frontier : l.search.frontier = K
  counted : w.findsInflight = w.finds.length
  alpha : w.findsInflight + due.length ≤ ALPHA_QUERY
  ledger : ∀ i, (l.dispatched.map WireContact.id).count i =
    l.answered.count i + l.failed.count i + (w.finds.map WireContact.id).count i +
      (due.map WireContact.id).count i

variable {finds values : Nat} {w w' : Drive} {l : Log} {due : List WireContact} {c : WireContact}

theorem finds_concat (r : ReqKind × WireContact) :
    Drive.finds { w with inflight := w.inflight ++ [r] } =
      w.finds ++ if r.1 = .find then [r.2] else [] := by
  unfold Drive.finds
  rw [List.filter_append, List.map_append, List.filter_singleton]
  split_ifs <;> simp_all

/-- A request that is settled was one of those in flight. -/
theorem perm_settle {i : Nat} {kind : ReqKind} (h : w.inflight[i]? = some (kind, c)) :
    w.finds.Perm ((if kind = .find then [c] else []) ++ (w.settle i kind).finds) := by
  obtain ⟨hi, hget⟩ := List.getElem?_eq_some_iff.mp h
  have hperm := (List.getElem_cons_eraseIdx_perm hi).symm
  rw [hget] at hperm
  have hfinds := (hperm.filter fun r => r.1 = .find).map Prod.snd
  rw [List.filter_cons] at hfinds
  cases kind with
  | find => exact hfinds
  | value => exact hfinds

theorem foldl_dialValue (sent : WireContact → Bool) (asks : List WireContact) (w : Drive) :
    (asks.foldl (Drive.dialValue sent) w).search = w.search ∧
      (asks.foldl (Drive.dialValue sent) w).findsInflight = w.findsInflight ∧
      (asks.foldl (Drive.dialValue sent) w).inflight =
        w.inflight ++ (asks.filter sent).map (Prod.mk .value) := by
  induction asks generalizing w with
  | nil => exact ⟨rfl, rfl, (List.append_nil _).symm⟩
  | cons c asks ih =>
    obtain ⟨hsearch, hfinds, hinflight⟩ := ih (w.dialValue sent c)
    rw [List.foldl_cons, List.filter_cons, hsearch, hfinds, hinflight]
    unfold Drive.dialValue
    dsimp only
    split_ifs
    · exact ⟨rfl, rfl, List.append_assoc ..⟩
    · exact ⟨rfl, rfl, rfl⟩

theorem foldl_dialFind (sent : WireContact → Bool) (cs : List WireContact) (w : Drive) :
    (cs.foldl (Drive.dialFind sent) w).inflight =
      w.inflight ++ (cs.filter sent).map (Prod.mk .find) := by
  induction cs generalizing w with
  | nil => exact (List.append_nil _).symm
  | cons c cs ih =>
    rw [List.foldl_cons, List.filter_cons, ih]
    unfold Drive.dialFind
    dsimp only
    split_ifs
    · exact List.append_assoc ..
    · rfl

/-- The asks and the FINDs of a pass. -/
theorem inflight_progress (sent : WireContact → Bool) (w : Drive) :
    (w.progress sent).inflight = w.inflight ++
      (w.search.harvest.1.filter sent).map (Prod.mk .value) ++
      ((w.search.harvest.2.refill (ALPHA_QUERY - w.findsInflight)).1.filter sent).map
        (Prod.mk .find) := by
  obtain ⟨hsearch, hfinds, hinflight⟩ :=
    foldl_dialValue sent w.search.harvest.1 { w with search := w.search.harvest.2 }
  unfold Drive.progress
  dsimp only at hsearch hfinds hinflight ⊢
  rw [foldl_dialFind, hsearch, hfinds, hinflight]

namespace Books

/-- Only the requests and the search count. -/
theorem congr (h : Books finds values due w l) (hsearch : w'.search = w.search)
    (hinflight : w'.inflight = w.inflight) (hfinds : w'.findsInflight = w.findsInflight) :
    Books finds values due w' l := by
  have hsame : w'.finds = w.finds := by
    unfold Drive.finds
    rw [hinflight]
  refine ⟨hsearch ▸ h.mirror, h.sound, h.known, h.frontier, ?_, ?_, ?_⟩
  · rw [hfinds, hsame]
    exact h.counted
  · rw [hfinds]
    exact h.alpha
  · rw [hsame]
    exact h.ledger

theorem wasDispatched (h : Books finds values (c :: due) w l) : l.wasDispatched c = true := by
  have hone := h.ledger c.id
  rw [List.map_cons, List.count_cons_self] at hone
  have hpos : 0 < (l.dispatched.map WireContact.id).count c.id := by omega
  obtain ⟨d, hd, hid⟩ := List.mem_map.mp (List.count_pos_iff.mp hpos)
  exact wasDispatched_iff.mpr ⟨d, hd, hid⟩

/-- A FIND that is due fails. -/
theorem fail (h : Books finds values (c :: due) w l) :
    Books finds values due { w with search := w.search.onTimeout c } (l.step (.onTimeout c)) where
  mirror := by rw [search_onTimeout, h.mirror]
  sound := h.sound.step _
  known := h.known.step _
  frontier := (moves_target (h.sound.moves_step _)).2.trans h.frontier
  counted := h.counted
  alpha := (Nat.add_le_add_left (Nat.le_succ _) _).trans h.alpha
  ledger i := by
    have hledger := h.ledger i
    rw [List.map_cons, List.count_cons] at hledger
    rw [onTimeout_of_dispatched h.wasDispatched]
    dsimp only
    rw [List.count_append, List.count_singleton]
    show (l.dispatched.map WireContact.id).count i = l.answered.count i + _ +
      (w.finds.map WireContact.id).count i + _
    omega

/-- A FIND that is due is dialled. -/
theorem dialFind (h : Books finds values (c :: due) w l) (sent : WireContact → Bool) :
    Books finds values due (w.dialFind sent c)
      (if sent c then l else l.step (.onTimeout c)) := by
  unfold Drive.dialFind
  dsimp only
  split_ifs with hsent
  · have hfinds : Drive.finds { w with inflight := w.inflight ++ [(.find, c)] } = w.finds ++ [c] :=
      finds_concat _
    have halpha := h.alpha
    rw [List.length_cons] at halpha
    refine ⟨h.mirror, h.sound, h.known, h.frontier, ?_, by dsimp only; omega, fun i => ?_⟩
    · show w.findsInflight + 1 = (Drive.finds { w with inflight := _ }).length
      rw [hfinds, List.length_append, List.length_singleton, h.counted]
    · have hledger := h.ledger i
      rw [List.map_cons, List.count_cons] at hledger
      show _ = _ + ((Drive.finds { w with inflight := _ }).map WireContact.id).count i + _
      rw [hfinds, List.map_append, List.count_append, List.map_singleton, List.count_singleton]
      omega
  · exact h.fail.congr rfl rfl rfl

/-- All that are due are dialled. -/
theorem dialFinds (h : Books finds values due w l) (sent : WireContact → Bool) :
    Books finds values [] (due.foldl (Drive.dialFind sent) w) (failSends sent l due) := by
  induction due generalizing w l with
  | nil => exact h
  | cons c due ih => exact ih (h.dialFind sent)

theorem harvest (h : Books finds values due w l) :
    Books finds values due { w with search := w.search.harvest.2 } (l.step .harvest) where
  mirror := congrArg (fun s : CSearch => s.harvest.2) h.mirror
  sound := h.sound.step _
  known := h.known.step _
  frontier := (moves_target (h.sound.moves_step .harvest)).2.trans h.frontier
  counted := h.counted
  alpha := h.alpha
  ledger := h.ledger

/-- A value ask is no FIND. -/
theorem dialValues (h : Books finds values due w l) (sent : WireContact → Bool)
    (asks : List WireContact) :
    Books finds values due (asks.foldl (Drive.dialValue sent) w) l := by
  induction asks generalizing w with
  | nil => exact h
  | cons c asks ih =>
    refine ih ?_
    unfold Drive.dialValue
    dsimp only
    split_ifs
    · have hsame : Drive.finds { w with inflight := w.inflight ++ [(.value, c)] } = w.finds :=
        (finds_concat _).trans (List.append_nil _)
      refine ⟨h.mirror, h.sound, h.known, h.frontier, ?_, h.alpha, ?_⟩
      · exact h.counted.trans (congrArg List.length hsame.symm)
      · intro i
        show _ = _ + ((Drive.finds { w with inflight := _ }).map WireContact.id).count i + _
        rw [hsame]
        exact h.ledger i
    · exact h.congr rfl rfl rfl

theorem refill (h : Books finds values [] w l) :
    Books finds values (w.search.refill (ALPHA_QUERY - w.findsInflight)).1
      { w with search := (w.search.refill (ALPHA_QUERY - w.findsInflight)).2 }
      (l.step (.refill (ALPHA_QUERY - w.findsInflight))) where
  mirror := congrArg (fun s : CSearch => (s.refill _).2) h.mirror
  sound := h.sound.step _
  known := h.known.step _
  frontier := (moves_target (h.sound.moves_step (.refill _))).2.trans h.frontier
  counted := h.counted
  alpha := by
    have halpha : w.findsInflight + 0 ≤ ALPHA_QUERY := h.alpha
    have hroom := length_refill_le w.search (ALPHA_QUERY - w.findsInflight)
    dsimp only
    omega
  ledger i := by
    show ((l.dispatched ++ (l.search.refill _).1).map WireContact.id).count i = _
    rw [List.map_append, List.count_append, h.mirror, h.ledger i]
    rfl

/-- The request of a FIND is over, and its outcome is due. -/
theorem settleFind (h : Books finds values [] w l) {i : Nat}
    (hi : w.inflight[i]? = some (.find, c)) :
    Books finds values [c] (w.settle i .find) l := by
  have hperm : w.finds.Perm (c :: (w.settle i .find).finds) := perm_settle hi
  have hlength := hperm.length_eq
  rw [List.length_cons] at hlength
  have halpha : w.findsInflight + 0 ≤ ALPHA_QUERY := h.alpha
  have hcounted := h.counted
  have hsettled : (w.settle i .find).findsInflight = w.findsInflight - 1 := rfl
  refine ⟨h.mirror, h.sound, h.known, h.frontier, by omega, ?_, fun j => ?_⟩
  · rw [hsettled, List.length_singleton]
    omega
  · have hledger := h.ledger j
    rw [(hperm.map WireContact.id).count_eq, List.map_cons, List.count_cons, List.map_nil,
      List.count_nil] at hledger
    rw [List.map_singleton, List.count_singleton]
    omega

theorem settleValue (h : Books finds values [] w l) {i : Nat}
    (hi : w.inflight[i]? = some (.value, c)) :
    Books finds values [] (w.settle i .value) l := by
  have hperm : w.finds.Perm (w.settle i .value).finds := perm_settle hi
  refine ⟨h.mirror, h.sound, h.known, h.frontier, ?_, h.alpha, fun j => ?_⟩
  · exact h.counted.trans hperm.length_eq
  · rw [h.ledger j, (hperm.map WireContact.id).count_eq]

/-- The answer of a FIND that is due; what it hands out is due in its place. -/
theorem answer (h : Books finds values [c] w l) (contacts : List WireContact) :
    Books finds values (w.search.onResponse c contacts (ALPHA_QUERY - w.findsInflight)).1
      { w with search := (w.search.onResponse c contacts (ALPHA_QUERY - w.findsInflight)).2 }
      (l.step (.onResponse c contacts (ALPHA_QUERY - w.findsInflight))) where
  mirror := by
    rw [onResponse_of_dispatched h.wasDispatched, h.mirror]
  sound := h.sound.step _
  known := h.known.step _
  frontier := (moves_target (h.sound.moves_step _)).2.trans h.frontier
  counted := h.counted
  alpha := by
    have halpha := h.alpha
    have hroom := length_onResponse_le w.search c contacts (ALPHA_QUERY - w.findsInflight)
    dsimp only
    omega
  ledger i := by
    have hledger := h.ledger i
    rw [List.map_singleton, List.count_singleton] at hledger
    rw [onResponse_of_dispatched h.wasDispatched, h.mirror]
    dsimp only
    rw [List.map_append, List.count_append, List.count_append, List.count_singleton]
    show _ + _ = _ + _ + l.failed.count i + (w.finds.map WireContact.id).count i + _
    omega

theorem pass (h : Books finds values [] w l) (sent : WireContact → Bool) :
    Books finds values [] (w.progress sent)
      (failSends sent (l.progress (ALPHA_QUERY - w.findsInflight))
        (w.search.harvest.2.refill (ALPHA_QUERY - w.findsInflight)).1) := by
  obtain ⟨hsearch, hfinds, -⟩ :=
    foldl_dialValue sent w.search.harvest.1 { w with search := w.search.harvest.2 }
  have hrefill := (h.harvest.dialValues sent w.search.harvest.1).refill
  dsimp only at hsearch hfinds
  rw [hsearch, hfinds] at hrefill
  unfold Drive.progress
  dsimp only
  rw [hsearch, hfinds]
  exact hrefill.dialFinds sent

/-- With nothing in flight every FIND has its outcome. -/
theorem idle (h : Books finds values [] w l) (hidle : w.inflight = []) : l.inFlight = [] := by
  have hfinds : w.finds = [] := by
    unfold Drive.finds
    rw [hidle]
    rfl
  refine List.eq_nil_iff_forall_not_mem.mpr fun c hc => ?_
  obtain ⟨hd, hanswered, hfailed⟩ := mem_inFlight.mp hc
  have hledger := h.ledger c.id
  rw [List.count_eq_zero.mpr hanswered, List.count_eq_zero.mpr hfailed, hfinds] at hledger
  exact absurd (List.mem_map_of_mem hd) (List.count_eq_zero.mp hledger)

/-- With nothing in flight there is room for all the FINDs. -/
theorem room_of_idle (h : Books finds values [] w l) (hidle : w.inflight = []) :
    ALPHA_QUERY - w.findsInflight = ALPHA_QUERY := by
  have hcounted := h.counted
  unfold Drive.finds at hcounted
  rw [hidle] at hcounted
  rw [hcounted]
  rfl

/-- A pass leaves nothing in flight when nothing was and no datagram of it goes out. -/
theorem dry_progress_iff (h : Books finds values [] w l) (sent : WireContact → Bool) :
    (w.progress sent).inflight = [] ↔ w.inflight = [] ∧
      (∀ c ∈ w.search.harvest.1, sent c = false) ∧
      ∀ c ∈ (w.search.harvest.2.refill ALPHA_QUERY).1, sent c = false := by
  simp only [← Bool.not_eq_true]
  rw [inflight_progress, List.append_eq_nil_iff, List.append_eq_nil_iff, List.map_eq_nil_iff,
    List.map_eq_nil_iff, List.filter_eq_nil_iff, List.filter_eq_nil_iff, and_assoc]
  refine and_congr_right fun hidle => ?_
  rw [h.room_of_idle hidle]

/-- A FIND that was handed out is in flight or has its outcome, once. -/
theorem once (h : Books finds values [] w l) (hc : c ∈ l.dispatched) :
    (w.finds.map WireContact.id).count c.id + (l.answered ++ l.failed).count c.id = 1 := by
  have hledger := h.ledger c.id
  rw [List.count_eq_one_of_mem h.sound.nodup (List.mem_map_of_mem hc)] at hledger
  rw [List.count_append]
  have hnone : (([] : List WireContact).map WireContact.id).count c.id = 0 := rfl
  omega

end Books

/-! ## A pass that sends nothing -/

/-- The FINDs of a pass are not all that a search has left: the budget reaches another candidate
    that was never tried, or one that answered can be asked for values. -/
def Spare (s : CSearch) : Prop :=
  let s := s.harvest.2
  let finds := (s.refill ALPHA_QUERY).1
  (finds.length < s.findBudget ∧
      ∃ e ∈ s.possible, containsKey e.1 s.tried = false ∧ e.2 ∉ finds) ∨
    (0 < s.valueBudget ∧ ∃ e ∈ s.possible, e.1 ∈ s.responded ∧ e.1.withinTolerance = true)

instance (s : CSearch) : Decidable (Spare s) := inferInstanceAs (Decidable (_ ∨ _))

theorem foldl_dispatch (s : CSearch) (cs : List WireContact) :
    (cs.foldl CSearch.dispatch s).possible = s.possible ∧
      (cs.foldl CSearch.dispatch s).responded = s.responded ∧
      (cs.foldl CSearch.dispatch s).valueBudget = s.valueBudget := by
  induction cs generalizing s with
  | nil => exact ⟨rfl, rfl, rfl⟩
  | cons c cs ih => exact ih (s.dispatch c)

/-- A failed send only adds to the failures. -/
theorem failSends_shape (sent : WireContact → Bool) (l : Log) (cs : List WireContact) :
    ∃ f g, failSends sent l cs =
      { l with search := { l.search with failed := f }, failed := g } := by
  induction cs generalizing l with
  | nil => exact ⟨_, _, rfl⟩
  | cons c cs ih =>
    have hone : ∃ f g, (if sent c then l else l.step (.onTimeout c)) =
        { l with search := { l.search with failed := f }, failed := g } := by
      unfold Log.step CSearch.onTimeout
      dsimp only
      split_ifs <;> exact ⟨_, _, rfl⟩
    obtain ⟨f, g, hone⟩ := hone
    obtain ⟨f', g', hrest⟩ := ih (if sent c then l else l.step (.onTimeout c))
    refine ⟨f', g', ?_⟩
    rw [hone] at hrest
    unfold failSends at hrest ⊢
    rw [List.foldl_cons, hone, hrest]

/-- Who is still untried behind a refill was passed over by it. -/
theorem untried_refill (h : Kad.Sound finds values l) (capacity : Nat) {e : Kad128 × WireContact}
    (he : e ∈ l.search.possible) :
    containsKey e.1 (l.step (.refill capacity)).search.tried = false ↔
      containsKey e.1 l.search.tried = false ∧ e.2 ∉ (l.search.refill capacity).1 := by
  have hafter := (h.step (.refill capacity)).untried_iff (c := e.2)
  rw [(moves_target (h.moves_step (.refill capacity))).1] at hafter
  rw [h.key e he, hafter, h.untried_iff]
  show ((l.dispatched ++ (l.search.refill capacity).1).any fun d => d.id = e.2.id) = false ↔ _
  rw [List.any_append, Bool.or_eq_false_iff]
  refine and_congr_right fun _ => ?_
  rw [List.any_eq_false]
  constructor
  · intro hnone hmem
    exact hnone e.2 hmem (decide_eq_true rfl)
  · intro hmem d hd hid
    have hcandidate := ((h.refill_out capacity).1 d hd).1
    have hsame : (l.search.target.distance d.id, d) = e := by
      refine h.sorted.eq_of_key hcandidate he ?_
      rw [h.key e he, of_decide_eq_true hid]
    exact hmem (hsame ▸ hd)

/-- Of a lookup whose FINDs have all got their outcomes nothing is left behind a pass exactly when
    there was nothing to spare. -/
theorem done_iff_not_spare (h : Kad.Sound finds values l) (sent : WireContact → Bool) {l' : Log}
    (hl' : failSends sent (l.progress ALPHA_QUERY)
      (l.search.harvest.2.refill ALPHA_QUERY).1 = l')
    (hsound : Kad.Sound finds values l') (hknown : OutcomesKnown l') (hidle : l'.inFlight = []) :
    (∀ e ∈ l'.search.possible, l'.search.Done e.1 ∧ ¬l'.search.Askable e.1) ↔
      ¬Spare l.search := by
  have hbefore : Kad.Sound finds values (l.step .harvest) := h.step .harvest
  have hlength := (hbefore.refill_out ALPHA_QUERY).2.2
  obtain ⟨f, g, hshape⟩ :=
    failSends_shape sent (l.progress ALPHA_QUERY) (l.search.harvest.2.refill ALPHA_QUERY).1
  rw [hl'] at hshape
  obtain ⟨hpossible, hresponded, hvalues⟩ :=
    foldl_dispatch l.search.harvest.2 (l.search.harvest.2.refill ALPHA_QUERY).1
  have hpossible' : l'.search.possible = l.search.harvest.2.possible := by
    rw [hshape]
    exact hpossible
  have hresponded' : l'.search.responded = l.search.harvest.2.responded := by
    rw [hshape]
    exact hresponded
  have hvalues' : l'.search.valueBudget = l.search.harvest.2.valueBudget := by
    rw [hshape]
    exact hvalues
  have hbudget : l'.search.findBudget =
      l.search.harvest.2.findBudget - (l.search.harvest.2.refill ALPHA_QUERY).1.length := by
    have hafter := hsound.finds
    have hdispatched : l'.dispatched =
        l.dispatched ++ (l.search.harvest.2.refill ALPHA_QUERY).1 := by
      rw [hshape]
      rfl
    have hfirst : l.search.harvest.2.findBudget + l.dispatched.length = finds := hbefore.finds
    rw [hdispatched, List.length_append] at hafter
    omega
  have huntried {e : Kad128 × WireContact} (he : e ∈ l.search.harvest.2.possible) :
      containsKey e.1 l'.search.tried = false ↔
        containsKey e.1 l.search.harvest.2.tried = false ∧
          e.2 ∉ (l.search.harvest.2.refill ALPHA_QUERY).1 := by
    rw [hshape]
    exact untried_refill hbefore ALPHA_QUERY he
  rw [hpossible']
  unfold Spare
  dsimp only
  constructor
  · rintro hall (⟨hleft, e, he, hopen, hpassed⟩ | ⟨hroom, e, he, hanswered, hnear⟩)
    · have hnew := (huntried he).mpr ⟨hopen, hpassed⟩
      rcases (hall e he).1 with ⟨htried, -⟩ | ⟨-, hspent⟩
      · exact absurd (htried.symm.trans hnew) (by decide)
      · rw [hbudget] at hspent
        omega
    · refine (hall e he).2 ⟨?_, hresponded' ▸ hanswered, hnear, hvalues' ▸ hroom⟩
      have hkey := hsound.key e (hpossible' ▸ he)
      rw [hkey, hsound.untried_iff, wasDispatched_iff]
      refine hknown e.2.id (.inl ((hsound.responded _).mp ?_))
      rw [← hkey, hresponded']
      exact hanswered
  · refine fun hnone e he => ⟨by_contra fun hopen => hnone (.inl ?_), fun hask => hnone (.inr ?_)⟩
    · obtain ⟨hnew, hleft⟩ := hsound.open_candidate hidle (hpossible' ▸ he) hopen
      obtain ⟨hopen', hpassed⟩ := (huntried he).mp hnew
      rw [hbudget] at hleft
      exact ⟨by omega, e, he, hopen', hpassed⟩
    · exact ⟨hvalues' ▸ hask.2.2.2, e, he, hresponded' ▸ hask.2.1, hask.2.2.1⟩

/-- A pass that finds nothing in flight and leaves nothing there has exhausted the search exactly
    when there was nothing to spare. -/
theorem exhausted_pass_iff (h : Books finds values [] w l) (hidle : w.inflight = [])
    {sent : WireContact → Bool} (hidle' : (w.progress sent).inflight = []) :
    (w.progress sent).search.Exhausted ↔ ¬Spare w.search := by
  have hpass := h.pass sent
  rw [h.room_of_idle hidle, ← h.mirror] at hpass
  have hquiet := hpass.idle hidle'
  have hfrontier : 1 ≤ (failSends sent (l.progress ALPHA_QUERY)
      (l.search.harvest.2.refill ALPHA_QUERY).1).search.frontier := by
    rw [hpass.frontier]
    decide
  rw [← hpass.mirror, ← h.mirror, hpass.sound.exhausted_iff hfrontier hquiet]
  exact done_iff_not_spare h.sound sent rfl hpass.sound hpass.known hquiet

/-! ## The loop keeps its books -/

/-- A file that a search takes. -/
def ValueAsk.wanted (toLowercase : String → String) (value : ValueAsk) (f : FileResult) : Bool :=
  match value with
  | .keyword k => kadFilenameMatches toLowercase f.name k
  | _ => true

namespace Driver

variable {toLowercase : String → String} {d d' : Driver}

/-- What holds of a driver in every run. -/
structure Inv (toLowercase : String → String) (finds values : Nat) (d : Driver) : Prop where
  books : Books finds values [] d.drive d.log
  sources : Gathered KAD_SEARCH_SOURCE_TOTAL (fun _ => true) Source.clientHash d.out.sources
  files : Gathered KAD_SEARCH_KEYWORD_TOTAL (d.value.wanted toLowercase) FileResult.hash d.files
  top : d.phase = .top → d.needProgress = true ∨ d.drive.inflight ≠ []
  select : d.phase = .select → d.drive.inflight ≠ []
  dry : d.phase = .ended .exhausted → d.drive.inflight = []

theorem answered_eq (d : Driver) (responder : WireContact) (answer : ReplyAnswer) (m : Moment)
    (sent : WireContact → Bool) :
    (d.answered responder answer m sent).drive = d.drive ∧
      (d.answered responder answer m sent).value = d.value ∧
      (d.answered responder answer m sent).out.sources = d.out.sources ∧
      (d.answered responder answer m sent).files = d.files := by
  unfold answered
  split <;> exact ⟨rfl, rfl, rfl, rfl⟩

theorem collect_eq (toLowercase : String → String) (payload : Bytes) (d : Driver) :
    (d.collect toLowercase payload).drive = d.drive ∧
      (d.collect toLowercase payload).log = d.log := by
  unfold collect
  dsimp only
  split_ifs
  · exact ⟨rfl, rfl⟩
  · exact ⟨rfl, rfl⟩
  · split
    · exact ⟨rfl, rfl⟩
    · split <;> exact ⟨rfl, rfl⟩

theorem Inv.collect (h : d.Inv toLowercase finds values) (payload : Bytes) :
    (d.collect toLowercase payload).Inv toLowercase finds values := by
  unfold Driver.collect
  dsimp only
  split_ifs
  · exact { h with }
  · exact h
  · split
    · exact h
    · split
      · exact { h with sources := h.sources.gather _ }
      · rename_i keyword hvalue
        have hfiles := h.files
        rw [hvalue] at hfiles
        refine { h with files := ?_ }
        show Gathered _ (ValueAsk.wanted toLowercase d.value) _ _
        rw [hvalue]
        exact hfiles.gather _
      · exact { h with }

/-- An answer to a FIND is one outcome, and what it hands out is dialled. -/
theorem books_answered (h : Books finds values [] d.drive d.log) {i : Nat}
    (hi : d.drive.inflight[i]? = some (.find, c)) (answer : ReplyAnswer) (m : Moment)
    (sent : WireContact → Bool) :
    Books finds values [] (d.drive.step (.reply i answer m sent))
      (d.answered c answer m sent).log := by
  have hdue := h.settleFind hi
  unfold answered
  rw [Drive.step, hi]
  dsimp only
  cases Drive.usable answer.payload with
  | none => exact hdue.fail
  | some contacts =>
    have hanswer := hdue.answer
      (absorbFindAnswer d.drive.table d.drive.ipFilter m c answer contacts).1
    refine Books.dialFinds ?_ sent
    exact hanswer.congr rfl rfl rfl

theorem books_value (h : Books finds values [] w l) {i : Nat}
    (hi : w.inflight[i]? = some (.value, c)) (answer : ReplyAnswer) (m : Moment)
    (sent : WireContact → Bool) :
    Books finds values [] (w.step (.reply i answer m sent)) l := by
  rw [Drive.step, hi]
  dsimp only
  split_ifs
  · exact (h.settleValue hi).congr rfl rfl rfl
  · exact h.settleValue hi

/-- A pass is made with requests in flight, or leaves some there, or ends the loop. -/
theorem inv_turn (h : d.Inv toLowercase finds values) (sent : WireContact → Bool) :
    (d.turn sent).Inv toLowercase finds values := by
  unfold turn
  dsimp only
  split_ifs with henough hprogress hempty hempty
  · exact { h with
      top := fun hp => absurd hp (by simp), select := fun hp => absurd hp (by simp)
      dry := fun hp => absurd hp (by simp) }
  · exact
      { books := h.books.pass sent, sources := h.sources, files := h.files
        top := fun hp => absurd hp (by simp), select := fun hp => absurd hp (by simp)
        dry := fun _ => List.isEmpty_iff.mp hempty }
  · exact
      { books := h.books.pass sent, sources := h.sources, files := h.files
        top := fun hp => absurd hp (by simp)
        select := fun _ hnil => hempty (List.isEmpty_iff.mpr hnil)
        dry := fun hp => absurd hp (by simp) }
  · exact { h with
      top := fun hp => absurd hp (by simp), select := fun hp => absurd hp (by simp)
      dry := fun _ => List.isEmpty_iff.mp hempty }
  · exact { h with
      top := fun hp => absurd hp (by simp)
      select := fun _ hnil => hempty (List.isEmpty_iff.mpr hnil)
      dry := fun hp => absurd hp (by simp) }

/-- An outcome leads back to the top, with a pass to make. -/
theorem inv_joined {e : DriveEvent} (hbooks : Books finds values [] (d.drive.step e) d.log)
    (hsources : Gathered KAD_SEARCH_SOURCE_TOTAL (fun _ => true) Source.clientHash d.out.sources)
    (hfiles : Gathered KAD_SEARCH_KEYWORD_TOTAL (d.value.wanted toLowercase) FileResult.hash
      d.files) : (d.joined e).Inv toLowercase finds values :=
  { books := hbooks, sources := hsources, files := hfiles
    top := fun _ => .inl rfl
    select := fun hp => absurd hp (by simp [joined])
    dry := fun hp => absurd hp (by simp [joined]) }

theorem inv_step (h : d.Inv toLowercase finds values) {e : DriverEvent}
    (hs : d.step toLowercase e = some d') : d'.Inv toLowercase finds values := by
  cases e with
  | turn sent =>
    obtain ⟨-, hs⟩ := Option.ite_none_right_eq_some.mp hs
    exact Option.some.inj hs ▸ inv_turn h sent
  | reply i answer m sent =>
    obtain ⟨-, hs⟩ := Option.ite_none_right_eq_some.mp hs
    rcases hslot : d.drive.inflight[i]? with - | ⟨kind, c⟩
    · rw [hslot] at hs
      cases hs
    · rw [hslot] at hs
      cases kind with
      | find =>
        obtain rfl := Option.some.inj hs
        obtain ⟨hdrive, hvalue, hsources, hfiles⟩ := d.answered_eq c answer m sent
        refine inv_joined ?_ (hsources ▸ h.sources) (hvalue ▸ hfiles ▸ h.files)
        rw [hdrive]
        exact books_answered h.books hslot answer m sent
      | value =>
        obtain rfl := Option.some.inj hs
        obtain ⟨hdrive, hlog⟩ := collect_eq toLowercase answer.payload d
        have hcollect := h.collect answer.payload
        refine inv_joined ?_ hcollect.sources hcollect.files
        rw [hdrive, hlog]
        exact books_value h.books hslot answer m sent
  | timeout i =>
    obtain ⟨-, hs⟩ := Option.ite_none_right_eq_some.mp hs
    rcases hslot : d.drive.inflight[i]? with - | ⟨kind, c⟩
    · rw [hslot] at hs
      cases hs
    · rw [hslot] at hs
      cases kind with
      | find =>
        obtain rfl := Option.some.inj hs
        refine inv_joined ?_ h.sources h.files
        rw [Drive.step, hslot]
        exact (h.books.settleFind hslot).fail
      | value =>
        obtain rfl := Option.some.inj hs
        refine inv_joined ?_ h.sources h.files
        rw [Drive.step, hslot]
        exact h.books.settleValue hslot
  | tick stalled =>
    obtain ⟨hphase, hs⟩ := Option.ite_none_right_eq_some.mp hs
    obtain rfl := Option.some.inj hs
    exact { h with
      top := fun _ => .inr (h.select hphase), select := fun hp => absurd hp (by simp)
      dry := fun hp => absurd hp (by simp) }
  | deadline =>
    obtain ⟨-, hs⟩ := Option.ite_none_right_eq_some.mp hs
    obtain rfl := Option.some.inj hs
    exact { h with
      top := fun hp => absurd hp (by simp), select := fun hp => absurd hp (by simp)
      dry := fun hp => absurd hp (by simp) }
  | table ops =>
    obtain rfl := Option.some.inj hs
    exact { h with books := h.books.congr rfl rfl rfl }

/-! ## The end of a lookup -/

/-- The driver keeps to its bounds, and where it ends for want of candidates there are none. -/
structure EndsDone (toLowercase : String → String) (d : Driver) : Prop where
  counted : d.drive.findsInflight = d.drive.finds.length
  alpha : d.drive.finds.length ≤ ALPHA_QUERY
  mirror : d.log.search = d.drive.search
  /-- Every FIND that the search handed out is in flight or has its outcome, once. -/
  once : ∀ c ∈ d.log.dispatched, (d.drive.finds.map WireContact.id).count c.id +
    (d.log.answered ++ d.log.failed).count c.id = 1
  sources : Gathered KAD_SEARCH_SOURCE_TOTAL (fun _ => true) Source.clientHash d.out.sources
  files : Gathered KAD_SEARCH_KEYWORD_TOTAL (d.value.wanted toLowercase) FileResult.hash d.files
  resolved : d.phase = .ended .exhausted →
    ∀ c ∈ d.log.dispatched, (d.log.answered ++ d.log.failed).count c.id = 1
  done : d.phase = .ended .exhausted → d.drive.inflight = [] ∧ d.drive.search.Exhausted

theorem Inv.endsDone_iff (h : d.Inv toLowercase finds values) :
    d.EndsDone toLowercase ↔ (d.phase = .ended .exhausted → d.drive.search.Exhausted) := by
  refine ⟨fun hd hp => (hd.done hp).2, fun hdone => ?_⟩
  refine ⟨h.books.counted, h.books.counted ▸ h.books.alpha, h.books.mirror,
    fun c hc => h.books.once hc, h.sources, h.files, fun hp c hc => ?_,
    fun hp => ⟨h.dry hp, hdone hp⟩⟩
  have honce := h.books.once hc
  have hnone : d.drive.finds = [] := by
    unfold Drive.finds
    rw [h.dry hp]
    rfl
  rw [hnone, List.map_nil, List.count_nil, Nat.zero_add] at honce
  exact honce

/-- With nothing in flight no datagram of the pass goes out, and there is something to spare. -/
structure Strands (sent : WireContact → Bool) (d : Driver) : Prop where
  idle : d.drive.inflight = []
  asks : ∀ c ∈ d.drive.search.harvest.1, sent c = false
  finds : ∀ c ∈ (d.drive.search.harvest.2.refill ALPHA_QUERY).1, sent c = false
  spare : Spare d.drive.search

def Ok (d : Driver) : DriverEvent → Prop
  | .turn sent => d.phase = .top → ¬d.Enough → ¬d.Strands sent
  | _ => True

theorem endsDone_turn (h : d.Inv toLowercase finds values) (hphase : d.phase = .top)
    (sent : WireContact → Bool) :
    ((d.turn sent).phase = .ended .exhausted → (d.turn sent).drive.search.Exhausted) ↔
      d.Ok (.turn sent) := by
  by_cases henough : d.Enough
  · refine iff_of_true ?_ fun _ hnot => absurd henough hnot
    rw [turn, if_pos henough]
    exact fun hp => absurd hp (by simp)
  rw [turn, if_neg henough]
  cases hprogress : d.needProgress with
  | false =>
    have hbusy : d.drive.inflight ≠ [] :=
      (h.top hphase).resolve_left fun htrue => absurd (hprogress.symm.trans htrue) (by decide)
    refine iff_of_true ?_ fun _ _ hstrands => hbusy hstrands.idle
    dsimp only
    rw [if_neg Bool.false_ne_true, if_neg fun hempty => hbusy (List.isEmpty_iff.mp hempty)]
    exact fun hp => absurd hp (by simp)
  | true =>
    dsimp only
    rw [if_pos rfl]
    show (_ → (d.drive.progress sent).search.Exhausted) ↔ _
    have hdry := h.books.dry_progress_iff sent
    by_cases hempty : (d.drive.progress sent).inflight = []
    · obtain ⟨hidle, hasks, hfinds⟩ := hdry.mp hempty
      have hexhausted := exhausted_pass_iff h.books hidle hempty
      constructor
      · intro hends _ _ hstrands
        exact hexhausted.mp (hends (if_pos (List.isEmpty_iff.mpr hempty))) hstrands.spare
      · exact fun hok _ => hexhausted.mpr fun hspare =>
          hok hphase henough ⟨hidle, hasks, hfinds, hspare⟩
    · refine iff_of_true (fun hp => ?_) fun _ _ hstrands =>
        hempty (hdry.mpr ⟨hstrands.idle, hstrands.asks, hstrands.finds⟩)
      rw [show (d.progress sent).drive = d.drive.progress sent from rfl,
        if_neg fun he => hempty (List.isEmpty_iff.mp he)] at hp
      exact absurd hp (by simp)

theorem endsDone_step (h : d.Inv toLowercase finds values) (hd : d.EndsDone toLowercase)
    {e : DriverEvent} (hs : d.step toLowercase e = some d') :
    d'.EndsDone toLowercase ↔ d.Ok e := by
  rw [(inv_step h hs).endsDone_iff]
  cases e with
  | turn sent =>
    obtain ⟨hphase, hs⟩ := Option.ite_none_right_eq_some.mp hs
    exact Option.some.inj hs ▸ endsDone_turn h hphase sent
  | reply i answer m sent =>
    refine iff_of_true (fun hp => ?_) trivial
    obtain ⟨-, hs⟩ := Option.ite_none_right_eq_some.mp hs
    split at hs <;> cases hs <;> cases hp
  | timeout i =>
    refine iff_of_true (fun hp => ?_) trivial
    obtain ⟨-, hs⟩ := Option.ite_none_right_eq_some.mp hs
    split at hs <;> cases hs <;> cases hp
  | tick stalled =>
    refine iff_of_true (fun hp => ?_) trivial
    obtain ⟨-, hs⟩ := Option.ite_none_right_eq_some.mp hs
    cases hs
    cases hp
  | deadline =>
    refine iff_of_true (fun hp => ?_) trivial
    obtain ⟨-, hs⟩ := Option.ite_none_right_eq_some.mp hs
    cases hs
    cases hp
  | table ops =>
    cases hs
    exact iff_of_true (fun hp => (hd.done hp).2) trivial

theorem inv_new (toLowercase : String → String) (t : RoutingTable) (ipFilter : Option IpFilter)
    (seeds : List WireContact) (target : Kad128) (value : ValueAsk) (want findBudget : Nat) :
    (new t ipFilter seeds target value want findBudget).Inv toLowercase findBudget
      value.budget where
  books :=
    { mirror := rfl
      sound := Kad.sound_start target seeds findBudget value.budget K
      known := outcomesKnown_start target seeds findBudget value.budget K
      frontier := (start_constants target seeds findBudget value.budget K).2
      counted := rfl
      alpha := Nat.zero_le _
      ledger := fun _ => rfl }
  sources := ⟨List.nodup_nil, Nat.zero_le _, fun _ hx => absurd hx List.not_mem_nil⟩
  files := ⟨List.nodup_nil, Nat.zero_le _, fun _ hx => absurd hx List.not_mem_nil⟩
  top _ := .inl rfl
  select hp := absurd hp (by simp [new])
  dry hp := absurd hp (by simp [new])

/-- Along a run the driver keeps to its bounds and ends only when it is done exactly when no pass
    with nothing in flight fails to get a datagram out while there is something to spare. -/
theorem ends_done_iff (toLowercase : String → String) (t : RoutingTable)
    (ipFilter : Option IpFilter) (seeds : List WireContact) (target : Kad128) (value : ValueAsk)
    (want findBudget : Nat) (events : List DriverEvent) :
    Runs.Always (step toLowercase) (EndsDone toLowercase)
        (new t ipFilter seeds target value want findBudget) events ↔
      Runs.Throughout (step toLowercase) Ok
        (new t ipFilter seeds target value want findBudget) events := by
  have hinv := inv_new toLowercase t ipFilter seeds target value want findBudget
  refine Runs.always_iff_throughout (fun d e d' h hs => inv_step h hs) (fun d e hs => ?_)
    (fun d e d' h hd hs => endsDone_step h hd hs) hinv ?_ events
  · cases e with
    | turn sent => exact fun hphase => absurd hs (by simp [step, hphase])
    | _ => trivial
  · exact hinv.endsDone_iff.mpr fun hp => absurd hp (by simp [new])

/-- Four seeds, and the first three FINDs do not go out: the lookup ends, and the fourth seed is
    never tried. -/
theorem failed_pass_ends_lookup :
    ¬Runs.Always (step String.toLower) (EndsDone String.toLower)
      (new (.new ⟨1, 0, 0, 0⟩) none [contactAt 1, contactAt 2, contactAt 3, contactAt 4]
        ⟨0, 0, 0, 0⟩ .sources 1 36) [.turn fun _ => false] := by
  intro h
  have hends : EndsDone _ _ := h.2 _ rfl
  have hleft := (hends.done (by decide)).2.2
  exact absurd hleft (by decide)

end Driver

end PadMule.Engine.KadDrive
