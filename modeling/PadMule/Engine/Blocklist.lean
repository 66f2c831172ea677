import PadMule.Lib.BinarySearch
import PadMule.Lib.Spans
import PadMule.Engine.BlocklistText

/-
  `mule-files/src/ipfilter.rs`: the blocklist that comes from a text, and the query.

  The ranges of the lines that block are sorted and merged into spans that do not touch, also at
  the top of the address space, and the query is a binary search on their starts. What is blocked
  is exactly what some line blocks (`blocklist_union`).
-/

namespace PadMule.Engine.Blocklist

open Text

/-! ## Merging -/

/-- `u32::saturating_add` of one. -/
def saturatingSucc (x : UInt32) : UInt32 := if x.toNat = 2 ^ 32 - 1 then x else x + 1

/-- One round of the loop of `from_ranges`. -/
def absorb (merged : List Range) (range : Range) : List Range :=
  match merged.getLast? with
  | none => merged ++ [range]
  | some last =>
    if range.start ≤ saturatingSucc last.stop then
      if h : last.stop < range.stop then
        merged.dropLast ++ [⟨last.start, range.stop, UInt32.le_trans last.le (UInt32.le_of_lt h)⟩]
      else merged
    else merged ++ [range]

/-- The order of pairs. -/
def before (a b : Range) : Prop := a.start < b.start ∨ a.start = b.start ∧ a.stop ≤ b.stop

instance : DecidableRel before := fun _ _ => inferInstanceAs (Decidable (_ ∨ _))

/-- The merged ranges. -/
def mergeRanges (ranges : List Range) : List Range :=
  (ranges.insertionSort before).foldl absorb []

/-- A range as the half-open span of its addresses. -/
def Range.span (range : Range) : Spans.Span Nat := ⟨range.start.toNat, range.stop.toNat + 1⟩

theorem Range.span_lt (range : Range) : range.span.start < range.span.stop :=
  Nat.lt_succ_of_le (UInt32.le_iff_toNat_le.mp range.le)

theorem mem_span_iff {range : Range} {ip : UInt32} :
    (range.span.start ≤ ip.toNat ∧ ip.toNat < range.span.stop) ↔
      range.start ≤ ip ∧ ip ≤ range.stop := by
  rw [UInt32.le_iff_toNat_le, UInt32.le_iff_toNat_le, Range.span, Nat.lt_succ_iff]

/-- At the top of the address space the successor is not needed: nothing starts behind it. -/
theorem le_saturatingSucc_iff {x y : UInt32} :
    x ≤ saturatingSucc y ↔ x.toNat ≤ y.toNat + 1 := by
  have hx := x.toNat_lt
  have hy := y.toNat_lt
  rw [UInt32.le_iff_toNat_le]
  unfold saturatingSucc
  split_ifs with htop
  · omega
  · have hsucc : (y + 1).toNat = y.toNat + 1 := by
      rw [UInt32.toNat_add]
      exact Nat.mod_eq_of_lt (by simp; omega)
    rw [hsucc]

theorem map_foldl_absorb (front : List Range) (prev : Range) (rs : List Range) :
    (rs.foldl absorb (front ++ [prev])).map Range.span =
      front.map Range.span ++ Spans.mergeFrom prev.span (rs.map Range.span) := by
  induction rs generalizing front prev with
  | nil => simp [Spans.mergeFrom]
  | cons r rs ih =>
    rw [List.foldl_cons, List.map_cons, absorb, List.getLast?_concat]
    dsimp only
    unfold Spans.mergeFrom
    have htouch : r.start ≤ saturatingSucc prev.stop ↔ r.span.start ≤ prev.span.stop :=
      le_saturatingSucc_iff
    by_cases hin : r.start ≤ saturatingSucc prev.stop
    · rw [if_pos hin, if_pos (htouch.mp hin)]
      split_ifs with hlonger
      · rw [List.dropLast_concat, ih]
        have hlt := UInt32.lt_iff_toNat_lt.mp hlonger
        congr 2
        simp only [Range.span]
        congr 1
        omega
      · rw [ih]
        have hle := mt UInt32.lt_iff_toNat_lt.mpr hlonger
        congr 2
        simp only [Range.span]
        congr 1
        omega
    · rw [if_neg hin, if_neg (mt htouch.mpr hin), ih, List.map_append, List.map_singleton,
        List.append_assoc, List.singleton_append]

instance : Std.Total before := ⟨fun a b => by
  simp only [before, UInt32.lt_iff_toNat_lt, UInt32.le_iff_toNat_le, ← UInt32.toNat_inj]
  omega⟩

instance : IsTrans Range before := ⟨fun a b c hab hbc => by
  simp only [before, UInt32.lt_iff_toNat_lt, UInt32.le_iff_toNat_le, ← UInt32.toNat_inj] at *
  omega⟩

theorem sorted_map_span (rs : List Range) :
    ((rs.insertionSort before).map Range.span).Pairwise fun a b => a.start ≤ b.start := by
  refine List.pairwise_map.mpr ((List.pairwise_insertionSort before rs).imp ?_)
  intro a b hab
  rcases hab with hlt | ⟨heq, -⟩
  · exact (UInt32.lt_iff_toNat_lt.mp hlt).le
  · exact (congrArg UInt32.toNat heq).le

/-- The loop is the merge of spans. -/
theorem map_mergeRanges (rs : List Range) : (mergeRanges rs).map Range.span =
    Spans.merge ((rs.insertionSort before).map Range.span) := by
  unfold mergeRanges
  cases rs.insertionSort before with
  | nil => rfl
  | cons r rs =>
    have hstart : absorb [] r = [] ++ [r] := rfl
    rw [List.foldl_cons, hstart, map_foldl_absorb]
    rfl

/-- The merged list: sorted, and a free address at least between two of its ranges. -/
theorem apart_mergeRanges (rs : List Range) :
    (mergeRanges rs).Pairwise fun a b => a.stop.toNat + 1 < b.start.toNat := by
  have htidy : Spans.Tidy ((mergeRanges rs).map Range.span) := by
    rw [map_mergeRanges]
    refine Spans.tidy_merge (sorted_map_span rs) fun s hs => ?_
    obtain ⟨r, -, rfl⟩ := List.mem_map.mp hs
    exact r.span_lt
  exact List.pairwise_map.mp htidy.apart

theorem mem_mergeRanges (rs : List Range) (ip : UInt32) :
    (∃ r ∈ mergeRanges rs, r.start ≤ ip ∧ ip ≤ r.stop) ↔ ∃ r ∈ rs, r.start ≤ ip ∧ ip ≤ r.stop := by
  have hcover (rs : List Range) : (∃ r ∈ rs, r.start ≤ ip ∧ ip ≤ r.stop) ↔
      ip.toNat ∈ Spans.cover (rs.map Range.span) := by
    simp only [Spans.mem_cover, List.mem_map, exists_exists_and_eq_and, mem_span_iff]
  rw [hcover, hcover, map_mergeRanges, Spans.cover_merge (sorted_map_span rs),
    Spans.cover_perm ((List.perm_insertionSort before rs).map Range.span)]

/-! ## The filter -/

theorem sorted_mergeRanges (rs : List Range) :
    ((mergeRanges rs).map fun r => (r.start, r.stop)).Pairwise fun a b => a.1 < b.1 := by
  refine List.pairwise_map.mpr ((apart_mergeRanges rs).imp ?_)
  intro a b hab
  have hle := UInt32.le_iff_toNat_le.mp a.le
  exact UInt32.lt_iff_toNat_lt.mpr (show a.start.toNat < b.start.toNat by omega)

def fromRanges (rs : List Range) : IpFilter where
  ranges := (mergeRanges rs).map fun r => (r.start, r.stop)
  sorted := sorted_mergeRanges rs

/-- `IpFilter::parse` -/
def parse (text : List Char) (level : UInt8) : IpFilter :=
  fromRanges ((lines text).filterMap (parseLine level))

def isBlockedU32 (f : IpFilter) (ip : UInt32) : Bool :=
  match BinarySearch.binarySearchBy (fun range => compare range.1 ip) f.ranges with
  | .ok _ => true
  | .error 0 => false
  | .error (i + 1) =>
    match f.ranges[i]? with
    | none => false
    | some (start, stop) => start ≤ ip && ip ≤ stop

theorem takeWhile_eq_take {α : Type*} {p : α → Bool} {l : List α} {k : Nat}
    (hfront : ∀ a ∈ l.take k, p a = true) (hback : ∀ a ∈ l.drop k, p a = false) :
    l.takeWhile p = l.take k := by
  conv_lhs => rw [← List.take_append_drop k l]
  rw [List.takeWhile_append_of_pos hfront]
  cases hdrop : l.drop k with
  | nil => rw [List.takeWhile_nil, List.append_nil]
  | cons a rest =>
    rw [List.takeWhile_cons_of_neg (by simp [hback a (hdrop ▸ List.mem_cons_self ..)]),
      List.append_nil]

theorem ordered_compare (f : IpFilter) (ip : UInt32) :
    BinarySearch.Ordered (fun range : UInt32 × UInt32 => compare range.1 ip) f.ranges := by
  refine f.sorted.imp ?_
  intro a b hab
  rw [Std.compare_eq_gt, Std.compare_eq_gt, Std.compare_eq_lt, Std.compare_eq_lt]
  exact ⟨fun h => UInt32.lt_trans h hab, fun h => UInt32.lt_trans hab h⟩

/-- What the search finds is the last range that does not start behind the address. -/
theorem takeWhile_eq_of_found (f : IpFilter) (ip : UInt32) :
    (∀ i, BinarySearch.binarySearchBy (fun range => compare range.1 ip) f.ranges = .ok i →
      ∃ stop, (f.ranges.takeWhile fun range => range.1 ≤ ip).getLast? = some (ip, stop)) ∧
    ∀ i, BinarySearch.binarySearchBy (fun range => compare range.1 ip) f.ranges = .error i →
      f.ranges.takeWhile (fun range => range.1 ≤ ip) = f.ranges.take i := by
  have hfound := BinarySearch.binarySearchBy_spec (ordered_compare f ip)
  constructor
  · intro i hsearch
    rw [hsearch] at hfound
    obtain ⟨⟨start, stop⟩, hget, heq⟩ := hfound
    obtain rfl : start = ip := Std.compare_eq_iff_eq.mp heq
    obtain ⟨hi, hrange⟩ := List.getElem?_eq_some_iff.mp hget
    have hsorted := List.pairwise_iff_getElem.mp f.sorted
    have htake : f.ranges.takeWhile (fun range => range.1 ≤ start) = f.ranges.take (i + 1) := by
      refine takeWhile_eq_take (fun a ha => decide_eq_true ?_) fun a ha => decide_eq_false ?_
      · obtain ⟨j, hj, rfl⟩ := List.mem_take_iff_getElem.mp ha
        rcases Nat.lt_or_ge j i with hlt | hge
        · have := hsorted j i (by omega) hi hlt
          rw [hrange] at this
          exact UInt32.le_of_lt this
        · obtain rfl : j = i := by omega
          rw [hrange]
          exact UInt32.le_refl start
      · obtain ⟨j, hj, rfl⟩ := List.mem_drop_iff_getElem.mp ha
        have := hsorted i (i + 1 + j) hi (by omega) (by omega)
        rw [hrange] at this
        exact UInt32.not_le.mpr this
    refine ⟨stop, ?_⟩
    rw [htake, List.getLast?_take, if_neg (by omega), Nat.add_sub_cancel, hget, Option.some_or]
  · intro i hsearch
    rw [hsearch] at hfound
    obtain ⟨-, hfront, hback⟩ := hfound
    refine takeWhile_eq_take (fun a ha => decide_eq_true ?_) fun a ha => decide_eq_false ?_
    · exact UInt32.le_of_lt (Std.compare_eq_lt.mp (hfront a ha))
    · exact UInt32.not_le.mpr (Std.compare_eq_gt.mp (hback a ha))

/-- The query is the one of the gates. -/
theorem isBlockedU32_eq (f : IpFilter) (ip : UInt32) : isBlockedU32 f ip = f.isBlocked ip := by
  obtain ⟨hok, herror⟩ := takeWhile_eq_of_found f ip
  unfold isBlockedU32 IpFilter.isBlocked
  split
  · rename_i i hsearch
    obtain ⟨stop, hlast⟩ := hok i hsearch
    simp [hlast]
  · rename_i hsearch
    rw [herror 0 hsearch]
    rfl
  · rename_i i hsearch
    have hfound := BinarySearch.binarySearchBy_spec (ordered_compare f ip)
    rw [hsearch] at hfound
    obtain ⟨hle, hfront, -⟩ := hfound
    have hget : f.ranges[i]? = some f.ranges[i] := List.getElem?_eq_getElem (by omega)
    -- the range itself starts in front of the address
    have hlt : f.ranges[i].1 < ip := by
      refine Std.compare_eq_lt.mp (hfront _ (List.mem_take_iff_getElem.mpr ⟨i, ?_, rfl⟩))
      omega
    have hne : ip ≠ f.ranges[i].1 := fun heq => UInt32.lt_irrefl ip (heq ▸ hlt)
    rw [herror _ hsearch, List.getLast?_take, if_neg (by omega), Nat.succ_sub_one, hget,
      Option.some_or]
    simp [hne]

/-- The ranges behind the one that the query looks at start behind the address. -/
theorem lt_of_mem_dropWhile {f : IpFilter} {ip : UInt32} {range : UInt32 × UInt32}
    (h : range ∈ f.ranges.dropWhile fun range => range.1 ≤ ip) : ip < range.1 := by
  have hsorted := f.sorted.sublist (List.dropWhile_sublist fun range => range.1 ≤ ip)
  have hhead := List.head?_dropWhile_not (fun range => decide (range.1 ≤ ip)) f.ranges
  generalize f.ranges.dropWhile (fun range => range.1 ≤ ip) = back at h hsorted hhead
  cases back with
  | nil => cases h
  | cons first back =>
    have hfirst : ip < first.1 := by simpa using hhead
    rcases List.mem_cons.mp h with rfl | hmem
    · exact hfirst
    · exact UInt32.lt_trans hfirst ((List.pairwise_cons.mp hsorted).1 range hmem)

theorem isBlocked_iff {f : IpFilter} (hle : ∀ range ∈ f.ranges, range.1 ≤ range.2)
    (hapart : f.ranges.Pairwise fun a b => a.2 < b.1) (ip : UInt32) :
    f.isBlocked ip = true ↔ ∃ range ∈ f.ranges, range.1 ≤ ip ∧ ip ≤ range.2 := by
  have hjoin := List.takeWhile_append_dropWhile (p := fun range => decide (range.1 ≤ ip))
    (l := f.ranges)
  have hback {range : UInt32 × UInt32} (h : range ∈ f.ranges.dropWhile fun range => range.1 ≤ ip) :
      ¬range.1 ≤ ip := UInt32.not_le.mpr (lt_of_mem_dropWhile h)
  have hfront {range : UInt32 × UInt32}
      (h : range ∈ f.ranges.takeWhile fun range => range.1 ≤ ip) : range.1 ≤ ip := by
    simpa using List.mem_takeWhile_imp h
  unfold IpFilter.isBlocked
  generalize f.ranges.dropWhile (fun range => range.1 ≤ ip) = back at hjoin hback
  generalize f.ranges.takeWhile (fun range => range.1 ≤ ip) = front at hjoin hfront
  rw [← hjoin] at hle hapart ⊢
  rcases List.eq_nil_or_concat' front with rfl | ⟨front, last, rfl⟩
  · refine ⟨nofun, ?_⟩
    rintro ⟨range, hmem, hstart, -⟩
    exact absurd hstart (hback hmem)
  · obtain ⟨start, stop⟩ := last
    have hmem : (start, stop) ∈ front ++ [(start, stop)] ++ back := by simp
    have hstart : (start, stop).1 ≤ ip := hfront (by simp)
    have hlast : start ≤ stop := hle (start, stop) hmem
    rw [List.getLast?_concat]
    simp only [Bool.or_eq_true, decide_eq_true_eq, Bool.and_eq_true]
    constructor
    · rintro (rfl | hin)
      · exact ⟨_, hmem, UInt32.le_refl _, hlast⟩
      · exact ⟨_, hmem, hin⟩
    · rintro ⟨range, hmem, hin⟩
      rw [List.mem_append, List.mem_append, List.mem_singleton] at hmem
      rcases hmem with (hmem | rfl) | hmem
      · -- an earlier range ends in front of the last one
        rw [List.append_assoc] at hapart
        have hbefore : range.2 < start :=
          (List.pairwise_append.mp hapart).2.2 range hmem (start, stop) (by simp)
        exact absurd (UInt32.le_trans hstart hin.2) (UInt32.not_le.mpr hbefore)
      · exact .inr hin
      · exact absurd hin.1 (hback hmem)

theorem le_fromRanges (rs : List Range) : ∀ range ∈ (fromRanges rs).ranges, range.1 ≤ range.2 := by
  intro range hrange
  obtain ⟨r, -, rfl⟩ := List.mem_map.mp hrange
  exact r.le

theorem apart_fromRanges (rs : List Range) :
    (fromRanges rs).ranges.Pairwise fun a b => a.2.toNat + 1 < b.1.toNat :=
  List.pairwise_map.mpr (apart_mergeRanges rs)

theorem isBlockedU32_fromRanges (rs : List Range) (ip : UInt32) :
    isBlockedU32 (fromRanges rs) ip = true ↔ ∃ r ∈ rs, r.start ≤ ip ∧ ip ≤ r.stop := by
  have hapart : (fromRanges rs).ranges.Pairwise fun a b => a.2 < b.1 :=
    (apart_fromRanges rs).imp fun hab => UInt32.lt_iff_toNat_lt.mpr (by omega)
  rw [isBlockedU32_eq, ← mem_mergeRanges, isBlocked_iff (le_fromRanges rs) hapart]
  simp only [fromRanges, List.mem_map, exists_exists_and_eq_and]

/-- The filter that comes from a text, under every level and for every address: it blocks what some
    line says that blocks, and the ranges it keeps are in order, with a free address at least
    between any two of them. -/
theorem blocklist_union (text : List Char) (level : UInt8) :
    (∀ ip, isBlockedU32 (parse text level) ip = true ↔
      ∃ line ∈ lines text, ∃ range n, RangeLine line range n ∧ n < level.toNat ∧
        range.start ≤ ip ∧ ip ≤ range.stop) ∧
    (∀ range ∈ (parse text level).ranges, range.1 ≤ range.2) ∧
    (parse text level).ranges.Pairwise fun a b => a.2.toNat + 1 < b.1.toNat := by
  refine ⟨fun ip => ?_, le_fromRanges _, apart_fromRanges _⟩
  rw [parse, isBlockedU32_fromRanges]
  simp only [List.mem_filterMap, parseLine_iff]
  constructor
  · rintro ⟨range, ⟨line, hline, n, hrange, hn⟩, hin⟩
    exact ⟨line, hline, range, n, hrange, hn, hin⟩
  · rintro ⟨line, hline, range, n, hrange, hn, hin⟩
    exact ⟨range, ⟨line, hline, n, hrange, hn⟩, hin⟩

end PadMule.Engine.Blocklist
