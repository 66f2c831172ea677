import PadMule.Lib.Text
import PadMule.Engine.PeerSources
import PadMule.Engine.UniqueDest

/-
  `mule-files/src/ipfilter.rs`: the lines of an ipfilter.dat and of a .p2p file.

  `RangeLine` says what a line means, without the parser: which range it names, and at which level.
  The parser tells the two kinds of lines apart by trial, with commas, colons and dashes that a
  description may have too; it takes exactly the lines whose level is below the one that is set
  (`parseLine_iff`), and no line means two things (`RangeLine.unique`).
-/

namespace PadMule.Engine.Blocklist

open Text

/-! ## The parser -/

/-- The level of a line that names none. -/
def DEFAULT_LINE_LEVEL : Nat := 100

/-- A range that is not reversed, ends included. -/
structure Range where
  start : UInt32
  stop : UInt32
  le : start ≤ stop
deriving DecidableEq

/-- One round of the loop of `parse_ipv4`. -/
def pushOctet (octets : List UInt32) (part : List Char) : Option (List UInt32) :=
  if octets.length = 4 then none
  else
    match parseUint (2 ^ 32) (trim isWhitespace part) with
    | none => none
    | some v => if v > 255 then none else some (octets ++ [.ofNat v])

/-- An address from its octets. -/
def ofOctets (a b c d : UInt32) : UInt32 := (a <<< 24) ||| (b <<< 16) ||| (c <<< 8) ||| d

def parseIpv4 (s : List Char) : Option UInt32 :=
  match ((trim isWhitespace s).splitOn '.').foldlM pushOctet [] with
  | some [a, b, c, d] => some (ofOctets a b c d)
  | _ => none

def parseRange (s : List Char) : Option Range :=
  match splitOnce '-' s with
  | none => none
  | some (a, b) =>
    match parseIpv4 a, parseIpv4 b with
    | some start, some stop => if h : start ≤ stop then some ⟨start, stop, h⟩ else none
    | _, _ => none

/-- The level in the second field of a line. -/
def parseLevel (field : Option (List Char)) : Nat :=
  (field.bind fun s => parseUint (2 ^ 32) (trim isWhitespace s)).getD DEFAULT_LINE_LEVEL

/-- One round of the loop of `IpFilter::parse`: the range that a line adds. -/
def parseLine (level : UInt8) (raw : List Char) : Option Range :=
  let line := trim isWhitespace raw
  if line = [] ∨ line.head? = some '#' then none
  else
    let commas := splitn 3 ',' line
    match (commas[0]?).bind parseRange with
    | some range =>
      let lvl := parseLevel commas[1]?
      if lvl ≤ 255 ∧ UInt8.ofNat lvl < level then some range else none
    | none =>
      match rsplitOnce ':' line with
      | none => none
      | some (_, text) => if level > 0 then parseRange text else none

/-! ## What a line says -/

/-- A number and the white space around it. The number is one as the standard library reads it:
    zeros may stand in front, and a plus before them. -/
def Field (s : List Char) (n : Nat) : Prop :=
  ∃ front core back, Blank isWhitespace front ∧ Blank isWhitespace back ∧
    s = front ++ core ++ back ∧ Number core n

/-- The dotted quad of an address. -/
def Quad (s : List Char) (ip : UInt32) : Prop :=
  ∃ a b c d, s = a ++ '.' :: (b ++ '.' :: (c ++ '.' :: d)) ∧
    Field a (octet ip 0) ∧ Field b (octet ip 1) ∧ Field c (octet ip 2) ∧ Field d (octet ip 3)

def RangeText (s : List Char) (range : Range) : Prop :=
  ∃ a b, s = a ++ '-' :: b ∧ Quad a range.start ∧ Quad b range.stop

/-- The level that is named behind a range. -/
inductive Level : List Char → Nat → Prop
  | absent : Level [] DEFAULT_LINE_LEVEL
  | named {field rest : List Char} {n : Nat} (hfield : Field field n) (hn : n < 2 ^ 32)
      (hrest : Ends ',' rest) : Level (',' :: (field ++ rest)) n
  | unreadable {field rest : List Char} (hcomma : ',' ∉ field)
      (hfield : ∀ n < 2 ^ 32, ¬Field field n) (hrest : Ends ',' rest) :
      Level (',' :: (field ++ rest)) DEFAULT_LINE_LEVEL

/-- White space and a `#`. -/
def Comment (s : List Char) : Prop :=
  ∃ front rest, Blank isWhitespace front ∧ s = front ++ '#' :: rest

/-- A line with a range, and the range's level: a line of an ipfilter.dat, or one of a .p2p file,
    where a description comes first. -/
inductive RangeLine : List Char → Range → Nat → Prop
  | dat {text tail : List Char} {range : Range} {n : Nat} (hrange : RangeText text range)
      (hlevel : Level tail n) : RangeLine (text ++ tail) range n
  | p2p {desc text : List Char} {range : Range} (hrange : RangeText text range)
      (hcomment : ¬Comment desc)
      (hfirst : ∀ front rest, desc = front ++ ',' :: rest → ',' ∉ front →
        ∀ other, ¬RangeText front other) : RangeLine (desc ++ ':' :: text) range 0

/-! ## Numbers and addresses -/

theorem not_blank_of_isDigit {c : Char} (h : c.isDigit) : isWhitespace c = false := by
  obtain ⟨hlow, hhigh⟩ := Char.isDigit_iff_toNat.mp h
  have hlow' : 48 ≤ c.toNat := hlow
  have hhigh' : c.toNat ≤ 57 := hhigh
  simp [isWhitespace]
  omega

theorem mem_of_number {s : List Char} {n : Nat} (h : Number s n) {c : Char} (hc : c ∈ s) :
    c = '+' ∨ c.isDigit := by
  obtain ⟨ds, hds, rfl | rfl⟩ := h
  · exact .inr (hds.digits c hc)
  · rcases List.mem_cons.mp hc with rfl | hc
    · exact .inl rfl
    · exact .inr (hds.digits c hc)

/-- The characters of a field. -/
theorem mem_of_field {s : List Char} {n : Nat} (h : Field s n) {c : Char} (hc : c ∈ s) :
    isWhitespace c ∨ c = '+' ∨ c.isDigit := by
  obtain ⟨front, core, back, hfront, hback, rfl, hcore⟩ := h
  rw [List.mem_append, List.mem_append] at hc
  rcases hc with (hc | hc) | hc
  · exact .inl (hfront c hc)
  · exact .inr (mem_of_number hcore hc)
  · exact .inl (hback c hc)

theorem field_iff {s : List Char} {n : Nat} : Field s n ↔ Number (trim isWhitespace s) n := by
  constructor
  · rintro ⟨front, core, back, hfront, hback, rfl, hcore⟩
    have hplain : ∀ c ∈ core, isWhitespace c = false := by
      intro c hc
      rcases mem_of_number hcore hc with rfl | hdigit
      · decide
      · exact not_blank_of_isDigit hdigit
    rwa [trim_append_blank _ hback, trim_blank_append _ hfront, trim_of_forall _ hplain]
  · intro h
    obtain ⟨front, back, hfront, hback, hs⟩ := exists_trim isWhitespace s
    exact ⟨front, _, back, hfront, hback, hs, h⟩

theorem parseUint_trim_iff {bound n : Nat} {s : List Char} :
    parseUint bound (trim isWhitespace s) = some n ↔ n < bound ∧ Field s n := by
  rw [parseUint_eq_some_iff, field_iff]

theorem pushOctet_iff {octets octets' : List UInt32} {part : List Char} :
    pushOctet octets part = some octets' ↔
      octets.length ≠ 4 ∧ ∃ v : UInt32, v.toNat < 256 ∧ Field part v.toNat ∧
        octets' = octets ++ [v] := by
  unfold pushOctet
  split_ifs with hfull
  · simp [hfull]
  · cases hread : parseUint (2 ^ 32) (trim isWhitespace part) with
    | none =>
      refine ⟨nofun, ?_⟩
      rintro ⟨-, v, -, hfield, -⟩
      rw [parseUint_trim_iff.mpr ⟨v.toNat_lt, hfield⟩] at hread
      cases hread
    | some n =>
      obtain ⟨hn, hfield⟩ := parseUint_trim_iff.mp hread
      have hval : (UInt32.ofNat n).toNat = n := UInt32.toNat_ofNat_of_lt' hn
      dsimp only
      constructor
      · intro h
        split_ifs at h with hbig
        cases h
        exact ⟨hfull, _, by omega, by rwa [hval], rfl⟩
      · rintro ⟨-, v, hv, hfield', rfl⟩
        have hsame : n = v.toNat := by
          have hread' := parseUint_trim_iff.mpr ⟨v.toNat_lt, hfield'⟩
          exact Option.some.inj (hread.symm.trans hread')
        rw [if_neg (by omega), hsame, UInt32.ofNat_toNat]

/-- As long as there are four at most, the loop reads every part. -/
theorem foldlM_pushOctet_iff {parts : List (List Char)} {octets octets' : List UInt32}
    (h : octets'.length = 4) : parts.foldlM pushOctet octets = some octets' ↔
      ∃ new, octets' = octets ++ new ∧
        List.Forall₂ (fun part v => v.toNat < 256 ∧ Field part v.toNat) parts new := by
  induction parts generalizing octets with
  | nil =>
    rw [List.foldlM_nil]
    constructor
    · intro heq
      exact ⟨[], by simpa using heq.symm, .nil⟩
    · rintro ⟨new, rfl, hnil⟩
      cases hnil
      simp
  | cons part parts ih =>
    rw [List.foldlM_cons, Option.bind_eq_bind, Option.bind_eq_some_iff]
    constructor
    · rintro ⟨next, hpush, hrest⟩
      obtain ⟨-, v, hv, hfield, rfl⟩ := pushOctet_iff.mp hpush
      obtain ⟨new, heq, hnew⟩ := ih.mp hrest
      exact ⟨v :: new, by simpa using heq, .cons ⟨hv, hfield⟩ hnew⟩
    · rintro ⟨new, heq, hnew⟩
      cases hnew with
      | cons hv hrest =>
        rename_i v new
        refine ⟨octets ++ [v], pushOctet_iff.mpr ⟨?_, v, hv.1, hv.2, rfl⟩, ih.mpr ⟨new, ?_, hrest⟩⟩
        · intro hfull
          rw [heq, List.length_append, List.length_cons] at h
          omega
        · simpa using heq

theorem toNat_ofOctets {a b c d : UInt32} (ha : a.toNat < 256) (hb : b.toNat < 256)
    (hc : c.toNat < 256) (hd : d.toNat < 256) : (ofOctets a b c d).toNat =
      a.toNat * 2 ^ 24 + b.toNat * 2 ^ 16 + c.toNat * 2 ^ 8 + d.toNat := by
  have hshift (x : UInt32) (hx : x.toNat < 256) (k : UInt32) (hk : k.toNat ≤ 24) :
      (x <<< k).toNat = x.toNat * 2 ^ k.toNat := by
    have hpow : 2 ^ k.toNat ≤ 2 ^ 24 := Nat.pow_le_pow_right (by decide) hk
    have hlt : x.toNat * 2 ^ k.toNat < 2 ^ 32 := by
      calc x.toNat * 2 ^ k.toNat ≤ x.toNat * 2 ^ 24 := Nat.mul_le_mul_left _ hpow
        _ < 2 ^ 32 := by omega
    have hmod : k.toNat % 32 = k.toNat := Nat.mod_eq_of_lt (by omega)
    rw [UInt32.toNat_shiftLeft, hmod, Nat.shiftLeft_eq, Nat.mod_eq_of_lt hlt]
  have hor (n k m : Nat) (hm : m < 2 ^ k) : n * 2 ^ k ||| m = n * 2 ^ k + m := by
    rw [← Nat.shiftLeft_eq, Nat.shiftLeft_add_eq_or_of_lt hm]
  unfold ofOctets
  rw [UInt32.toNat_or, UInt32.toNat_or, UInt32.toNat_or, hshift a ha 24 (by decide),
    hshift b hb 16 (by decide), hshift c hc 8 (by decide), Nat.or_assoc, Nat.or_assoc]
  show a.toNat * 2 ^ 24 ||| (b.toNat * 2 ^ 16 ||| (c.toNat * 2 ^ 8 ||| d.toNat)) = _
  rw [hor c.toNat 8 _ (by omega), hor b.toNat 16 _ (by omega), hor a.toNat 24 _ (by omega)]
  omega

theorem octet_ofOctets {a b c d : UInt32} (ha : a.toNat < 256) (hb : b.toNat < 256)
    (hc : c.toNat < 256) (hd : d.toNat < 256) :
    octet (ofOctets a b c d) 0 = a.toNat ∧ octet (ofOctets a b c d) 1 = b.toNat ∧
      octet (ofOctets a b c d) 2 = c.toNat ∧ octet (ofOctets a b c d) 3 = d.toNat := by
  simp only [octet, toNat_ofOctets ha hb hc hd]
  omega

/-- Octet `i` of an address as a number of its own. -/
def octetWord (ip : UInt32) (i : Nat) : UInt32 := .ofNat (octet ip i)

theorem octet_lt (ip : UInt32) (i : Nat) : octet ip i < 256 := Nat.mod_lt _ (by decide)

theorem toNat_octetWord (ip : UInt32) (i : Nat) : (octetWord ip i).toNat = octet ip i := by
  exact UInt32.toNat_ofNat_of_lt' ((octet_lt ip i).trans (by decide))

theorem ofOctets_octetWord (ip : UInt32) :
    ofOctets (octetWord ip 0) (octetWord ip 1) (octetWord ip 2) (octetWord ip 3) = ip := by
  have hlt (i : Nat) : (octetWord ip i).toNat < 256 := by
    rw [toNat_octetWord]
    exact octet_lt ip i
  apply UInt32.toNat.inj
  rw [toNat_ofOctets (hlt 0) (hlt 1) (hlt 2) (hlt 3)]
  simp only [toNat_octetWord, octet]
  have := ip.toNat_lt
  omega

theorem not_mem_field {s : List Char} {n : Nat} (h : Field s n) {c : Char}
    (hblank : isWhitespace c = false) (hplus : c ≠ '+') (hdigit : ¬c.isDigit) : c ∉ s := by
  intro hc
  rcases mem_of_field h hc with hb | hp | hd
  · rw [hblank] at hb
    cases hb
  · exact hplus hp
  · exact hdigit hd

theorem dot_notMem {s : List Char} {n : Nat} (h : Field s n) : '.' ∉ s :=
  not_mem_field h (by decide) (by decide) (by decide)

theorem field_dropWhile {s : List Char} {n : Nat} :
    Field (s.dropWhile isWhitespace) n ↔ Field s n := by
  rw [field_iff, field_iff, trim_dropWhile]

theorem field_rdropWhile {s : List Char} {n : Nat} :
    Field (s.rdropWhile isWhitespace) n ↔ Field s n := by
  rw [field_iff, field_iff, trim_rdropWhile]

theorem field_pad {s : List Char} {n : Nat} (h : Field s n) {front back : List Char}
    (hfront : Blank isWhitespace front) (hback : Blank isWhitespace back) :
    Field (front ++ s ++ back) n := by
  rw [field_iff] at h ⊢
  rwa [trim_append_blank _ hback, trim_blank_append _ hfront]

theorem blank_nil : Blank isWhitespace [] := fun _ h => absurd h List.not_mem_nil

theorem parseIpv4_iff {s : List Char} {ip : UInt32} : parseIpv4 s = some ip ↔ Quad s ip := by
  unfold parseIpv4
  constructor
  · intro h
    split at h
    · rename_i a b c d hparts
      cases h
      obtain ⟨new, rfl, hnew⟩ := (foldlM_pushOctet_iff (by simp)).mp hparts
      obtain ⟨front, back, hfront, hback, hs⟩ := exists_trim isWhitespace s
      have hjoin : ['.'].intercalate ((trim isWhitespace s).splitOn '.') = trim isWhitespace s :=
        List.intercalate_splitOn '.'
      generalize (trim isWhitespace s).splitOn '.' = parts at hnew hjoin
      match hnew with
      | .cons ha (.cons hb (.cons hc (.cons hd .nil))) =>
        rename_i pa pb pc pd
        obtain ⟨h0, h1, h2, h3⟩ := octet_ofOctets ha.1 hb.1 hc.1 hd.1
        refine ⟨front ++ pa, pb, pc, pd ++ back, ?_, ?_, ?_, ?_, ?_⟩
        · rw [hs, ← hjoin]
          simp [List.intercalate]
        · rw [h0, ← List.append_nil (front ++ pa)]
          exact field_pad ha.2 hfront blank_nil
        · rw [h1]
          exact hb.2
        · rw [h2]
          exact hc.2
        · rw [h3]
          show Field ([] ++ pd ++ back) _
          exact field_pad hd.2 blank_nil hback
    · cases h
  · rintro ⟨a, b, c, d, rfl, ha, hb, hc, hd⟩
    have hdot : isWhitespace '.' = false := by decide
    have hd' : ((b ++ '.' :: (c ++ '.' :: d))).rdropWhile isWhitespace =
        b ++ '.' :: (c ++ '.' :: d.rdropWhile isWhitespace) := by
      rw [rdropWhile_append_cons _ hdot, rdropWhile_append_cons _ hdot]
    rw [trim_append_cons _ hdot, hd']
    have hsplit : (a.dropWhile isWhitespace ++ '.' :: (b ++ '.' ::
        (c ++ '.' :: d.rdropWhile isWhitespace))).splitOn '.' =
          [a.dropWhile isWhitespace, b, c, d.rdropWhile isWhitespace] := by
      rw [List.splitOn_append_cons_self_of_not_mem (dot_notMem (field_dropWhile.mpr ha)),
        List.splitOn_append_cons_self_of_not_mem (dot_notMem hb),
        List.splitOn_append_cons_self_of_not_mem (dot_notMem hc),
        List.splitOn_eq_singleton (dot_notMem (field_rdropWhile.mpr hd))]
    have hword {part : List Char} {i : Nat} (h : Field part (octet ip i)) :
        (octetWord ip i).toNat < 256 ∧ Field part (octetWord ip i).toNat := by
      rw [toNat_octetWord]
      exact ⟨octet_lt ip i, h⟩
    have hread : [a.dropWhile isWhitespace, b, c, d.rdropWhile isWhitespace].foldlM pushOctet [] =
        some [octetWord ip 0, octetWord ip 1, octetWord ip 2, octetWord ip 3] := by
      refine (foldlM_pushOctet_iff rfl).mpr ⟨_, rfl, ?_⟩
      exact .cons (hword (field_dropWhile.mpr ha)) (.cons (hword hb) (.cons (hword hc)
        (.cons (hword (field_rdropWhile.mpr hd)) .nil)))
    rw [hsplit, hread]
    exact congrArg some (ofOctets_octetWord ip)

/-! ## Ranges -/

/-- The characters of a range. -/
theorem not_mem_quad {s : List Char} {ip : UInt32} (h : Quad s ip) {c : Char}
    (hblank : isWhitespace c = false) (hplus : c ≠ '+') (hdigit : ¬c.isDigit) (hdot : c ≠ '.') :
    c ∉ s := by
  obtain ⟨a, b, e, d, rfl, ha, hb, he, hd⟩ := h
  have hfield {t : List Char} {n : Nat} (ht : Field t n) : c ∉ t :=
    not_mem_field ht hblank hplus hdigit
  simp [hfield ha, hfield hb, hfield he, hfield hd, hdot]

theorem not_mem_range {s : List Char} {range : Range} (h : RangeText s range) {c : Char}
    (hblank : isWhitespace c = false) (hplus : c ≠ '+') (hdigit : ¬c.isDigit) (hdot : c ≠ '.')
    (hdash : c ≠ '-') : c ∉ s := by
  obtain ⟨a, b, rfl, ha, hb⟩ := h
  simp [not_mem_quad ha hblank hplus hdigit hdot, not_mem_quad hb hblank hplus hdigit hdot, hdash]

theorem parseRange_iff {s : List Char} {range : Range} :
    parseRange s = some range ↔ RangeText s range := by
  unfold parseRange
  constructor
  · intro h
    cases hcut : splitOnce '-' s with
    | none =>
      rw [hcut] at h
      cases h
    | some cut =>
      obtain ⟨a, b⟩ := cut
      rw [hcut] at h
      dsimp only at h
      split at h
      · rename_i start stop ha hb
        split_ifs at h with hle
        cases h
        exact ⟨a, b, (splitOnce_eq_some_iff.mp hcut).1, parseIpv4_iff.mp ha, parseIpv4_iff.mp hb⟩
      · cases h
  · rintro ⟨a, b, rfl, ha, hb⟩
    rw [splitOnce_append (not_mem_quad ha (by decide) (by decide) (by decide) (by decide))]
    dsimp only
    rw [parseIpv4_iff.mpr ha, parseIpv4_iff.mpr hb]
    exact dif_pos range.le

theorem parseIpv4_dropWhile (s : List Char) :
    parseIpv4 (s.dropWhile isWhitespace) = parseIpv4 s := by
  rw [parseIpv4, trim_dropWhile, ← parseIpv4]

theorem parseIpv4_rdropWhile (s : List Char) :
    parseIpv4 (s.rdropWhile isWhitespace) = parseIpv4 s := by
  rw [parseIpv4, trim_rdropWhile, ← parseIpv4]

/-- White space in front of a range does not matter. -/
theorem parseRange_dropWhile (s : List Char) :
    parseRange (s.dropWhile isWhitespace) = parseRange s := by
  unfold parseRange
  cases hcut : splitOnce '-' s with
  | none =>
    have hdash := splitOnce_eq_none_iff.mp hcut
    rw [splitOnce_eq_none_iff.mpr fun h => hdash ((List.dropWhile_suffix _).subset h)]
  | some cut =>
    obtain ⟨a, b⟩ := cut
    obtain ⟨rfl, hdash⟩ := splitOnce_eq_some_iff.mp hcut
    rw [dropWhile_append_cons _ (by decide),
      splitOnce_append fun h => hdash ((List.dropWhile_suffix _).subset h)]
    dsimp only
    rw [parseIpv4_dropWhile]

theorem parseRange_rdropWhile (s : List Char) :
    parseRange (s.rdropWhile isWhitespace) = parseRange s := by
  unfold parseRange
  cases hcut : splitOnce '-' s with
  | none =>
    have hdash := splitOnce_eq_none_iff.mp hcut
    rw [splitOnce_eq_none_iff.mpr fun h => hdash ((List.rdropWhile_prefix _ _).subset h)]
  | some cut =>
    obtain ⟨a, b⟩ := cut
    obtain ⟨rfl, hdash⟩ := splitOnce_eq_some_iff.mp hcut
    rw [rdropWhile_append_cons _ (by decide), splitOnce_append hdash]
    dsimp only
    rw [parseIpv4_rdropWhile]

/-! ## Lines -/

theorem parseLevel_some_iff {field : List Char} {n : Nat} (hn : n < 2 ^ 32) (h : Field field n) :
    parseLevel (some field) = n := by
  unfold parseLevel
  rw [Option.bind_some, parseUint_trim_iff.mpr ⟨hn, h⟩, Option.getD_some]

theorem parseLevel_of_unreadable {field : List Char} (h : ∀ n < 2 ^ 32, ¬Field field n) :
    parseLevel (some field) = DEFAULT_LINE_LEVEL := by
  unfold parseLevel
  have hread : parseUint (2 ^ 32) (trim isWhitespace field) = none := by
    refine Option.eq_none_iff_forall_ne_some.mpr fun n hread => ?_
    obtain ⟨hn, hfield⟩ := parseUint_trim_iff.mp hread
    exact h n hn hfield
  rw [Option.bind_some, hread, Option.getD_none]

theorem parseLevel_rdropWhile (field : List Char) :
    parseLevel (some (field.rdropWhile isWhitespace)) = parseLevel (some field) := by
  unfold parseLevel
  rw [Option.bind_some, Option.bind_some, trim_rdropWhile]

theorem comma_notMem {s : List Char} {n : Nat} (h : Field s n) : ',' ∉ s :=
  not_mem_field h (by decide) (by decide) (by decide)

/-- The level that is read is the one that is named. -/
theorem level_parseLevel {field rest : List Char} (hcomma : ',' ∉ field) (hrest : Ends ',' rest) :
    Level (',' :: (field ++ rest)) (parseLevel (some field)) := by
  by_cases hfield : ∃ n < 2 ^ 32, Field field n
  · obtain ⟨n, hn, hfield⟩ := hfield
    rw [parseLevel_some_iff hn hfield]
    exact .named hfield hn hrest
  · have hnone : ∀ n < 2 ^ 32, ¬Field field n := fun n hn h => hfield ⟨n, hn, h⟩
    rw [parseLevel_of_unreadable hnone]
    exact .unreadable hcomma hnone hrest

/-- What follows the first field of a line: nothing, or one more field and what follows that. -/
def Tail (tail : List Char) : Prop :=
  tail = [] ∨ ∃ field rest, tail = ',' :: (field ++ rest) ∧ ',' ∉ field ∧ Ends ',' rest

theorem exists_fields (raw : List Char) :
    ∃ first tail, raw = first ++ tail ∧ ',' ∉ first ∧ Tail tail := by
  cases hfirst : splitOnce ',' raw with
  | none => exact ⟨raw, [], by simp, splitOnce_eq_none_iff.mp hfirst, .inl rfl⟩
  | some cut =>
    obtain ⟨first, back⟩ := cut
    obtain ⟨rfl, hcomma⟩ := splitOnce_eq_some_iff.mp hfirst
    refine ⟨first, _, rfl, hcomma, .inr ?_⟩
    cases hsecond : splitOnce ',' back with
    | none => exact ⟨back, [], by simp, splitOnce_eq_none_iff.mp hsecond, .inl rfl⟩
    | some cut =>
      obtain ⟨field, desc⟩ := cut
      obtain ⟨rfl, hcomma'⟩ := splitOnce_eq_some_iff.mp hsecond
      exact ⟨field, _, rfl, hcomma', .inr ⟨desc, rfl⟩⟩

/-- What the parser takes the first two fields of a trimmed line for. -/
theorem splitn_trim {first tail : List Char} (hfirst : ',' ∉ first) (htail : Tail tail) :
    let commas := splitn 3 ',' (trim isWhitespace (first ++ tail))
    (commas[0]?).bind parseRange = parseRange first ∧ Level tail (parseLevel commas[1]?) := by
  have hcomma : isWhitespace ',' = false := by decide
  have hdrop {s : List Char} (h : ',' ∉ s) : ',' ∉ s.dropWhile isWhitespace := fun hmem =>
    h ((List.dropWhile_suffix _).subset hmem)
  have hrdrop {s : List Char} (h : ',' ∉ s) : ',' ∉ s.rdropWhile isWhitespace := fun hmem =>
    h ((List.rdropWhile_prefix _ _).subset hmem)
  dsimp only
  rcases htail with rfl | ⟨field, rest, rfl, hfield, rfl | ⟨desc, rfl⟩⟩
  · rw [List.append_nil, trim, splitn_of_notMem (hrdrop (hdrop hfirst))]
    refine ⟨?_, .absent⟩
    show parseRange _ = _
    rw [parseRange_rdropWhile, parseRange_dropWhile]
  · rw [List.append_nil, trim_append_cons _ hcomma, splitn_append (hdrop hfirst),
      splitn_of_notMem (hrdrop hfield)]
    refine ⟨parseRange_dropWhile first, ?_⟩
    show Level _ (parseLevel (some _))
    rw [parseLevel_rdropWhile]
    have hlevel := level_parseLevel hfield (.inl rfl)
    rwa [List.append_nil] at hlevel
  · rw [trim_append_cons _ hcomma, rdropWhile_append_cons _ hcomma, splitn_append (hdrop hfirst),
      splitn_append hfield]
    exact ⟨parseRange_dropWhile first, level_parseLevel hfield (.inr ⟨desc, rfl⟩)⟩

theorem Level.ends {tail : List Char} {n : Nat} (h : Level tail n) : Ends ',' tail := by
  cases h with
  | absent => exact .inl rfl
  | named => exact .inr ⟨_, rfl⟩
  | unreadable => exact .inr ⟨_, rfl⟩

/-- A level is one number. -/
theorem Level.unique {tail : List Char} {n m : Nat} (hn : Level tail n) (hm : Level tail m) :
    n = m := by
  -- both are what is read from the one field
  have hread {tail : List Char} {n : Nat} (h : Level tail n) : tail = [] ∧ n = DEFAULT_LINE_LEVEL ∨
      ∃ field rest, tail = ',' :: (field ++ rest) ∧ ',' ∉ field ∧ Ends ',' rest ∧
        n = parseLevel (some field) := by
    cases h with
    | absent => exact .inl ⟨rfl, rfl⟩
    | named hfield hlt hrest =>
      exact .inr ⟨_, _, rfl, comma_notMem hfield, hrest, (parseLevel_some_iff hlt hfield).symm⟩
    | unreadable hcomma hfield hrest =>
      exact .inr ⟨_, _, rfl, hcomma, hrest, (parseLevel_of_unreadable hfield).symm⟩
  rcases hread hn with ⟨rfl, rfl⟩ | ⟨field, rest, rfl, hcomma, hrest, rfl⟩
  · rcases hread hm with ⟨-, rfl⟩ | ⟨_, _, htail, -⟩
    · rfl
    · cases htail
  · rcases hread hm with ⟨htail, -⟩ | ⟨field', rest', htail, hcomma', hrest', rfl⟩
    · cases htail
    · obtain ⟨rfl, -⟩ := field_unique hcomma hcomma' hrest hrest' (List.cons.inj htail).2
      rfl

theorem dash_mem {s : List Char} {range : Range} (h : RangeText s range) : '-' ∈ s := by
  obtain ⟨a, b, rfl, -, -⟩ := h
  simp

theorem sharp_notMem {s : List Char} {range : Range} (h : RangeText s range) : '#' ∉ s :=
  not_mem_range h (by decide) (by decide) (by decide) (by decide) (by decide)

theorem comma_notMem_range {s : List Char} {range : Range} (h : RangeText s range) : ',' ∉ s :=
  not_mem_range h (by decide) (by decide) (by decide) (by decide) (by decide)

theorem colon_notMem_range {s : List Char} {range : Range} (h : RangeText s range) : ':' ∉ s :=
  not_mem_range h (by decide) (by decide) (by decide) (by decide) (by decide)

theorem Tail.ends {tail : List Char} (h : Tail tail) : Ends ',' tail := by
  rcases h with rfl | ⟨field, rest, rfl, -⟩
  · exact .inl rfl
  · exact .inr ⟨_, rfl⟩

theorem comment_iff {s : List Char} : (trim isWhitespace s).head? = some '#' ↔ Comment s :=
  head_trim_iff _ (by decide)

/-- A range is no comment, whatever stands behind it. -/
theorem not_comment_range {s : List Char} {range : Range} (h : RangeText s range)
    (tail : List Char) : ¬Comment (s ++ tail) := by
  rintro ⟨front, rest, hfront, heq⟩
  -- the sign is behind the range, so the range is in front of it, and its dash is not blank
  rcases List.append_eq_append_iff.mp heq with ⟨more, rfl, -⟩ | ⟨more, rfl, htail⟩
  · exact absurd (hfront '-' (List.mem_append_left _ (dash_mem h))) (by decide)
  · cases more with
    | nil =>
      rw [List.append_nil] at h
      exact absurd (hfront '-' (dash_mem h)) (by decide)
    | cons c more =>
      cases htail
      exact sharp_notMem h (by simp)

theorem not_comment_p2p {desc : List Char} (h : ¬Comment desc) (text : List Char) :
    ¬Comment (desc ++ ':' :: text) := by
  rintro ⟨front, rest, hfront, heq⟩
  rcases List.append_eq_append_iff.mp heq with ⟨more, rfl, hmore⟩ | ⟨more, rfl, hmore⟩
  · cases more with
    | nil => cases hmore
    | cons c more =>
      cases hmore
      exact absurd (hfront ':' (by simp)) (by decide)
  · cases more with
    | nil => cases hmore
    | cons c more =>
      cases hmore
      exact h ⟨front, more, hfront, rfl⟩

/-- No description makes a range of what stands in front of its first comma. -/
theorem parseRange_first {desc text first tail : List Char} {range : Range}
    (hrange : RangeText text range)
    (hdesc : ∀ front rest, desc = front ++ ',' :: rest → ',' ∉ front →
      ∀ other, ¬RangeText front other)
    (heq : desc ++ ':' :: text = first ++ tail) (hcomma : ',' ∉ first) (htail : Ends ',' tail) :
    parseRange first = none := by
  refine Option.eq_none_iff_forall_ne_some.mpr fun other hread => ?_
  have hfirst := parseRange_iff.mp hread
  cases hcut : splitOnce ',' desc with
  | none =>
    -- the description has no comma and neither has the range, so the first field is the line
    have hline : ',' ∉ desc ++ ':' :: text := by
      simp [splitOnce_eq_none_iff.mp hcut, comma_notMem_range hrange]
    obtain ⟨rfl, -⟩ := field_unique hline hcomma (.inl rfl) htail
      ((List.append_nil _).trans heq)
    exact colon_notMem_range hfirst (by simp)
  | some cut =>
    obtain ⟨front, rest⟩ := cut
    obtain ⟨rfl, hfront⟩ := splitOnce_eq_some_iff.mp hcut
    rw [List.append_assoc, List.cons_append] at heq
    obtain ⟨rfl, -⟩ := field_unique hfront hcomma (.inr ⟨_, rfl⟩) htail heq
    exact hdesc front rest rfl hfront other hfirst

/-- A comment names no range. -/
theorem not_rangeLine_of_comment {raw : List Char} (h : Comment raw) (range : Range) (n : Nat) :
    ¬RangeLine raw range n := by
  intro hline
  cases hline with
  | dat hrange hlevel => exact not_comment_range hrange _ h
  | p2p hrange hcomment hdesc => exact not_comment_p2p hcomment _ h

/-- No line can be read in two ways. -/
theorem RangeLine.unique {raw : List Char} {range range' : Range} {n n' : Nat}
    (h : RangeLine raw range n) (h' : RangeLine raw range' n') : range = range' ∧ n = n' := by
  cases h with
  | dat hrange hlevel =>
    rename_i text tail
    generalize hraw : text ++ tail = raw at h'
    cases h' with
    | dat hrange' hlevel' =>
      obtain ⟨rfl, rfl⟩ := field_unique (comma_notMem_range hrange) (comma_notMem_range hrange')
        hlevel.ends hlevel'.ends hraw
      have hread := (parseRange_iff.mpr hrange).symm.trans (parseRange_iff.mpr hrange')
      exact ⟨Option.some.inj hread, hlevel.unique hlevel'⟩
    | p2p hrange' _ hdesc' =>
      have hnone := parseRange_first hrange' hdesc' hraw.symm (comma_notMem_range hrange)
        hlevel.ends
      rw [parseRange_iff.mpr hrange] at hnone
      cases hnone
  | p2p hrange hcomment hdesc =>
    rename_i desc text
    generalize hraw : desc ++ ':' :: text = raw at h'
    cases h' with
    | dat hrange' hlevel' =>
      have hnone := parseRange_first hrange hdesc hraw (comma_notMem_range hrange') hlevel'.ends
      rw [parseRange_iff.mpr hrange'] at hnone
      cases hnone
    | p2p hrange' _ _ =>
      rename_i desc' text' _ _
      have hcut := rsplitOnce_eq_some_iff.mpr ⟨hraw.symm, colon_notMem_range hrange⟩
      have hcut' : rsplitOnce ':' (desc' ++ ':' :: text') = some (desc', text') :=
        rsplitOnce_eq_some_iff.mpr ⟨rfl, colon_notMem_range hrange'⟩
      cases hcut.symm.trans hcut'
      have hread := (parseRange_iff.mpr hrange).symm.trans (parseRange_iff.mpr hrange')
      exact ⟨Option.some.inj hread, rfl⟩

/-- The parser's way through a line, by its first field. -/
theorem parseLine_eq (level : UInt8) {first tail : List Char} (hfirst : ',' ∉ first)
    (htail : Tail tail) : ∃ n, Level tail n ∧ parseLine level (first ++ tail) =
        let line := trim isWhitespace (first ++ tail)
        if line = [] ∨ line.head? = some '#' then none
        else
          match parseRange first with
          | some range => if n < level.toNat then some range else none
          | none =>
            match rsplitOnce ':' line with
            | none => none
            | some (_, text) => if level > 0 then parseRange text else none := by
  obtain ⟨hrange, hlevel⟩ := splitn_trim hfirst htail
  refine ⟨_, hlevel, ?_⟩
  have hlt (n : Nat) : n ≤ 255 ∧ UInt8.ofNat n < level ↔ n < level.toNat := by
    have := level.toNat_lt
    rw [UInt8.lt_iff_toNat_lt]
    constructor
    · rintro ⟨hn, h⟩
      rwa [UInt8.toNat_ofNat_of_lt' (by simp only [UInt8.size]; omega)] at h
    · intro h
      rw [UInt8.toNat_ofNat_of_lt' (by simp only [UInt8.size]; omega)]
      omega
  unfold parseLine
  dsimp only
  rw [hrange]
  simp only [hlt]

theorem rangeLine_of_parseLine {level : UInt8} {raw : List Char} {range : Range}
    (h : parseLine level raw = some range) : ∃ n, RangeLine raw range n ∧ n < level.toNat := by
  obtain ⟨first, tail, rfl, hcomma, htail⟩ := exists_fields raw
  obtain ⟨n, hlevel, heq⟩ := parseLine_eq level hcomma htail
  rw [heq] at h
  dsimp only at h
  by_cases hskip : trim isWhitespace (first ++ tail) = [] ∨
      (trim isWhitespace (first ++ tail)).head? = some '#'
  · rw [if_pos hskip] at h
    cases h
  rw [if_neg hskip] at h
  rw [not_or, comment_iff] at hskip
  cases hread : parseRange first with
  | some range' =>
    rw [hread] at h
    dsimp only at h
    split_ifs at h with hblocks
    cases h
    exact ⟨n, .dat (parseRange_iff.mp hread) hlevel, hblocks⟩
  | none =>
    rw [hread] at h
    dsimp only at h
    cases hcut : rsplitOnce ':' (trim isWhitespace (first ++ tail)) with
    | none =>
      rw [hcut] at h
      cases h
    | some cut =>
      obtain ⟨desc, text⟩ := cut
      rw [hcut] at h
      dsimp only at h
      split_ifs at h with hpos
      -- the white space around the line goes to the description and to the range
      obtain ⟨front, back, -, hback, hline⟩ := exists_trim isWhitespace (first ++ tail)
      rw [(rsplitOnce_eq_some_iff.mp hcut).1] at hline
      have hline' : first ++ tail = (front ++ desc) ++ ':' :: (text ++ back) := by
        simpa using hline
      have hrange : RangeText (text ++ back) range := by
        rw [← parseRange_iff, ← parseRange_rdropWhile, rdropWhile_append_of_blank _ hback,
          parseRange_rdropWhile]
        exact h
      rw [hline'] at hskip ⊢
      refine ⟨0, .p2p hrange (fun hcomment => ?_) fun f rest hf hcomma' other hother => ?_,
        UInt8.lt_iff_toNat_lt.mp hpos⟩
      · obtain ⟨f, rest, hblank, hf⟩ := hcomment
        refine hskip.2 ⟨f, rest ++ ':' :: (text ++ back), hblank, ?_⟩
        rw [hf, List.append_assoc, List.cons_append]
      · -- a range there would have been the first field
        rw [hf, List.append_assoc, List.cons_append] at hline'
        obtain ⟨rfl, -⟩ := field_unique hcomma hcomma' htail.ends (.inr ⟨_, rfl⟩) hline'
        rw [parseRange_iff.mpr hother] at hread
        cases hread

theorem parseLine_of_rangeLine {level : UInt8} {raw : List Char} {range : Range} {n : Nat}
    (h : RangeLine raw range n) (hn : n < level.toNat) : parseLine level raw = some range := by
  cases h with
  | dat hrange hlevel =>
    rename_i text tail
    obtain ⟨first, tail', hraw, hcomma, htail⟩ := exists_fields (text ++ tail)
    obtain ⟨rfl, rfl⟩ := field_unique (comma_notMem_range hrange) hcomma hlevel.ends
      htail.ends hraw
    obtain ⟨m, hlevel', heq⟩ := parseLine_eq level hcomma htail
    have hne : trim isWhitespace (text ++ tail) ≠ [] :=
      trim_ne_nil _ (by decide : isWhitespace '-' = false)
        (List.mem_append_left _ (dash_mem hrange))
    have hskip := not_or.mpr ⟨hne, mt comment_iff.mp (not_comment_range hrange tail)⟩
    rw [heq]
    dsimp only
    rw [if_neg hskip, parseRange_iff.mpr hrange]
    dsimp only
    rw [hlevel'.unique hlevel, if_pos hn]
  | p2p hrange hcomment hdesc =>
    rename_i desc text
    have hcolon : isWhitespace ':' = false := by decide
    obtain ⟨first, tail, hraw, hcomma, htail⟩ := exists_fields (desc ++ ':' :: text)
    obtain ⟨m, -, heq⟩ := parseLine_eq level hcomma htail
    rw [← hraw] at heq
    have hne : trim isWhitespace (desc ++ ':' :: text) ≠ [] := trim_ne_nil _ hcolon (by simp)
    have hskip := not_or.mpr ⟨hne, mt comment_iff.mp (not_comment_p2p hcomment text)⟩
    have hcut : rsplitOnce ':' (trim isWhitespace (desc ++ ':' :: text)) =
        some (desc.dropWhile isWhitespace, text.rdropWhile isWhitespace) := by
      rw [rsplitOnce_eq_some_iff, trim_append_cons _ hcolon]
      exact ⟨rfl, fun h => colon_notMem_range hrange ((List.rdropWhile_prefix _ _).subset h)⟩
    have hpos : 0 < level := UInt8.lt_iff_toNat_lt.mpr (by simpa using hn)
    rw [heq]
    dsimp only
    rw [if_neg hskip, parseRange_first hrange hdesc hraw hcomma htail.ends]
    dsimp only
    rw [hcut]
    dsimp only
    rw [if_pos hpos, parseRange_rdropWhile, parseRange_iff.mpr hrange]

/-- A line adds a range exactly if it is the line of that range at a level that blocks. -/
theorem parseLine_iff {level : UInt8} {raw : List Char} {range : Range} :
    parseLine level raw = some range ↔ ∃ n, RangeLine raw range n ∧ n < level.toNat :=
  ⟨rangeLine_of_parseLine, fun ⟨_, hline, hn⟩ => parseLine_of_rangeLine hline hn⟩

end PadMule.Engine.Blocklist
