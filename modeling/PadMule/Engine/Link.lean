import PadMule.Engine.LinkFields

/-
  `mule-proto/src/link.rs`: what an ed2k link and a magnet URI say, and that they are read so.

  `Ed2kText` and `MagnetText` are the forms in which a file can be written: the parameters of a
  magnet URI in any order, with suffixes on their keys and anything unknown between them, and the
  segments behind the hash of an ed2k link likewise. Each segment moves the parser's state by the
  one thing it says (`addPair_eq`, `addSegment_eq`), so what is unknown hides nothing and the order
  does not matter (`link_round_trip`).
-/

namespace PadMule.Engine.Link

open LossyUtf8 PercentText Text PadMule.Proto

/-! ## Folds -/

/-- What every step keeps or sets to one value has that value at the end, if one step sets it or it
    had it. -/
theorem foldl_settles {σ ι β : Type*} (step : σ → ι → σ) (proj : σ → β) {v : β} {l : List ι} {s : σ}
    (hkeep : ∀ i ∈ l, ∀ s, proj (step s i) = proj s ∨ proj (step s i) = v)
    (hsome : proj s = v ∨ ∃ i ∈ l, ∀ s, proj (step s i) = v) : proj (l.foldl step s) = v := by
  induction l generalizing s with
  | nil => simpa using hsome
  | cons i l ih =>
    obtain ⟨hi, hl⟩ := List.forall_mem_cons.mp hkeep
    rw [List.foldl_cons]
    refine ih hl ?_
    rcases hsome with hs | ⟨j, hj, hset⟩
    · rcases hi s with hsame | hset
      · exact .inl (hsame.trans hs)
      · exact .inl hset
    · rcases List.mem_cons.mp hj with rfl | hj
      · exact .inl (hset s)
      · exact .inr ⟨j, hj, hset⟩

theorem foldl_appends {σ ι β : Type*} (step : σ → ι → σ) (proj : σ → List β) (f : ι → List β)
    (h : ∀ s i, proj (step s i) = proj s ++ f i) (l : List ι) (s : σ) :
    proj (l.foldl step s) = proj s ++ l.flatMap f := by
  induction l generalizing s with
  | nil => simp
  | cons i l ih => rw [List.foldl_cons, ih, h, List.flatMap_cons, List.append_assoc]

/-! ## Ed2k links -/

section

variable {parseAddr : List Char → Option SocketAddr} {printAddr : SocketAddr → List Char}

/-- What a segment behind the hash says. -/
inductive Trailer where
  | aich (root : Hash20)
  | sources (addrs : List SocketAddr)
  | other

def Trailer.addrs : Trailer → List SocketAddr
  | .sources addrs => addrs
  | .aich _ | .other => []

def TrailerText (printAddr : SocketAddr → List Char) : Trailer → List Char → Prop
  | .aich root, s => ∃ text, RootText root text ∧ s = "h=".toList ++ text
  | .sources addrs, s =>
    addrs ≠ [] ∧ s = "sources,".toList ++ [','].intercalate (addrs.map printAddr)
  | .other, s => '|' ∉ s ∧ ¬"h=".toList <+: s ∧ ¬"sources,".toList <+: s

/-- The ed2k links of a file. -/
inductive Ed2kText (printAddr : SocketAddr → List Char) (link : FileLink) : List Char → Prop
  | intro {name size hash : List Char} {trailers : List Trailer} {segs : List (List Char)}
      (hname : Encodes link.name name) (hsize : Digits size link.size.toNat)
      (hhash : HashText link.hash hash)
      (hsegs : List.Forall₂ (TrailerText printAddr) trailers segs)
      (haich : ∀ root, .aich root ∈ trailers ↔ link.aich = some root)
      (hsources : trailers.flatMap Trailer.addrs = link.sources) :
      Ed2kText printAddr link ("ed2k://".toList ++
        ['|'].intercalate ([] :: "file".toList :: name :: size :: hash :: segs))

/-- What a segment adds. -/
def FileLink.add (link : FileLink) : Trailer → FileLink
  | .aich root => { link with aich := some root }
  | .sources addrs => { link with sources := link.sources ++ addrs }
  | .other => link

theorem isPrefixOf?_append {pre s : List Char} : pre.isPrefixOf? (pre ++ s) = some s :=
  List.isPrefixOf?_eq_some_iff_append_eq.mpr rfl

theorem isPrefixOf?_eq_none {pre s : List Char} (h : ¬pre <+: s) : pre.isPrefixOf? s = none := by
  refine Option.eq_none_iff_forall_ne_some.mpr fun rest hread => h ?_
  exact ⟨rest, List.isPrefixOf?_eq_some_iff_append_eq.mp hread⟩

/-- A segment adds what it says, and an unknown one nothing. -/
theorem addSegment_eq {trailer : Trailer} {seg : List Char} (h : TrailerText printAddr trailer seg)
    (haddrs : ∀ addr ∈ trailer.addrs, Inverts parseAddr printAddr addr) (link : FileLink) :
    addSegment parseAddr link seg = link.add trailer := by
  unfold addSegment
  cases trailer with
  | aich root =>
    obtain ⟨text, htext, rfl⟩ := h
    rw [isPrefixOf?_append]
    dsimp only
    rw [base32_20_rootText htext]
    rfl
  | sources addrs =>
    obtain ⟨hne, rfl⟩ := h
    have hnot : "h=".toList.isPrefixOf?
        ("sources,".toList ++ [','].intercalate (addrs.map printAddr)) = none := rfl
    rw [hnot, isPrefixOf?_append]
    dsimp only
    rw [parseSources_print hne haddrs]
    rfl
  | other =>
    obtain ⟨-, hh, hs⟩ := h
    rw [isPrefixOf?_eq_none hh, isPrefixOf?_eq_none hs]
    rfl

theorem foldl_addSegment {trailers : List Trailer} {segs : List (List Char)}
    (h : List.Forall₂ (TrailerText printAddr) trailers segs)
    (haddrs : ∀ addr ∈ trailers.flatMap Trailer.addrs, Inverts parseAddr printAddr addr)
    (link : FileLink) :
    segs.foldl (addSegment parseAddr) link = trailers.foldl FileLink.add link := by
  induction h generalizing link with
  | nil => rfl
  | cons hseg _ ih =>
    rw [List.flatMap_cons, List.forall_mem_append] at haddrs
    rw [List.foldl_cons, List.foldl_cons, addSegment_eq hseg haddrs.1, ih haddrs.2]

/-- Segments in any order, and between any others, leave the file that they say. -/
theorem foldl_add {link : FileLink} {trailers : List Trailer}
    (haich : ∀ root, .aich root ∈ trailers ↔ link.aich = some root)
    (hsources : trailers.flatMap Trailer.addrs = link.sources) :
    trailers.foldl FileLink.add { link with aich := none, sources := [] } = link := by
  have hkeep {β : Type} (proj : FileLink → β) (hproj : ∀ link trailer,
      proj (FileLink.add link trailer) = proj link) (link : FileLink) :
      proj (trailers.foldl FileLink.add link) = proj link :=
    foldl_settles FileLink.add proj (fun trailer _ link => .inl (hproj link trailer)) (.inl rfl)
  have hname := hkeep FileLink.name (fun _ trailer => by cases trailer <;> rfl)
  have hsize := hkeep FileLink.size (fun _ trailer => by cases trailer <;> rfl)
  have hhash := hkeep FileLink.hash (fun _ trailer => by cases trailer <;> rfl)
  have hroot : (trailers.foldl FileLink.add { link with aich := none, sources := [] }).aich =
      link.aich := by
    refine foldl_settles FileLink.add FileLink.aich (fun trailer htrailer _ => ?_) ?_
    · cases trailer with
      | aich root => exact .inr ((haich root).mp htrailer).symm
      | sources _ => exact .inl rfl
      | other => exact .inl rfl
    · cases hlink : link.aich with
      | none => exact .inl rfl
      | some root => exact .inr ⟨_, (haich root).mpr hlink, fun _ => rfl⟩
  have haddrs : (trailers.foldl FileLink.add { link with aich := none, sources := [] }).sources =
      link.sources := by
    have happend := foldl_appends FileLink.add FileLink.sources Trailer.addrs
      (fun _ trailer => by cases trailer <;> simp [FileLink.add, Trailer.addrs]) trailers
      { link with aich := none, sources := [] }
    rw [happend, hsources, List.nil_append]
  exact FileLink.ext (hname _) (hsize _) (hhash _) hroot haddrs

theorem notMem_hashText {hash : Hash16} {s : List Char} (h : HashText hash s) {c : Char}
    (hc : ∀ n < 16, c.toLower ≠ Nat.digitChar n) : c ∉ s := fun hmem => by
  obtain ⟨n, hn, hlower⟩ := lt_of_mem_hexText h hmem
  exact hc n hn hlower

theorem notMem_digits {ds : List Char} {n : Nat} (h : Digits ds n) {c : Char} (hc : ¬c.isDigit) :
    c ∉ ds := fun hmem => hc (h.digits c hmem)

theorem notMem_intercalate {sep c : Char} (hsep : c ≠ sep) {parts : List (List Char)}
    (h : ∀ part ∈ parts, c ∉ part) : c ∉ [sep].intercalate parts := by
  induction parts with
  | nil => simp [List.intercalate]
  | cons part parts ih =>
    obtain ⟨hpart, hparts⟩ := List.forall_mem_cons.mp h
    cases parts with
    | nil => simpa [List.intercalate] using hpart
    | cons part' parts =>
      rw [List.intercalate_cons_cons]
      simp [hpart, hsep, ih hparts]

theorem bar_notMem_trailer {trailer : Trailer} {seg : List Char}
    (h : TrailerText printAddr trailer seg)
    (haddrs : ∀ addr ∈ trailer.addrs, Inverts parseAddr printAddr addr) : '|' ∉ seg := by
  cases trailer with
  | aich root =>
    obtain ⟨text, htext, rfl⟩ := h
    have hbar : '|' ∉ text := fun hmem => (lt_of_mem_rootText htext hmem).2.1 rfl
    simp [hbar]
  | sources addrs =>
    obtain ⟨-, rfl⟩ := h
    have hbar : '|' ∉ [','].intercalate (addrs.map printAddr) := by
      refine notMem_intercalate (by decide) fun part hpart => ?_
      obtain ⟨addr, haddr, rfl⟩ := List.mem_map.mp hpart
      exact (haddrs addr haddr).notMem (by decide)
    simp [hbar]
  | other => exact h.1

theorem forall₂_segs {trailers : List Trailer} {segs : List (List Char)}
    (h : List.Forall₂ (TrailerText printAddr) trailers segs)
    (haddrs : ∀ addr ∈ trailers.flatMap Trailer.addrs, Inverts parseAddr printAddr addr) :
    ∀ seg ∈ segs, '|' ∉ seg := by
  induction h with
  | nil => simp
  | cons hseg _ ih =>
    rw [List.flatMap_cons, List.forall_mem_append] at haddrs
    exact List.forall_mem_cons.mpr ⟨bar_notMem_trailer hseg haddrs.1, ih haddrs.2⟩

/-- White space around a link does not matter. -/
theorem trim_core {front core back : List Char} (hfront : Blank isWhitespace front)
    (hback : Blank isWhitespace back) (hhead : ∀ c, core.head? = some c → isWhitespace c = false)
    (hlast : ∀ c, core.getLast? = some c → isWhitespace c = false) :
    trim isWhitespace (front ++ core ++ back) = core := by
  rw [trim_append_blank _ hback, trim_blank_append _ hfront, trim_of_ends _ hhead hlast]

theorem parseEd2k_text {link : FileLink} {rest : List Char}
    (h : Ed2kText printAddr link ("ed2k://".toList ++ rest))
    (haddrs : ∀ addr ∈ link.sources, Inverts parseAddr printAddr addr) :
    parseEd2k parseAddr rest = some (some (.file link)) := by
  generalize hcore : "ed2k://".toList ++ rest = core at h
  cases h with
  | intro hname hsize hhash hsegs haich hsources =>
    rename_i name size hash trailers segs
    obtain rfl := List.append_cancel_left hcore
    rw [← hsources] at haddrs
    have hbar : ∀ f ∈ [] :: "file".toList :: name :: size :: hash :: segs, '|' ∉ f := by
      simp only [List.forall_mem_cons]
      exact ⟨by decide, by decide, hname.2.1, notMem_digits hsize (by decide),
        notMem_hashText hhash (by decide), forall₂_segs hsegs haddrs⟩
    have hfile : parseFile parseAddr ([] :: "file".toList :: name :: size :: hash :: segs) =
        some (some (.file link)) := by
      unfold parseFile
      show (urlDecode name).bind _ = _
      rw [urlDecode_of_spells hname.1, Option.bind_some]
      have hread : (([] :: "file".toList :: name :: size :: hash :: segs)[3]?).bind
          (parseUint (2 ^ 64)) = some link.size.toNat := parseUint_digits hsize link.size.toNat_lt
      rw [hread]
      show (hex16 hash).map _ = _
      rw [hex16_hashText hhash, Option.map_some, Option.map_some, UInt64.ofNat_toNat]
      show some (some (Ed2kLink.file (segs.foldl _ _))) = _
      rw [foldl_addSegment hsegs haddrs]
      exact congrArg (fun link => some (some (Ed2kLink.file link))) (foldl_add haich hsources)
    rw [parseEd2k, List.splitOn_intercalate _ hbar (List.cons_ne_nil _ _)]
    exact hfile

end

/-! ## Magnet URIs -/

/-- What a parameter says. -/
inductive Param where
  | name (name : List Char)
  | size (size : UInt64)
  | hash (hash : Hash16)
  | aich (root : Hash20)
  | source (addr : SocketAddr)
  | other

def Param.addrs : Param → List SocketAddr
  | .source addr => [addr]
  | .name _ | .size _ | .hash _ | .aich _ | .other => []

/-- A key, with a suffix behind a dot or without one, and an encoded value. -/
def Pair (key value s : List Char) : Prop :=
  ∃ suffix text, s = (key ++ suffix) ++ '=' :: text ∧ Ends '.' suffix ∧ '=' ∉ suffix ∧
    '&' ∉ suffix ∧ Encodes value text

/-- The keys that mean something. -/
def KEYS : List (List Char) :=
  ["xt".toList, "xl".toList, "dn".toList, "xs".toList, "as".toList]

/-- A flag or nothing at all, a pair with a key that means nothing, or a topic of another kind. -/
def Unknown (s : List Char) : Prop :=
  '=' ∉ s ∨
  (∃ key suffix val, s = (key ++ suffix) ++ '=' :: val ∧ '.' ∉ key ∧ Ends '.' suffix ∧
    '=' ∉ key ++ suffix ∧ key ∉ KEYS) ∨
  ∃ val, Pair "xt".toList val s ∧ ¬"urn:ed2k:".toList <+: val ∧ ¬"urn:aich:".toList <+: val

def ParamText (printAddr : SocketAddr → List Char) : Param → List Char → Prop
  | .name name, s => Pair "dn".toList name s
  | .size size, s => ∃ ds, Digits ds size.toNat ∧ Pair "xl".toList ds s
  | .hash hash, s => ∃ text, HashText hash text ∧ Pair "xt".toList ("urn:ed2k:".toList ++ text) s
  | .aich root, s => ∃ text, RootText root text ∧ Pair "xt".toList ("urn:aich:".toList ++ text) s
  | .source addr, s =>
    Pair "xs".toList (printAddr addr) s ∨ Pair "as".toList (printAddr addr) s
  | .other, s => '&' ∉ s ∧ Unknown s

/-- The magnet URIs of a file: the parameters in any order, and anything unknown between them. -/
inductive MagnetText (printAddr : SocketAddr → List Char) (link : FileLink) : List Char → Prop
  | intro {params : List Param} {segs : List (List Char)}
      (hsegs : List.Forall₂ (ParamText printAddr) params segs)
      (hname : ∀ name, .name name ∈ params ↔ name = link.name)
      (hsize : ∀ size, .size size ∈ params ↔ size = link.size)
      (hhash : ∀ hash, .hash hash ∈ params ↔ hash = link.hash)
      (haich : ∀ root, .aich root ∈ params ↔ link.aich = some root)
      (hsources : params.flatMap Param.addrs = link.sources) :
      MagnetText printAddr link ("magnet:?".toList ++ ['&'].intercalate segs)

/-- What a parameter sets. -/
def Magnet.set (m : Magnet) : Param → Magnet
  | .name name => { m with link.name := name }
  | .size size => { m with link.size := size }
  | .hash hash => { m with link.hash := hash, haveHash := true }
  | .aich root => { m with link.aich := some root }
  | .source addr => { m with link.sources := m.link.sources ++ [addr] }
  | .other => m

section

variable {parseAddr : List Char → Option SocketAddr} {printAddr : SocketAddr → List Char}

/-- A pair is cut at its first `=`, its key at the first dot, and its value is decoded. -/
theorem pair_parts {key value s : List Char} (h : Pair key value s) (hkey : '=' ∉ key)
    (hdot : '.' ∉ key) : ∃ suffix text, splitOnce '=' s = some (key ++ suffix, text) ∧
      (key ++ suffix).takeWhile (· ≠ '.') = key ∧ urlDecode text = some value := by
  obtain ⟨suffix, text, rfl, hends, heq, -, hvalue⟩ := h
  refine ⟨suffix, text, splitOnce_append (by simp [hkey, heq]) text, takeWhile_field hdot hends, ?_⟩
  exact urlDecode_of_spells hvalue.1

theorem addTopic_hash {hash : Hash16} {text : List Char} (h : HashText hash text) (m : Magnet) :
    addTopic m ("urn:ed2k:".toList ++ text) = some (m.set (.hash hash)) := by
  rw [addTopic, isPrefixOf?_append]
  dsimp only
  rw [hex16_hashText h]
  rfl

theorem addTopic_aich {root : Hash20} {text : List Char} (h : RootText root text) (m : Magnet) :
    addTopic m ("urn:aich:".toList ++ text) = some (m.set (.aich root)) := by
  have hnot : "urn:ed2k:".toList.isPrefixOf? ("urn:aich:".toList ++ text) = none := rfl
  rw [addTopic, hnot, isPrefixOf?_append]
  dsimp only
  rw [base32_20_rootText h]
  rfl

theorem addTopic_other {val : List Char} (hed2k : ¬"urn:ed2k:".toList <+: val)
    (haich : ¬"urn:aich:".toList <+: val) (m : Magnet) : addTopic m val = some m := by
  rw [addTopic, isPrefixOf?_eq_none hed2k, isPrefixOf?_eq_none haich]

/-- What is unknown changes nothing. -/
theorem addPair_unknown {s : List Char} (h : Unknown s) (m : Magnet) :
    addPair parseAddr m s = some m := by
  unfold addPair
  rcases h with heq | ⟨key, suffix, val, rfl, hdot, hends, heq, hkey⟩ | ⟨val, hpair, hed2k, haich⟩
  · rw [splitOnce_eq_none_iff.mpr heq]
  · rw [splitOnce_append heq]
    dsimp only
    rw [takeWhile_field hdot hends, urlDecode_eq, Option.bind_some, addValue]
    simp only [KEYS, List.mem_cons, List.not_mem_nil, or_false, not_or] at hkey
    rw [if_neg hkey.1, if_neg hkey.2.1, if_neg hkey.2.2.1, if_neg (not_or.mpr hkey.2.2.2)]
  · obtain ⟨suffix, text, hcut, hkey, hval⟩ := pair_parts hpair (by decide) (by decide)
    rw [hcut]
    dsimp only
    rw [hkey, hval, Option.bind_some, addValue, if_pos rfl, addTopic_other hed2k haich]

theorem addPair_pair {key value seg : List Char} (h : Pair key value seg) (hkey : key ∈ KEYS)
    (m : Magnet) : addPair parseAddr m seg = addValue parseAddr m key value := by
  have hplain : ∀ key ∈ KEYS, '=' ∉ key ∧ '.' ∉ key := by decide
  obtain ⟨suffix, text, hcut, htake, hval⟩ := pair_parts h (hplain key hkey).1 (hplain key hkey).2
  unfold addPair
  rw [hcut]
  dsimp only
  rw [htake, hval, Option.bind_some]

theorem addValue_source {addr : SocketAddr} (h : Inverts parseAddr printAddr addr)
    {key : List Char} (hkey : key = "xs".toList ∨ key = "as".toList) (m : Magnet) :
    addValue parseAddr m key (printAddr addr) = some (m.set (.source addr)) := by
  have hother : key ≠ "xt".toList ∧ key ≠ "xl".toList ∧ key ≠ "dn".toList := by
    rcases hkey with rfl | rfl
    · decide
    · decide
  rw [addValue, if_neg hother.1, if_neg hother.2.1, if_neg hother.2.2, if_pos hkey,
    trimStartMatches_print h, h.reads]
  rfl

/-- A parameter sets what it says. -/
theorem addPair_eq {param : Param} {seg : List Char} (h : ParamText printAddr param seg)
    (haddrs : ∀ addr ∈ param.addrs, Inverts parseAddr printAddr addr) (m : Magnet) :
    addPair parseAddr m seg = some (m.set param) := by
  cases param with
  | name name =>
    rw [addPair_pair h (by decide)]
    rfl
  | size size =>
    obtain ⟨ds, hds, hpair⟩ := h
    rw [addPair_pair hpair (by decide)]
    show some { m with link.size := .ofNat ((parseUint (2 ^ 64) ds).getD 0) } = _
    rw [parseUint_digits hds size.toNat_lt, Option.getD_some, UInt64.ofNat_toNat]
    rfl
  | hash hash =>
    obtain ⟨text, htext, hpair⟩ := h
    rw [addPair_pair hpair (by decide)]
    exact addTopic_hash htext m
  | aich root =>
    obtain ⟨text, htext, hpair⟩ := h
    rw [addPair_pair hpair (by decide)]
    exact addTopic_aich htext m
  | source addr =>
    have haddr := haddrs addr (List.mem_singleton.mpr rfl)
    rcases h with hpair | hpair
    · rw [addPair_pair hpair (by decide), addValue_source haddr (.inl rfl)]
    · rw [addPair_pair hpair (by decide), addValue_source haddr (.inr rfl)]
  | other => exact addPair_unknown h.2 m

theorem foldlM_addPair {params : List Param} {segs : List (List Char)}
    (h : List.Forall₂ (ParamText printAddr) params segs)
    (haddrs : ∀ addr ∈ params.flatMap Param.addrs, Inverts parseAddr printAddr addr) (m : Magnet) :
    segs.foldlM (addPair parseAddr) m = some (params.foldl Magnet.set m) := by
  induction h generalizing m with
  | nil => rfl
  | cons hseg _ ih =>
    rw [List.flatMap_cons, List.forall_mem_append] at haddrs
    rw [List.foldlM_cons, addPair_eq hseg haddrs.1]
    exact ih haddrs.2 _

/-- Parameters in any order, and between any others, leave the file that they say. -/
theorem foldl_set {link : FileLink} {params : List Param}
    (hname : ∀ name, .name name ∈ params ↔ name = link.name)
    (hsize : ∀ size, .size size ∈ params ↔ size = link.size)
    (hhash : ∀ hash, .hash hash ∈ params ↔ hash = link.hash)
    (haich : ∀ root, .aich root ∈ params ↔ link.aich = some root)
    (hsources : params.flatMap Param.addrs = link.sources) :
    params.foldl Magnet.set ⟨.default, false⟩ = ⟨link, true⟩ := by
  have hname' : (params.foldl Magnet.set ⟨.default, false⟩).link.name = link.name := by
    refine foldl_settles Magnet.set (fun m => m.link.name) (fun param hparam m => ?_)
      (.inr ⟨_, (hname _).mpr rfl, fun _ => rfl⟩)
    cases param with
    | name name => exact .inr ((hname name).mp hparam)
    | _ => exact .inl rfl
  have hsize' : (params.foldl Magnet.set ⟨.default, false⟩).link.size = link.size := by
    refine foldl_settles Magnet.set (fun m => m.link.size) (fun param hparam m => ?_)
      (.inr ⟨_, (hsize _).mpr rfl, fun _ => rfl⟩)
    cases param with
    | size size => exact .inr ((hsize size).mp hparam)
    | _ => exact .inl rfl
  have hhash' : (params.foldl Magnet.set ⟨.default, false⟩).link.hash = link.hash := by
    refine foldl_settles Magnet.set (fun m => m.link.hash) (fun param hparam m => ?_)
      (.inr ⟨_, (hhash _).mpr rfl, fun _ => rfl⟩)
    cases param with
    | hash hash => exact .inr ((hhash hash).mp hparam)
    | _ => exact .inl rfl
  have hhave : (params.foldl Magnet.set ⟨.default, false⟩).haveHash = true := by
    refine foldl_settles Magnet.set Magnet.haveHash (fun param _ m => ?_)
      (.inr ⟨_, (hhash _).mpr rfl, fun _ => rfl⟩)
    cases param with
    | hash hash => exact .inr rfl
    | _ => exact .inl rfl
  have haich' : (params.foldl Magnet.set ⟨.default, false⟩).link.aich = link.aich := by
    refine foldl_settles Magnet.set (fun m => m.link.aich) (fun param hparam m => ?_) ?_
    · cases param with
      | aich root => exact .inr ((haich root).mp hparam).symm
      | _ => exact .inl rfl
    · cases hlink : link.aich with
      | none => exact .inl rfl
      | some root => exact .inr ⟨_, (haich root).mpr hlink, fun _ => rfl⟩
  have hsources' : (params.foldl Magnet.set ⟨.default, false⟩).link.sources = link.sources := by
    have happend := foldl_appends Magnet.set (fun m => m.link.sources) Param.addrs
      (fun _ param => by cases param <;> simp [Magnet.set, Param.addrs]) params ⟨.default, false⟩
    rw [happend, hsources]
    rfl
  exact Magnet.ext (FileLink.ext hname' hsize' hhash' haich' hsources') hhave

theorem amp_notMem_pair {key value s : List Char} (h : Pair key value s) (hkey : '&' ∉ key) :
    '&' ∉ s := by
  obtain ⟨suffix, text, rfl, -, -, hsuffix, hvalue⟩ := h
  simp [hkey, hsuffix, hvalue.2.2]

theorem amp_notMem_param {param : Param} {s : List Char} (h : ParamText printAddr param s) :
    '&' ∉ s := by
  cases param with
  | name name => exact amp_notMem_pair h (by decide)
  | size size =>
    obtain ⟨ds, -, hpair⟩ := h
    exact amp_notMem_pair hpair (by decide)
  | hash hash =>
    obtain ⟨text, -, hpair⟩ := h
    exact amp_notMem_pair hpair (by decide)
  | aich root =>
    obtain ⟨text, -, hpair⟩ := h
    exact amp_notMem_pair hpair (by decide)
  | source addr =>
    rcases h with hpair | hpair
    · exact amp_notMem_pair hpair (by decide)
    · exact amp_notMem_pair hpair (by decide)
  | other => exact h.1

theorem amp_notMem_segs {params : List Param} {segs : List (List Char)}
    (h : List.Forall₂ (ParamText printAddr) params segs) : ∀ seg ∈ segs, '&' ∉ seg := by
  induction h with
  | nil => simp
  | cons hseg _ ih => exact List.forall_mem_cons.mpr ⟨amp_notMem_param hseg, ih⟩

theorem parseMagnet_text {link : FileLink} {query : List Char}
    (h : MagnetText printAddr link ("magnet:?".toList ++ query))
    (haddrs : ∀ addr ∈ link.sources, Inverts parseAddr printAddr addr) :
    parseMagnet parseAddr query = some (some (.file link)) := by
  generalize hcore : "magnet:?".toList ++ query = core at h
  cases h with
  | intro hsegs hname hsize hhash haich hsources =>
    rename_i params segs
    obtain rfl := List.append_cancel_left hcore
    have hne : segs ≠ [] := by
      rintro rfl
      cases hsegs
      exact absurd ((hhash _).mpr rfl) List.not_mem_nil
    rw [← hsources] at haddrs
    rw [parseMagnet, List.splitOn_intercalate _ (amp_notMem_segs hsegs) hne,
      foldlM_addPair hsegs haddrs, foldl_set hname hsize hhash haich hsources]
    rfl

end

/-! ## Every file can be written -/

section

variable (printAddr : SocketAddr → List Char)

def writeTrailer : Trailer → List Char
  | .aich root => "h=".toList ++ rootChars root
  | .sources addrs => "sources,".toList ++ [','].intercalate (addrs.map printAddr)
  | .other => "/".toList

def FileLink.trailers (link : FileLink) : List Trailer :=
  link.aich.toList.map .aich ++ (if link.sources = [] then [] else [.sources link.sources]) ++
    [.other]

/-- An ed2k link of a file. -/
def writeEd2k (link : FileLink) : List Char :=
  "ed2k://".toList ++ ['|'].intercalate ([] :: "file".toList ::
    percentEncode (utf8Bytes link.name) :: Nat.toDigits 10 link.size.toNat ::
    hexDigits link.hash.bytes :: link.trailers.map (writeTrailer printAddr))

theorem trailerText_writeTrailer {link : FileLink} {trailer : Trailer}
    (h : trailer ∈ link.trailers) :
    TrailerText printAddr trailer (writeTrailer printAddr trailer) := by
  cases trailer with
  | aich root => exact ⟨_, rootText_rootChars root, rfl⟩
  | sources addrs =>
    refine ⟨?_, rfl⟩
    rintro rfl
    simp [FileLink.trailers] at h
  | other =>
    show '|' ∉ "/".toList ∧ ¬"h=".toList <+: "/".toList ∧ ¬"sources,".toList <+: "/".toList
    decide

theorem ed2kText_writeEd2k (link : FileLink) :
    Ed2kText printAddr link (writeEd2k printAddr link) := by
  have hsegs : List.Forall₂ (TrailerText printAddr) link.trailers
      (link.trailers.map (writeTrailer printAddr)) :=
    List.forall₂_map_right_iff.mpr
      (List.forall₂_same.mpr fun _ => trailerText_writeTrailer printAddr)
  refine .intro (encodes_percentEncode _) (digits_toDigits _) (hashText_hexDigits _) hsegs ?_ ?_
  · intro root
    simp [FileLink.trailers]
  · have haich (roots : List Hash20) : (roots.map Trailer.aich).flatMap Trailer.addrs = [] := by
      simp [List.flatMap_map, Trailer.addrs]
    rw [FileLink.trailers, List.flatMap_append, List.flatMap_append, haich]
    split_ifs with hnil
    · rw [hnil]
      rfl
    · simp [Trailer.addrs]

def writePair (key value : List Char) : List Char := key ++ '=' :: percentEncode (utf8Bytes value)

theorem pair_writePair (key value : List Char) : Pair key value (writePair key value) :=
  ⟨[], _, by rw [List.append_nil]; rfl, .inl rfl, by simp, by simp, encodes_percentEncode value⟩

def writeParam : Param → List Char
  | .name name => writePair "dn".toList name
  | .size size => writePair "xl".toList (Nat.toDigits 10 size.toNat)
  | .hash hash => writePair "xt".toList ("urn:ed2k:".toList ++ hexDigits hash.bytes)
  | .aich root => writePair "xt".toList ("urn:aich:".toList ++ rootChars root)
  | .source addr => writePair "xs".toList (printAddr addr)
  | .other => []

def FileLink.params (link : FileLink) : List Param :=
  [.hash link.hash, .size link.size, .name link.name] ++ link.aich.toList.map .aich ++
    link.sources.map .source

/-- A magnet URI of a file. -/
def writeMagnet (link : FileLink) : List Char :=
  "magnet:?".toList ++ ['&'].intercalate (link.params.map (writeParam printAddr))

theorem paramText_writeParam (param : Param) :
    ParamText printAddr param (writeParam printAddr param) := by
  cases param with
  | name name => exact pair_writePair _ name
  | size size => exact ⟨_, digits_toDigits _, pair_writePair _ _⟩
  | hash hash => exact ⟨_, hashText_hexDigits hash, pair_writePair _ _⟩
  | aich root => exact ⟨_, rootText_rootChars root, pair_writePair _ _⟩
  | source addr => exact .inl (pair_writePair _ _)
  | other => exact ⟨List.not_mem_nil, .inl List.not_mem_nil⟩

theorem magnetText_writeMagnet (link : FileLink) :
    MagnetText printAddr link (writeMagnet printAddr link) := by
  have hsegs : List.Forall₂ (ParamText printAddr) link.params
      (link.params.map (writeParam printAddr)) :=
    List.forall₂_map_right_iff.mpr
      (List.forall₂_same.mpr fun param _ => paramText_writeParam printAddr param)
  refine .intro hsegs (by simp [FileLink.params]) (by simp [FileLink.params])
    (by simp [FileLink.params]) (by simp [FileLink.params]) ?_
  have haich (roots : List Hash20) : (roots.map Param.aich).flatMap Param.addrs = [] := by
    simp [List.flatMap_map, Param.addrs]
  have hsources (addrs : List SocketAddr) :
      (addrs.map Param.source).flatMap Param.addrs = addrs := by
    simp [List.flatMap_map, Param.addrs]
  rw [FileLink.params, List.flatMap_append, List.flatMap_append, haich, hsources]
  rfl

end

/-! ## Links -/

/-- The texts of a file, with white space around them or none. -/
def FileText (printAddr : SocketAddr → List Char) (link : FileLink) (text : List Char) : Prop :=
  ∃ front core back, Blank isWhitespace front ∧ Blank isWhitespace back ∧
    text = front ++ core ++ back ∧ (∀ c, core.getLast? = some c → isWhitespace c = false) ∧
    (Ed2kText printAddr link core ∨ MagnetText printAddr link core)

/-- What is written of a file is read as that file, and no text at all brings the parser down: a
    link in either form, however it is encoded, whatever the order of its parameters and whatever
    unknown ones stand between them. -/
theorem link_round_trip (parseAddr : List Char → Option SocketAddr)
    (printAddr : SocketAddr → List Char) :
    (∀ link text, (∀ addr ∈ link.sources, Inverts parseAddr printAddr addr) →
      FileText printAddr link text → parseLink parseAddr text = some (some (.file link))) ∧
    ∀ text, ∃ answer, parseLink parseAddr text = some answer := by
  refine ⟨?_, parseLink_returns parseAddr⟩
  rintro link text haddrs ⟨front, core, back, hfront, hback, rfl, hlast, hed2k | hmagnet⟩
  · obtain ⟨rest, rfl⟩ : ∃ rest, core = "ed2k://".toList ++ rest := by
      cases hed2k
      exact ⟨_, rfl⟩
    have hhead : ∀ c, ("ed2k://".toList ++ rest).head? = some c → isWhitespace c = false := by
      rintro c hc
      cases hc
      decide
    have hnot : "magnet:?".toList.isPrefixOf? ("ed2k://".toList ++ rest) = none := rfl
    simp only [parseLink, trim_core hfront hback hhead hlast, hnot, isPrefixOf?_append]
    exact parseEd2k_text hed2k haddrs
  · obtain ⟨query, rfl⟩ : ∃ query, core = "magnet:?".toList ++ query := by
      cases hmagnet
      exact ⟨_, rfl⟩
    have hhead : ∀ c, ("magnet:?".toList ++ query).head? = some c → isWhitespace c = false := by
      rintro c hc
      cases hc
      decide
    simp only [parseLink, trim_core hfront hback hhead hlast, isPrefixOf?_append]
    exact parseMagnet_text hmagnet haddrs

/-- A link as it may be pasted: a name with a letter of two bytes, a suffix on a key, a flag, an
    empty segment and a tracker between the parameters, and cases that are mixed. -/
def pastedSegs : List (List Char) :=
  ["dn=%c3%A9+b".toList, "x.pad".toList, "xt.1=urn:ed2k:31D6cfe0d16ae931b73c59d7e0c089c0".toList,
    [], "xt=urn:aich:AAAAAAAAAAAAAAAAaaaaaaaaaaaaaaaa".toList, "tr=http://t?a=b".toList,
    "xl=1024".toList, "xs=9.9.9.9:4662".toList]

def pastedFile : FileLink where
  name := "é b".toList
  size := 1024
  hash := ⟨[0x31, 0xD6, 0xCF, 0xE0, 0xD1, 0x6A, 0xE9, 0x31,
    0xB7, 0x3C, 0x59, 0xD7, 0xE0, 0xC0, 0x89, 0xC0], rfl⟩
  aich := some (.fill 20 0)
  sources := [.v4 0x09090909 4662]

def pastedParams : List Param :=
  [.name pastedFile.name, .other, .hash pastedFile.hash, .other, .aich (.fill 20 0), .other,
    .size 1024, .source (.v4 0x09090909 4662)]

theorem encodes_self {value : List Char} (h : ∀ c ∈ utf8Bytes value, c ≠ percent ∧ c ≠ plus)
    (hbar : '|' ∉ value) (hamp : '&' ∉ value) : Encodes value value := ⟨spells_self h, hbar, hamp⟩

theorem pasted_says : List.Forall₂ (ParamText fun _ => "9.9.9.9:4662".toList) pastedParams
    pastedSegs := by
  have hname : Spells (utf8Bytes "é b".toList) (utf8Bytes "%c3%A9+b".toList) := by
    have hvalue : utf8Bytes "é b".toList = [0xC3, 0xA9, 0x20, 0x62] := by decide +kernel
    have htext : utf8Bytes "%c3%A9+b".toList =
        [percent, 0x63, 0x33, percent, 0x41, 0x39, plus, 0x62] := by decide +kernel
    rw [hvalue, htext]
    exact .pair (by decide) (.pair (by decide) (.plus (.raw (by decide) (by decide) .nil)))
  refine .cons ⟨[], _, rfl, .inl rfl, by decide, by decide, hname, by decide, by decide⟩ ?_
  refine .cons ⟨by decide, .inl (by decide)⟩ ?_
  refine .cons ⟨"31D6cfe0d16ae931b73c59d7e0c089c0".toList, by decide +kernel, ".1".toList, _, rfl,
    .inr ⟨_, rfl⟩, by decide, by decide,
    encodes_self (by decide +kernel) (by decide) (by decide)⟩ ?_
  refine .cons ⟨by decide, .inl (by decide)⟩ ?_
  refine .cons ⟨"AAAAAAAAAAAAAAAAaaaaaaaaaaaaaaaa".toList, by decide +kernel, [], _, rfl, .inl rfl,
    by decide, by decide, encodes_self (by decide +kernel) (by decide) (by decide)⟩ ?_
  refine .cons ⟨by decide, .inr (.inl ⟨"tr".toList, [], _, rfl, by decide, .inl rfl, by decide,
    by decide⟩)⟩ ?_
  refine .cons ⟨"1024".toList, ⟨by decide, List.all_eq_true.mp (by decide), by decide⟩, [], _, rfl,
    .inl rfl, by decide, by decide, encodes_self (by decide +kernel) (by decide) (by decide)⟩ ?_
  refine .cons (.inl ⟨[], _, rfl, .inl rfl, by decide, by decide,
    encodes_self (by decide +kernel) (by decide) (by decide)⟩) ?_
  exact .nil

theorem link_round_trip_pasted :
    parseLink (fun s => if s = "9.9.9.9:4662".toList then some (.v4 0x09090909 4662) else none)
      ("magnet:?".toList ++ ['&'].intercalate pastedSegs) = some (some (.file pastedFile)) := by
  have hmagnet : MagnetText (fun _ => "9.9.9.9:4662".toList) pastedFile
      ("magnet:?".toList ++ ['&'].intercalate pastedSegs) :=
    .intro pasted_says (by simp [pastedParams]) (by simp [pastedParams, pastedFile])
      (by simp [pastedParams]) (by simp [pastedParams, pastedFile, eq_comm]) rfl
  refine (link_round_trip _ _).1 pastedFile _ (fun addr haddr => ?_)
    ⟨[], _, [], by simp [Blank], by simp [Blank], (List.append_nil _).symm, ?_, .inr hmagnet⟩
  · obtain rfl := List.mem_singleton.mp haddr
    have hchars : ("9.9.9.9:4662".toList.all fun c => c ∈ ADDR_CHARS) = true := by decide
    exact ⟨if_pos rfl, fun c hc => of_decide_eq_true (List.all_eq_true.mp hchars c hc)⟩
  · intro c hc
    have hlast : ("magnet:?".toList ++ ['&'].intercalate pastedSegs).getLast? = some '2' := by
      simp [pastedSegs, List.intercalate]
    cases hlast.symm.trans hc
    decide

end PadMule.Engine.Link
