import PadMule.Lib.LossyUtf8
import PadMule.Lib.PercentText
import PadMule.Lib.Text
import PadMule.Engine.ServerLink
import PadMule.Engine.UniqueDest
import PadMule.Proto.AichBase32

/-
  `mule-proto/src/link.rs`: ed2k links and magnet URIs.

  A call that would panic is `none`, so a read beyond the end of a text has nowhere to hide; none
  happens, whatever the text (`parseLink_returns`). How the standard library reads a socket address
  is a parameter.
-/

namespace PadMule.Engine.Link

open LossyUtf8 PercentText Text PadMule.Proto

/-- A file to download. -/
@[ext] structure FileLink where
  name : List Char
  size : UInt64
  hash : Hash16
  aich : Option Hash20
  sources : List SocketAddr
deriving DecidableEq

inductive Ed2kLink where
  | file (link : FileLink)
  | server (host : List Char) (port : UInt16)
  | serverList (url : List Char)
  | search (term : List Char)
deriving DecidableEq

/-- `FileLink::default` -/
def FileLink.default : FileLink := ⟨[], 0, .fill 16 0, none, []⟩

/-! ## Fields -/

/-- The loop of `url_decode`. -/
def urlDecodeFrom (b : Bytes) (i : Nat) (out : Bytes) : Option Bytes :=
  if i < b.length then
    (b[i]?).bind fun c =>
      if c = percent ∧ i + 2 < b.length then
        (b[i + 1]?).bind fun d => (b[i + 2]?).bind fun e =>
          match hexPair d e with
          | some byte => urlDecodeFrom b (i + 3) (out ++ [byte])
          | none => urlDecodeFrom b (i + 1) (out ++ [percent])
      else if c = plus then urlDecodeFrom b (i + 1) (out ++ [space])
      else urlDecodeFrom b (i + 1) (out ++ [c])
  else some out
termination_by b.length - i

def urlDecode (s : List Char) : Option (List Char) :=
  (urlDecodeFrom (utf8Bytes s) 0 []).map fun out => (fromUtf8Lossy out).toList

/-- Byte `i` of a hash from its two digits. -/
def hexByte (b : Bytes) (i : Nat) : Option (Option UInt8) :=
  (b[2 * i]?).bind fun d =>
    match hexNib d with
    | none => some none
    | some _ => (b[2 * i + 1]?).bind fun e => some (hexPair d e)

/-- The loop of `hex16`. -/
def hexBytes (b : Bytes) : List Nat → Option (Option Bytes)
  | [] => some (some [])
  | i :: is =>
    (hexByte b i).bind fun byte =>
      match byte with
      | none => some none
      | some byte => (hexBytes b is).map fun out => out.map (byte :: ·)

def hex16 (s : List Char) : Option (Option Hash16) :=
  let b := utf8Bytes s
  if b.length ≠ 32 then some none
  else (hexBytes b (List.range 16)).map fun out =>
    out.bind fun out => if h : out.length = 16 then some ⟨out, h⟩ else none

def base32_20 (s : List Char) : Option Hash20 := aichFromBase32 (utf8Bytes s)

/-- `str::trim_start_matches` -/
def trimStartMatches (pre : List Char) (s : List Char) : List Char :=
  match pre.isPrefixOf? s with
  | none => s
  | some rest => if rest.length < s.length then trimStartMatches pre rest else s
termination_by s.length

section

variable (parseAddr : List Char → Option SocketAddr)

def parseSources (list : List Char) : List SocketAddr := (list.splitOn ',').filterMap parseAddr

/-! ## Links -/

/-- One trailing segment of a file link. -/
def addSegment (link : FileLink) (seg : List Char) : FileLink :=
  match "h=".toList.isPrefixOf? seg with
  | some a => { link with aich := base32_20 a }
  | none =>
    match "sources,".toList.isPrefixOf? seg with
    | some src => { link with sources := link.sources ++ parseSources parseAddr src }
    | none => link

def parseFile (f : List (List Char)) : Option (Option Ed2kLink) :=
  match f[2]? with
  | none => some none
  | some field =>
    (urlDecode field).bind fun name =>
      match (f[3]?).bind (parseUint (2 ^ 64)), f[4]? with
      | some size, some digits =>
        (hex16 digits).map fun hash => hash.map fun hash =>
          .file ((f.drop 5).foldl (addSegment parseAddr) ⟨name, .ofNat size, hash, none, []⟩)
      | _, _ => some none

def parseEd2k (rest : List Char) : Option (Option Ed2kLink) :=
  let f := rest.splitOn '|'
  match f[1]? with
  | none => some none
  | some kind =>
    if kind = "file".toList then parseFile parseAddr f
    else if kind = "server".toList then
      match f[2]?, (f[3]?).bind (parseUint (2 ^ 16)) with
      | some host, some port => some (some (.server host (.ofNat port)))
      | _, _ => some none
    else if kind = "serverlist".toList then some ((f[2]?).map .serverList)
    else if kind = "search".toList then
      match f[2]? with
      | none => some none
      | some field => (urlDecode field).map fun term => some (.search term)
    else some none

/-- The file of a magnet URI as far as it is read. -/
@[ext] structure Magnet where
  link : FileLink
  haveHash : Bool

/-- What an `xt` parameter says. -/
def addTopic (m : Magnet) (val : List Char) : Option Magnet :=
  match "urn:ed2k:".toList.isPrefixOf? val with
  | some h =>
    (hex16 h).map fun hash =>
      match hash with
      | some hash => { m with link.hash := hash, haveHash := true }
      | none => m
  | none =>
    match "urn:aich:".toList.isPrefixOf? val with
    | some a => some { m with link.aich := base32_20 a }
    | none => some m

/-- What a parameter says, by its key. -/
def addValue (m : Magnet) (key val : List Char) : Option Magnet :=
  if key = "xt".toList then addTopic m val
  else if key = "xl".toList then
    some { m with link.size := .ofNat ((parseUint (2 ^ 64) val).getD 0) }
  else if key = "dn".toList then some { m with link.name := val }
  else if key = "xs".toList ∨ key = "as".toList then
    match parseAddr (trimStartMatches "ed2kftp://".toList val) with
    | some addr => some { m with link.sources := m.link.sources ++ [addr] }
    | none => some m
  else some m

/-- One round of the loop of `parse_magnet`; a key ends at its first dot. -/
def addPair (m : Magnet) (pair : List Char) : Option Magnet :=
  match splitOnce '=' pair with
  | none => some m
  | some (key, val) =>
    (urlDecode val).bind fun val => addValue parseAddr m (key.takeWhile (· ≠ '.')) val

def parseMagnet (query : List Char) : Option (Option Ed2kLink) :=
  ((query.splitOn '&').foldlM (addPair parseAddr) ⟨.default, false⟩).map fun m =>
    if m.haveHash then some (.file m.link) else none

def parseLink (input : List Char) : Option (Option Ed2kLink) :=
  let s := trim isWhitespace input
  match "magnet:?".toList.isPrefixOf? s with
  | some rest => parseMagnet parseAddr rest
  | none =>
    match "ed2k://".toList.isPrefixOf? s with
    | some rest => parseEd2k parseAddr rest
    | none => some none

end

/-! ## Fields that are read -/

theorem drop_of_getElem? {α : Type*} {l : List α} {i : Nat} {a : α} (h : l[i]? = some a) :
    l.drop i = a :: l.drop (i + 1) := by
  obtain ⟨hi, rfl⟩ := List.getElem?_eq_some_iff.mp h
  exact List.drop_eq_getElem_cons hi

/-- The loop reads no byte that is not there, and comes to what decoding the rest comes to. -/
theorem urlDecodeFrom_eq (b : Bytes) (i : Nat) (out : Bytes) :
    urlDecodeFrom b i out = some (out ++ percentDecode (b.drop i)) := by
  induction hn : b.length - i using Nat.strong_induction_on generalizing i out with
  | _ n ih =>
    rw [urlDecodeFrom]
    split_ifs with hi
    · have hc : b[i]? = some b[i] := List.getElem?_eq_getElem hi
      have hnext (k : Nat) (hk : 0 < k) (out : Bytes) :
          urlDecodeFrom b (i + k) out = some (out ++ percentDecode (b.drop (i + k))) :=
        ih (b.length - (i + k)) (by omega) (i + k) out rfl
      rw [hc, Option.bind_some, drop_of_getElem? hc]
      generalize b[i] = c
      by_cases hpair : c = percent ∧ i + 2 < b.length
      · obtain ⟨rfl, hlen⟩ := hpair
        have hd : b[i + 1]? = some b[i + 1] := List.getElem?_eq_getElem (by omega)
        have he : b[i + 2]? = some b[i + 2] := List.getElem?_eq_getElem hlen
        rw [if_pos ⟨rfl, hlen⟩, hd, Option.bind_some, he, Option.bind_some, drop_of_getElem? hd,
          drop_of_getElem? he]
        cases hread : hexPair b[i + 1] b[i + 2] with
        | some byte =>
          rw [percentDecode_pair hread]
          dsimp only
          rw [hnext 3 (by decide), List.append_assoc, List.singleton_append]
        | none =>
          rw [percentDecode_stray hread, ← drop_of_getElem? he, ← drop_of_getElem? hd]
          dsimp only
          rw [hnext 1 (by decide), List.append_assoc, List.singleton_append]
      · have hplain : percentDecode (c :: b.drop (i + 1)) =
            plain c :: percentDecode (b.drop (i + 1)) := by
          by_cases hc : c = percent
          · have hlen : ¬i + 2 < b.length := fun hlen => hpair ⟨hc, hlen⟩
            refine percentDecode_short ?_ c
            rw [List.length_drop]
            omega
          · exact percentDecode_cons hc _
        rw [if_neg hpair, hplain, plain]
        split_ifs with hplus
        · rw [hnext 1 (by decide), List.append_assoc, List.singleton_append]
        · rw [hnext 1 (by decide), List.append_assoc, List.singleton_append]
    · rw [List.drop_eq_nil_of_le (by omega)]
      exact congrArg some (List.append_nil out).symm

theorem urlDecode_eq (s : List Char) :
    urlDecode s = some (fromUtf8Lossy (percentDecode (utf8Bytes s))).toList := by
  rw [urlDecode, urlDecodeFrom_eq]
  rfl

theorem fromUtf8Lossy_utf8Bytes (s : List Char) : (fromUtf8Lossy (utf8Bytes s)).toList = s := by
  rw [← toUTF8_ofList, fromUtf8Lossy_toUTF8, String.toList_ofList]

/-- A text that stands for a value is read as that value, characters of several bytes included. -/
theorem urlDecode_of_spells {value s : List Char} (h : Spells (utf8Bytes value) (utf8Bytes s)) :
    urlDecode s = some value := by
  rw [urlDecode_eq, percentDecode_of_spells h, fromUtf8Lossy_utf8Bytes]

theorem hexByte_returns {b : Bytes} {i : Nat} (h : 2 * i + 1 < b.length) :
    ∃ byte, hexByte b i = some byte := by
  have hd : b[2 * i]? = some b[2 * i] := List.getElem?_eq_getElem (by omega)
  have he : b[2 * i + 1]? = some b[2 * i + 1] := List.getElem?_eq_getElem h
  unfold hexByte
  rw [hd, Option.bind_some]
  cases hexNib b[2 * i] with
  | none => exact ⟨none, rfl⟩
  | some _ =>
    dsimp only
    rw [he]
    exact ⟨_, rfl⟩

theorem hexBytes_returns {b : Bytes} {is : List Nat} (h : ∀ i ∈ is, 2 * i + 1 < b.length) :
    ∃ out, hexBytes b is = some out := by
  induction is with
  | nil => exact ⟨_, rfl⟩
  | cons i is ih =>
    obtain ⟨hi, his⟩ := List.forall_mem_cons.mp h
    obtain ⟨byte, hbyte⟩ := hexByte_returns hi
    obtain ⟨out, hout⟩ := ih his
    rw [hexBytes, hbyte, Option.bind_some]
    cases byte with
    | none => exact ⟨_, rfl⟩
    | some byte =>
      dsimp only
      rw [hout]
      exact ⟨_, rfl⟩

theorem hex16_returns (s : List Char) : ∃ hash, hex16 s = some hash := by
  unfold hex16
  dsimp only
  split_ifs with hlen
  · exact ⟨_, rfl⟩
  · have hinside : ∀ i ∈ List.range 16, 2 * i + 1 < (utf8Bytes s).length := fun i hi => by
      have := List.mem_range.mp hi
      omega
    obtain ⟨out, hout⟩ := hexBytes_returns hinside
    rw [hout]
    exact ⟨_, rfl⟩

/-! ## Every text gets an answer -/

section

variable (parseAddr : List Char → Option SocketAddr)

theorem addTopic_returns (m : Magnet) (val : List Char) : ∃ m', addTopic m val = some m' := by
  unfold addTopic
  split
  · rename_i h _
    obtain ⟨hash, hhash⟩ := hex16_returns h
    rw [hhash]
    exact ⟨_, rfl⟩
  · split
    · exact ⟨_, rfl⟩
    · exact ⟨_, rfl⟩

theorem addValue_returns (m : Magnet) (key val : List Char) :
    ∃ m', addValue parseAddr m key val = some m' := by
  unfold addValue
  split_ifs
  · exact addTopic_returns m val
  · exact ⟨_, rfl⟩
  · exact ⟨_, rfl⟩
  · split
    · exact ⟨_, rfl⟩
    · exact ⟨_, rfl⟩
  · exact ⟨_, rfl⟩

theorem addPair_returns (m : Magnet) (pair : List Char) :
    ∃ m', addPair parseAddr m pair = some m' := by
  unfold addPair
  split
  · exact ⟨_, rfl⟩
  · rw [urlDecode_eq, Option.bind_some]
    exact addValue_returns parseAddr m _ _

theorem foldlM_addPair_returns (pairs : List (List Char)) (m : Magnet) :
    ∃ m', pairs.foldlM (addPair parseAddr) m = some m' := by
  induction pairs generalizing m with
  | nil => exact ⟨m, rfl⟩
  | cons pair pairs ih =>
    obtain ⟨m', hpair⟩ := addPair_returns parseAddr m pair
    obtain ⟨m'', hpairs⟩ := ih m'
    exact ⟨m'', by rw [List.foldlM_cons, hpair]; exact hpairs⟩

theorem parseMagnet_returns (query : List Char) : ∃ r, parseMagnet parseAddr query = some r := by
  obtain ⟨m, hm⟩ := foldlM_addPair_returns parseAddr (query.splitOn '&') ⟨.default, false⟩
  unfold parseMagnet
  rw [hm]
  exact ⟨_, rfl⟩

theorem parseFile_returns (f : List (List Char)) : ∃ r, parseFile parseAddr f = some r := by
  unfold parseFile
  split
  · exact ⟨_, rfl⟩
  · rw [urlDecode_eq, Option.bind_some]
    split
    · rename_i digits _ _
      obtain ⟨hash, hhash⟩ := hex16_returns digits
      rw [hhash]
      exact ⟨_, rfl⟩
    · exact ⟨_, rfl⟩

theorem parseEd2k_returns (rest : List Char) : ∃ r, parseEd2k parseAddr rest = some r := by
  unfold parseEd2k
  dsimp only
  split
  · exact ⟨_, rfl⟩
  · split_ifs
    · exact parseFile_returns parseAddr _
    · split
      · exact ⟨_, rfl⟩
      · exact ⟨_, rfl⟩
    · exact ⟨_, rfl⟩
    · split
      · exact ⟨_, rfl⟩
      · rw [urlDecode_eq]
        exact ⟨_, rfl⟩
    · exact ⟨_, rfl⟩

/-- Every text is parsed to its end, and no read goes beyond it. -/
theorem parseLink_returns (text : List Char) : ∃ r, parseLink parseAddr text = some r := by
  unfold parseLink
  dsimp only
  split
  · exact parseMagnet_returns parseAddr _
  · split
    · exact parseEd2k_returns parseAddr _
    · exact ⟨_, rfl⟩

end

end PadMule.Engine.Link
