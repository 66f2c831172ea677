import PadMule.Engine.ServeSession
import PadMule.Engine.TransferCodec

/-
  `mule-engine/src/share.rs`: `multipacket_wants_aich` by positions in the payload.

  A read past the end of the payload is `none`; there is none on any payload, and what the walk
  finds is what `Engine.multipacketWantsAich` finds on the bytes that are left (`walkAt_eq`). Over
  the sub-requests of a client it comes out behind each of them, at any version
  (`multipacket_walk`).
-/

namespace PadMule.Engine.Multipacket

open PadMule.Proto LittleEndian

/-! ## The walk -/

/-- The step over `n` bytes: the position behind them, if they are there. -/
def take (pos n len : Nat) : Option Nat := if len < pos + n then none else some (pos + n)

/-- What one turn of the loop comes to. -/
inductive Turn where
  | next (pos : Nat) (aich : Bool)
  | stop
deriving DecidableEq

/-- The walk goes on where a step could be made. -/
def Turn.behind : Option Nat → Turn
  | none => .stop
  | some pos => .next pos false

/-- The extended info behind OP_REQUESTFILENAME, as the sender's version has it. -/
def extendedInfo (payload : Bytes) (peerExtRequests : UInt8) (pos : Nat) : Option Turn :=
  if peerExtRequests = 0 then some (.next pos false)
  else if payload.length < pos + 2 then some .stop
  else do
    let lo ← payload[pos]?
    let hi ← payload[pos + 1]?
    let pc := lo.toNat + 256 * hi.toNat
    let status := if 0 < pc then take (pos + 2) ((pc + 7) / 8) payload.length else some (pos + 2)
    return .behind <| status.bind fun pos =>
      if 1 < peerExtRequests then take pos 2 payload.length else some pos

/-- One turn of the loop, at a sub-opcode. -/
def turn (payload : Bytes) (peerExtRequests : UInt8) (pos : Nat) : Option Turn := do
  let op ← payload[pos]?
  let pos := pos + 1
  if op = OP_REQUESTFILENAME then extendedInfo payload peerExtRequests pos
  else if op = OP_SETREQFILEID ∨ op = OP_REQUESTSOURCES then return .next pos false
  else if op = OP_REQUESTSOURCES2 then return .behind (take pos 3 payload.length)
  else if op = OP_AICHFILEHASHREQ then return .next pos true
  else return .stop

/-- Two steps are one over both lengths. -/
theorem take_bind_take (pos n k len : Nat) :
    (take pos n len).bind (fun pos => take pos k len) = take pos (n + k) len := by
  unfold take
  split_ifs with hn hk hk
  · rfl
  · omega
  · rw [Option.bind_some, if_pos (by omega)]
  · rw [Option.bind_some, if_neg (by omega), Nat.add_assoc]

/-- A step that is left out is one over no bytes. -/
theorem take_zero {pos len : Nat} (h : pos ≤ len) : take pos 0 len = some pos :=
  if_neg (Nat.not_lt_of_le h)

/-- The extended info, by what is left behind the sub-opcode. -/
theorem extendedInfo_eq {payload rest : Bytes} {pos : Nat} (v : UInt8)
    (hpos : pos ≤ payload.length) : payload.drop pos = rest →
    extendedInfo payload v pos = some (
      if v = 0 then .next pos false
      else match rest with
        | lo :: hi :: _ => .behind <| take (pos + 2)
          ((lo.toNat + 256 * hi.toNat + 7) / 8 + if 1 < v then 2 else 0) payload.length
        | _ => .stop) := by
  intro h
  have hlen : payload.length = pos + rest.length := by
    rw [← h, List.length_drop]
    omega
  have hget (k : Nat) : payload[pos + k]? = rest[k]? := by rw [← h, List.getElem?_drop]
  unfold extendedInfo
  by_cases hzero : v = 0
  · rw [if_pos hzero, if_pos hzero]
  rw [if_neg hzero, if_neg hzero]
  match rest with
  | [] => exact if_pos (by rw [hlen, List.length_nil]; omega)
  | [_] => exact if_pos (by rw [hlen, List.length_singleton]; omega)
  | lo :: hi :: rest =>
    rw [List.length_cons, List.length_cons] at hlen
    have hlo : payload[pos]? = some lo := hget 0
    have hhi : payload[pos + 1]? = some hi := hget 1
    have hstatus : (if 0 < lo.toNat + 256 * hi.toNat then
        take (pos + 2) ((lo.toNat + 256 * hi.toNat + 7) / 8) payload.length else some (pos + 2)) =
        take (pos + 2) ((lo.toNat + 256 * hi.toNat + 7) / 8) payload.length := by
      split_ifs with hpc
      · rfl
      · rw [Nat.eq_zero_of_not_pos hpc, take_zero (by omega)]
    rw [if_neg (by omega), hlo, hhi]
    simp only [Option.bind_eq_bind, Option.bind_some, hstatus]
    show some _ = some _
    split_ifs with hone
    · rw [take_bind_take]
    · rw [Option.bind_fun_some]
      rfl

/-- The walk over the bytes that a turn leaves. -/
def Turn.goOn (payload : Bytes) (v : UInt8) (n : Nat) (found : Bool) : Turn → Bool
  | .stop => found
  | .next pos aich => walkSubOpcodes v n (payload.drop pos) (found || aich)

/-- A turn that ends behind a step over `k` bytes goes on if the rest has them. -/
theorem goOn_behind_take {payload rest : Bytes} {pos : Nat} (hpos : pos ≤ payload.length)
    (h : payload.drop pos = rest) (v : UInt8) (k n : Nat) (found : Bool) :
    (Turn.behind (take pos k payload.length)).goOn payload v n found =
      if rest.length < k then found else walkSubOpcodes v n (rest.drop k) found := by
  have hlen : payload.length = pos + rest.length := by
    rw [← h, List.length_drop]
    omega
  unfold take
  split_ifs with hshort hrest hrest
  · rfl
  · omega
  · omega
  · show walkSubOpcodes v n (payload.drop (pos + k)) (found || false) = _
    rw [← List.drop_drop, h, Bool.or_false]

theorem le_of_behind_take {pos k len next : Nat} {aich : Bool}
    (h : Turn.behind (take pos k len) = .next next aich) : pos ≤ next := by
  unfold take at h
  split_ifs at h <;> cases h
  omega

/-- The walk over one sub-opcode, with what it is followed by not looked at yet. -/
theorem walkSubOpcodes_cons (v : UInt8) (n : Nat) (op : UInt8) (rest : Bytes) (found : Bool) :
    walkSubOpcodes v (n + 1) (op :: rest) found =
      if op = OP_REQUESTFILENAME then
        if v = 0 then walkSubOpcodes v n rest found
        else match rest with
          | lo :: hi :: rest =>
            let skip := (lo.toNat + 256 * hi.toNat + 7) / 8 + if 1 < v then 2 else 0
            if rest.length < skip then found else walkSubOpcodes v n (rest.drop skip) found
          | _ => found
      else if op = OP_SETREQFILEID ∨ op = OP_REQUESTSOURCES then walkSubOpcodes v n rest found
      else if op = OP_REQUESTSOURCES2 then
        if rest.length < 3 then found else walkSubOpcodes v n (rest.drop 3) found
      else if op = OP_AICHFILEHASHREQ then walkSubOpcodes v n rest true
      else found := by
  rw [walkSubOpcodes.eq_def]
  rfl

/-- One turn, by the bytes that are left: it reads nothing past the end, goes on behind its
    sub-opcode, and is a turn of the walk over those bytes. -/
theorem turn_spec {payload rest : Bytes} {op : UInt8} {pos : Nat} (v : UInt8)
    (h : payload.drop pos = op :: rest) : ∃ t, turn payload v pos = some t ∧
      (∀ next aich, t = .next next aich → pos < next) ∧
      ∀ n found, walkSubOpcodes v (n + 1) (op :: rest) found = t.goOn payload v n found := by
  have hpos : pos < payload.length := by
    rw [← Nat.not_le, ← List.drop_eq_nil_iff, h]
    exact List.cons_ne_nil op rest
  have hrest : payload.drop (pos + 1) = rest := by
    rw [← List.drop_drop, h, List.drop_one, List.tail_cons]
  have hop : payload[pos]? = some op := by
    rw [← Nat.add_zero pos, ← List.getElem?_drop, h]
    rfl
  have hnext (aich : Bool) (next : Nat) (aich' : Bool)
      (heq : Turn.next (pos + 1) aich = .next next aich') : pos < next := by
    cases heq
    exact Nat.lt_succ_self pos
  have hstay (n : Nat) (found : Bool) :
      walkSubOpcodes v n rest found = (Turn.next (pos + 1) false).goOn payload v n found := by
    rw [Turn.goOn, hrest, Bool.or_false]
  simp only [walkSubOpcodes_cons]
  unfold turn
  rw [hop]
  show ∃ t, (if op = OP_REQUESTFILENAME then extendedInfo payload v (pos + 1) else _) = some t ∧ _
  by_cases hname : op = OP_REQUESTFILENAME
  · simp only [if_pos hname]
    rw [extendedInfo_eq v hpos hrest]
    by_cases hzero : v = 0
    · simp only [if_pos hzero]
      exact ⟨_, rfl, hnext false, hstay⟩
    · simp only [if_neg hzero]
      match rest, hrest with
      | [], _ => exact ⟨.stop, rfl, nofun, fun _ _ => rfl⟩
      | [_], _ => exact ⟨.stop, rfl, nofun, fun _ _ => rfl⟩
      | lo :: hi :: rest, hrest =>
        have hpos2 : pos + 1 + 2 ≤ payload.length := by
          have hlen := congrArg List.length hrest
          rw [List.length_drop, List.length_cons, List.length_cons] at hlen
          omega
        have hrest2 : payload.drop (pos + 1 + 2) = rest := by
          rw [← List.drop_drop, hrest]
          rfl
        refine ⟨_, rfl, fun next aich heq => ?_, fun n found => ?_⟩
        · exact lt_of_lt_of_le (by omega) (le_of_behind_take heq)
        · rw [goOn_behind_take hpos2 hrest2]
  simp only [if_neg hname]
  by_cases hbare : op = OP_SETREQFILEID ∨ op = OP_REQUESTSOURCES
  · simp only [if_pos hbare]
    exact ⟨_, rfl, hnext false, hstay⟩
  simp only [if_neg hbare]
  by_cases hsources : op = OP_REQUESTSOURCES2
  · simp only [if_pos hsources]
    refine ⟨_, rfl, fun next aich heq => le_of_behind_take heq, fun n found => ?_⟩
    rw [goOn_behind_take hpos hrest]
  simp only [if_neg hsources]
  by_cases haich : op = OP_AICHFILEHASHREQ
  · simp only [if_pos haich]
    refine ⟨_, rfl, hnext true, fun n found => ?_⟩
    rw [Turn.goOn, hrest, Bool.or_true]
  · simp only [if_neg haich]
    exact ⟨.stop, rfl, nofun, fun _ _ => rfl⟩

theorem lt_of_turn {payload : Bytes} {v : UInt8} {pos next : Nat} {aich : Bool}
    (h : turn payload v pos = some (.next next aich)) : pos < next := by
  obtain ⟨op, hop, -⟩ := Option.bind_eq_some_iff.mp h
  obtain ⟨hpos, rfl⟩ := List.getElem?_eq_some_iff.mp hop
  obtain ⟨t, hturn, hlt, -⟩ := turn_spec v (List.drop_eq_getElem_cons hpos)
  rw [h] at hturn
  exact hlt next aich (Option.some.inj hturn).symm

/-- The walk from `pos` on. -/
def walkAt (payload : Bytes) (peerExtRequests : UInt8) (pos : Nat) (found : Bool) : Option Bool :=
  if _h : pos < payload.length then
    match _hturn : turn payload peerExtRequests pos with
    | none => none
    | some .stop => some found
    | some (.next next aich) => walkAt payload peerExtRequests next (found || aich)
  else some found
termination_by payload.length - pos
decreasing_by
  have hlt := lt_of_turn _hturn
  omega

/-- `multipacket_wants_aich`; a read past the end is `none`. -/
def multipacketWantsAich (payload : Bytes) (ext : Bool) (peerExtRequests : UInt8) : Option Bool :=
  walkAt payload peerExtRequests (16 + if ext then 8 else 0) false

theorem walkAt_eq (payload : Bytes) (v : UInt8) {n pos : Nat} (h : payload.length - pos ≤ n)
    (found : Bool) :
    walkAt payload v pos found = some (walkSubOpcodes v n (payload.drop pos) found) := by
  induction n generalizing pos found with
  | zero =>
    rw [walkAt, dif_neg (by omega)]
    rfl
  | succ n ih =>
    rw [walkAt]
    split_ifs with hpos
    · obtain ⟨t, hturn, hlt, hwalk⟩ := turn_spec v (List.drop_eq_getElem_cons hpos)
      rw [List.drop_eq_getElem_cons hpos, hwalk]
      split
      · rename_i heq
        rw [hturn] at heq
        cases heq
      · rename_i heq
        rw [hturn] at heq
        cases heq
        rfl
      · rename_i next aich heq
        rw [hturn] at heq
        cases heq
        have hgo := hlt next aich rfl
        exact ih (by omega) _
    · rw [List.drop_eq_nil_of_le (by omega)]
      rfl

/-! ## Sub-requests -/

/-- A part count and a bitfield as long as the count says. -/
structure PartStatus where
  count : UInt16
  bitfield : Bytes
  len : bitfield.length = (count.toNat + 7) / 8
deriving DecidableEq

def PartStatus.bytes (s : PartStatus) : Bytes := writeU16 s.count ++ s.bitfield

inductive SubRequest where
  /-- The count of complete sources is written from version 2 on. -/
  | requestFilename (status : PartStatus) (completeSources : UInt16)
  | setReqFileId
  | requestSources
  | requestSources2 (version : UInt8) (options : UInt16)
  | aichFileHashReq
deriving DecidableEq

/-- A sub-request as a client of this version writes it. -/
def SubRequest.bytes (version : UInt8) : SubRequest → Bytes
  | .requestFilename status completeSources =>
    OP_REQUESTFILENAME :: if version = 0 then [] else
      status.bytes ++ if 1 < version then writeU16 completeSources else []
  | .setReqFileId => [OP_SETREQFILEID]
  | .requestSources => [OP_REQUESTSOURCES]
  | .requestSources2 version options => OP_REQUESTSOURCES2 :: version :: writeU16 options
  | .aichFileHashReq => [OP_AICHFILEHASHREQ]

/-- The hash, the size in the extended form, and the sub-requests. -/
def multipacket (hash : Hash16) (ext : Bool) (size : UInt64) (version : UInt8)
    (requests : List SubRequest) : Bytes :=
  hash.bytes ++ (if ext then writeU64 size else []) ++ requests.flatMap (SubRequest.bytes version)

/-- What our own part status writes is such a status. -/
def PartStatus.ofParts (parts : List Bool) (h : parts.length < 2 ^ 16) : PartStatus where
  count := .ofNat parts.length
  bitfield := Bitfield.packBits parts
  len := by rw [Bitfield.length_packBits, UInt16.toNat_ofNat_of_lt' h]

theorem PartStatus.bytes_ofParts (parts : List Bool) (h : parts.length < 2 ^ 16) :
    (ofParts parts h).bytes = writePartStatus parts := rfl

/-- The walk over the bytes alone. -/
def walk (v : UInt8) (bytes : Bytes) (found : Bool) : Bool :=
  walkSubOpcodes v bytes.length bytes found

/-- More turns than bytes make no difference. -/
theorem walk_of_le (v : UInt8) {n : Nat} {bytes : Bytes} (h : bytes.length ≤ n) (found : Bool) :
    walkSubOpcodes v n bytes found = walk v bytes found := by
  have hn := @walkAt_eq bytes v n 0 (by omega) found
  have hlen := @walkAt_eq bytes v bytes.length 0 (by omega) found
  rw [hn] at hlen
  exact Option.some.inj hlen

theorem walk_cons (v : UInt8) (op : UInt8) (rest : Bytes) (found : Bool) :
    walk v (op :: rest) found =
      if op = OP_REQUESTFILENAME then
        if v = 0 then walk v rest found
        else match rest with
          | lo :: hi :: rest =>
            let skip := (lo.toNat + 256 * hi.toNat + 7) / 8 + if 1 < v then 2 else 0
            if rest.length < skip then found else walk v (rest.drop skip) found
          | _ => found
      else if op = OP_SETREQFILEID ∨ op = OP_REQUESTSOURCES then walk v rest found
      else if op = OP_REQUESTSOURCES2 then
        if rest.length < 3 then found else walk v (rest.drop 3) found
      else if op = OP_AICHFILEHASHREQ then walk v rest true
      else found := by
  have hdrop (k : Nat) (found : Bool) :
      walkSubOpcodes v rest.length (rest.drop k) found = walk v (rest.drop k) found :=
    walk_of_le v (by rw [List.length_drop]; omega) found
  have hrest (found : Bool) : walkSubOpcodes v rest.length rest found = walk v rest found := rfl
  rw [walk, List.length_cons, walkSubOpcodes_cons, hrest, hrest, hdrop]
  match rest, hdrop with
  | [], _ => rfl
  | [_], _ => rfl
  | lo :: hi :: rest, hdrop =>
    have hskip (k : Nat) : walkSubOpcodes v (lo :: hi :: rest).length (rest.drop k) found =
        walk v (rest.drop k) found := hdrop (k + 2) found
    dsimp only
    rw [hskip]

/-- A word is two bytes, read as they are written. -/
theorem exists_writeU16 (w : UInt16) :
    ∃ lo hi : UInt8, writeU16 w = [lo, hi] ∧ lo.toNat + 256 * hi.toNat = w.toNat := by
  refine ⟨_, _, rfl, ?_⟩
  have hword : ofLE (toLE 2 w.toNat) = w.toNat := ofLE_toLE w.toNat_lt
  simpa [toLE, ofLE] using hword

/-- The walk comes out behind a sub-request, whatever follows. -/
theorem walk_request (v : UInt8) (r : SubRequest) (rest : Bytes) (found : Bool) :
    walk v (r.bytes v ++ rest) found = walk v rest (found || r = .aichFileHashReq) := by
  cases r with
  | requestFilename status completeSources =>
    obtain ⟨lo, hi, hcount, hpc⟩ := exists_writeU16 status.count
    obtain ⟨lo', hi', hsources, -⟩ := exists_writeU16 completeSources
    have hlen := status.len
    rw [SubRequest.bytes, PartStatus.bytes, hcount, hsources, List.cons_append, walk_cons,
      if_pos rfl, decide_eq_false SubRequest.noConfusion, Bool.or_false]
    by_cases hzero : v = 0
    · rw [if_pos hzero, if_pos hzero]
      rfl
    · rw [if_neg hzero, if_neg hzero]
      dsimp only [List.cons_append, List.nil_append]
      rw [hpc, List.append_assoc, ← hlen]
      by_cases hone : 1 < v
      · rw [if_pos hone, if_pos hone, if_neg (by simp), ← List.drop_drop, List.drop_left]
        rfl
      · rw [if_neg hone, if_neg hone, if_neg (by simp), Nat.add_zero, List.drop_left]
        rfl
  | setReqFileId =>
    rw [SubRequest.bytes, List.singleton_append, walk_cons, if_neg (by decide), if_pos (by decide)]
    simp
  | requestSources =>
    rw [SubRequest.bytes, List.singleton_append, walk_cons, if_neg (by decide), if_pos (by decide)]
    simp
  | requestSources2 version options =>
    obtain ⟨lo, hi, hoptions, -⟩ := exists_writeU16 options
    rw [SubRequest.bytes, hoptions, List.cons_append, walk_cons, if_neg (by decide),
      if_neg (by decide), if_pos rfl, if_neg (by simp)]
    simp
  | aichFileHashReq =>
    rw [SubRequest.bytes, List.singleton_append, walk_cons, if_neg (by decide), if_neg (by decide),
      if_neg (by decide), if_pos rfl]
    simp

theorem walk_requests (v : UInt8) (requests : List SubRequest) (rest : Bytes) (found : Bool) :
    walk v (requests.flatMap (SubRequest.bytes v) ++ rest) found =
      walk v rest (found || .aichFileHashReq ∈ requests) := by
  induction requests generalizing found with
  | nil => simp
  | cons r requests ih =>
    rw [List.flatMap_cons, List.append_assoc, walk_request, ih, Bool.or_assoc]
    congr 2
    simp [List.mem_cons, eq_comm]

theorem walk_unknown (v : UInt8) {op : UInt8} (tail : Bytes) (found : Bool)
    (h : op ∉ [OP_REQUESTFILENAME, OP_SETREQFILEID, OP_REQUESTSOURCES, OP_REQUESTSOURCES2,
      OP_AICHFILEHASHREQ]) : walk v (op :: tail) found = found := by
  simp only [List.mem_cons, List.not_mem_nil, or_false, not_or] at h
  obtain ⟨hname, hset, hsources, hsources2, haich⟩ := h
  rw [walk_cons, if_neg hname, if_neg (not_or.mpr ⟨hset, hsources⟩), if_neg hsources2, if_neg haich]

/-- The list of `Engine.multipacketWantsAich`, which the serving session asks, is the same walk. -/
theorem multipacketWantsAich_eq (payload : Bytes) (ext : Bool) (v : UInt8) :
    multipacketWantsAich payload ext v = some (Engine.multipacketWantsAich payload ext v) :=
  walkAt_eq payload v (by rw [List.length_drop]) false

theorem multipacketWantsAich_append (hash : Hash16) (ext : Bool) (size : UInt64) (v : UInt8)
    (requests : List SubRequest) (rest : Bytes) :
    multipacketWantsAich (multipacket hash ext size v requests ++ rest) ext v =
      some (walk v rest (.aichFileHashReq ∈ requests)) := by
  have hhead : (hash.bytes ++ if ext then writeU64 size else []).length =
      16 + if ext then 8 else 0 := by
    rw [List.length_append, hash.len]
    cases ext with
    | false => rfl
    | true => exact congrArg (16 + ·) (length_toLE 8 _)
  rw [multipacketWantsAich, walkAt_eq _ v le_rfl, multipacket, List.append_assoc, ← hhead,
    List.drop_left, List.length_append, Nat.add_sub_cancel_left]
  show some (walk v _ false) = _
  rw [walk_requests, Bool.false_or]

/-- Of the sub-requests of a client, of any version and followed by an unknown sub-opcode or by
    nothing, the walk finds whether the AICH root is asked for; and on no payload it reads past
    the end. -/
theorem multipacket_walk :
    (∀ hash ext size v requests, multipacketWantsAich (multipacket hash ext size v requests) ext v =
      some (decide (SubRequest.aichFileHashReq ∈ requests))) ∧
    (∀ hash ext size v requests op tail, op ∉ [OP_REQUESTFILENAME, OP_SETREQFILEID,
        OP_REQUESTSOURCES, OP_REQUESTSOURCES2, OP_AICHFILEHASHREQ] →
      multipacketWantsAich (multipacket hash ext size v requests ++ op :: tail) ext v =
        multipacketWantsAich (multipacket hash ext size v requests) ext v) ∧
    ∀ payload ext v, ∃ found, multipacketWantsAich payload ext v = some found := by
  have hwhole (hash : Hash16) (ext : Bool) (size : UInt64) (v : UInt8)
      (requests : List SubRequest) :
      multipacketWantsAich (multipacket hash ext size v requests) ext v =
        some (decide (SubRequest.aichFileHashReq ∈ requests)) := by
    have happend := multipacketWantsAich_append hash ext size v requests []
    rwa [List.append_nil] at happend
  refine ⟨hwhole, fun hash ext size v requests op tail hop => ?_, fun payload ext v => ?_⟩
  · rw [hwhole, multipacketWantsAich_append, walk_unknown v tail _ hop]
  · exact ⟨_, multipacketWantsAich_eq payload ext v⟩

end PadMule.Engine.Multipacket
