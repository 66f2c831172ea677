import PadMule.Proto.Ed2kHash
import Mathlib.Algebra.Order.Floor.Div

/-
  `mule-proto/src/hash.rs`: `ed2k_hash_parts` over a reader that has a state of its own, as a
  closure that it may change, and that may fail.

  The calls that are made are for the data parts in ascending order, each once, up to the last one
  or to the first that fails; the sentinel part of an exact multiple is hashed and not asked for
  (`streaming_hash`).
-/

namespace PadMule.Proto

/-- A reader's monad: what fails leaves the state behind. -/
abbrev Reading (σ ε : Type) := ExceptT ε (StateM σ)

section

variable (md4 : Bytes → Hash16)

/-- One turn of the loop: the hash of part `i` behind those before it. -/
def hashPart {m : Type → Type*} [Monad m] (size : Nat) (readPart : Nat → m Bytes) (concat : Bytes)
    (i : Nat) : m Bytes := do
  let start := i * PARTSIZE
  let data ← if size ≤ start then pure [] else readPart i
  return concat ++ (md4 data).bytes

/-- `ed2k_hash_parts`, in the monad that the reader runs in. -/
def ed2kHashPartsM {m : Type → Type*} [Monad m] (size : Nat) (readPart : Nat → m Bytes) :
    m Hash16 := do
  let n := partCount size
  if n = 1 then
    let data ← if size = 0 then pure [] else readPart 0
    return md4 data
  else
    let concat ← (List.range n).foldlM (hashPart md4 size readPart) []
    return md4 concat

end

variable {σ ε : Type}

/-- One call of the reader: the part that was asked for, and the answer. -/
abbrev Call (ε : Type) := Nat × Except ε Bytes

/-- A reader that also notes its calls. -/
def noted (readPart : Nat → Reading σ ε Bytes) (i : Nat) : Reading (σ × List (Call ε)) ε Bytes :=
  fun (s, calls) =>
    let (answer, s) := readPart i s
    (answer, s, calls ++ [(i, answer)])

/-- The calls of a reader that is asked for these parts in turn, up to the first that fails. -/
inductive Asked : List Nat → List (Call ε) → Prop
  | nil : Asked [] []
  | ok {i : Nat} {is : List Nat} {calls : List (Call ε)} (part : Bytes) (rest : Asked is calls) :
      Asked (i :: is) ((i, .ok part) :: calls)
  | error (i : Nat) (is : List Nat) (e : ε) : Asked (i :: is) [(i, .error e)]

/-- The hashes of the parts that calls brought, or the failure. -/
def gather (md4 : Bytes → Hash16) (concat : Bytes) (calls : List (Call ε)) : Except ε Bytes :=
  calls.foldlM (fun concat call => call.2.map fun part => concat ++ (md4 part).bytes) concat

/-- The hash of the sentinel part, where there is one. -/
def sentinel (md4 : Bytes → Hash16) (size : Nat) : Bytes :=
  if PARTSIZE ∣ size then (md4 []).bytes else []

/-- What the calls come to. A single part is hashed once, several are once more together. -/
def outcome (md4 : Bytes → Hash16) (size : Nat) (calls : List (Call ε)) : Except ε Hash16 :=
  if partCount size = 1 then
    match calls with
    | [] => .ok (md4 [])
    | call :: _ => call.2.map md4
  else
    (gather md4 [] calls).map fun concat => md4 (concat ++ sentinel md4 size)

/-- Data part `i` of a file. -/
def partAt (data : Bytes) (i : Nat) : Bytes := (data.drop (i * PARTSIZE)).take PARTSIZE

/-! ## Calls -/

theorem Asked.isPrefix {is : List Nat} {calls : List (Call ε)} (h : Asked is calls) :
    calls.map Prod.fst <+: is := by
  induction h with
  | nil => exact List.nil_prefix
  | ok part _ ih => exact List.cons_prefix_cons.mpr ⟨rfl, ih⟩
  | error i is e => exact ⟨is, rfl⟩

theorem Asked.whole {is : List Nat} {calls : List (Call ε)} (h : Asked is calls)
    (hok : ∀ call ∈ calls, ∃ part, call.2 = .ok part) : calls.map Prod.fst = is := by
  induction h with
  | nil => rfl
  | ok part _ ih =>
    rw [List.map_cons, ih fun call hcall => hok call (List.mem_cons_of_mem _ hcall)]
  | error i is e =>
    obtain ⟨part, hpart⟩ := hok _ (List.mem_singleton_self _)
    cases hpart

/-- A call that fails is the last one, and its failure is what they all come to. -/
theorem Asked.failed {is : List Nat} {calls : List (Call ε)} (h : Asked is calls)
    {j : Nat} {e : ε} (hfail : (j, .error e) ∈ calls) (md4 : Bytes → Hash16) (concat : Bytes) :
    gather md4 concat calls = .error e ∧ ∃ front, calls = front ++ [(j, .error e)] := by
  induction h generalizing concat with
  | nil => exact absurd hfail List.not_mem_nil
  | ok part _ ih =>
    rcases List.mem_cons.mp hfail with heq | hfail
    · cases heq
    · obtain ⟨hgather, front, hfront⟩ := ih hfail (concat ++ (md4 part).bytes)
      exact ⟨hgather, _ :: front, by rw [hfront, List.cons_append]⟩
  | error i is e' =>
    cases List.mem_singleton.mp hfail
    exact ⟨rfl, [], rfl⟩

theorem gather_parts {md4 : Bytes → Hash16} {data : Bytes} {calls : List (Call ε)}
    (h : ∀ call ∈ calls, call.2 = .ok (partAt data call.1)) (concat : Bytes) :
    gather md4 concat calls = .ok (concat ++ (calls.map Prod.fst).flatMap fun i =>
      (md4 (partAt data i)).bytes) := by
  induction calls generalizing concat with
  | nil => exact congrArg Except.ok (List.append_nil concat).symm
  | cons call calls ih =>
    obtain ⟨hcall, hcalls⟩ := List.forall_mem_cons.mp h
    have hstep : gather md4 concat (call :: calls) =
        gather md4 (concat ++ (md4 (partAt data call.1)).bytes) calls := by
      rw [gather, List.foldlM_cons, hcall]
      rfl
    rw [hstep, ih hcalls, List.map_cons, List.flatMap_cons, List.append_assoc]

/-! ## The loop -/

variable {md4 : Bytes → Hash16} {size : Nat} {readPart : Nat → Reading σ ε Bytes}

theorem bind_ok_apply {α β : Type} {x : Reading σ ε α} {s s' : σ} {a : α} (h : x s = (.ok a, s'))
    (f : α → Reading σ ε β) : (x >>= f) s = f a s' := by
  show ExceptT.bindCont f (x s).1 (x s).2 = _
  rw [h]
  rfl

theorem bind_error_apply {α β : Type} {x : Reading σ ε α} {s s' : σ} {e : ε}
    (h : x s = (.error e, s')) (f : α → Reading σ ε β) : (x >>= f) s = (.error e, s') := by
  show ExceptT.bindCont f (x s).1 (x s).2 = _
  rw [h]
  rfl

theorem noted_apply {i : Nat} {s s' : σ} {answer : Except ε Bytes}
    (h : readPart i s = (answer, s')) (calls : List (Call ε)) :
    noted readPart i (s, calls) = (answer, s', calls ++ [(i, answer)]) := by
  show ((readPart i s).1, (readPart i s).2, calls ++ [(i, (readPart i s).1)]) = _
  rw [h]

theorem hashPart_of_lt {m : Type → Type*} [Monad m] {readPart : Nat → m Bytes} {i : Nat}
    (h : i * PARTSIZE < size) (concat : Bytes) : hashPart md4 size readPart concat i =
      readPart i >>= fun data => pure (concat ++ (md4 data).bytes) := by
  unfold hashPart
  dsimp only
  rw [if_neg (Nat.not_le_of_lt h)]

theorem hashPart_of_le {i : Nat} (h : size ≤ i * PARTSIZE) (concat : Bytes) :
    hashPart md4 size readPart concat i = pure (concat ++ (md4 []).bytes) := by
  unfold hashPart
  dsimp only
  rw [if_pos h]
  rfl

variable (md4 readPart) in
/-- What the loop comes to, with the reader as it is and with its calls noted. -/
theorem asked_foldlM {is : List Nat} (h : ∀ i ∈ is, i * PARTSIZE < size) (concat : Bytes) (s : σ)
    (calls : List (Call ε)) : ∃ s' new, Asked is new ∧
      is.foldlM (hashPart md4 size readPart) concat s = (gather md4 concat new, s') ∧
      is.foldlM (hashPart md4 size (noted readPart)) concat (s, calls) =
        (gather md4 concat new, s', calls ++ new) := by
  induction is generalizing concat s calls with
  | nil => exact ⟨s, [], .nil, rfl, by rw [List.append_nil]; rfl⟩
  | cons i is ih =>
    obtain ⟨hi, his⟩ := List.forall_mem_cons.mp h
    rcases hread : readPart i s with ⟨answer, s'⟩
    have hnote := noted_apply hread calls
    rw [List.foldlM_cons, List.foldlM_cons, hashPart_of_lt hi, hashPart_of_lt hi]
    cases answer with
    | ok part =>
      obtain ⟨s'', new, hnew, hplain, hnoted⟩ :=
        ih his (concat ++ (md4 part).bytes) s' (calls ++ [(i, .ok part)])
      refine ⟨s'', (i, .ok part) :: new, .ok part hnew, ?_, ?_⟩
      · rw [bind_assoc, bind_ok_apply hread, pure_bind]
        exact hplain
      · rw [List.append_assoc] at hnoted
        rw [bind_assoc, bind_ok_apply hnote, pure_bind]
        exact hnoted
    | error e =>
      refine ⟨s', [(i, .error e)], .error i is e, ?_, ?_⟩
      · rw [bind_assoc, bind_error_apply hread]
        rfl
      · rw [bind_assoc, bind_error_apply hnote]
        rfl

/-! ## The hash -/

/-- The parts that have data, and the empty one behind an exact multiple. -/
theorem range_partCount (size : Nat) : List.range (partCount size) =
    List.range (size ⌈/⌉ PARTSIZE) ++ if PARTSIZE ∣ size then [size ⌈/⌉ PARTSIZE] else [] := by
  have hpos : 0 < PARTSIZE := by decide
  rw [partCount, Nat.ceilDiv_eq_add_pred_div]
  split_ifs with hmul
  · obtain ⟨k, rfl⟩ := hmul
    have hceil : (PARTSIZE * k + PARTSIZE - 1) / PARTSIZE = k := by
      rw [Nat.add_sub_assoc hpos, Nat.mul_add_div hpos, Nat.div_eq_of_lt (by decide), Nat.add_zero]
    rw [hceil, Nat.mul_div_cancel_left k hpos, List.range_succ]
  · have hmod : 0 < size % PARTSIZE := Nat.pos_of_ne_zero fun h0 => hmul (Nat.dvd_of_mod_eq_zero h0)
    have hceil : (size + PARTSIZE - 1) / PARTSIZE = size / PARTSIZE + 1 := by
      unfold PARTSIZE at *
      omega
    rw [hceil, List.append_nil]

theorem mul_lt_of_lt_ceilDiv {i : Nat} (h : i < size ⌈/⌉ PARTSIZE) : i * PARTSIZE < size := by
  rw [Nat.ceilDiv_eq_add_pred_div] at h
  unfold PARTSIZE at *
  omega

theorem ed2kHashPartsM_of_one {m : Type → Type*} [Monad m] {readPart : Nat → m Bytes}
    (h : partCount size = 1) : ed2kHashPartsM md4 size readPart =
      (if size = 0 then pure [] else readPart 0) >>= fun data => pure (md4 data) := by
  unfold ed2kHashPartsM
  dsimp only
  rw [if_pos h]
  split_ifs <;> rfl

theorem ed2kHashPartsM_of_ne_one {m : Type → Type*} [Monad m] {readPart : Nat → m Bytes}
    (h : partCount size ≠ 1) : ed2kHashPartsM md4 size readPart =
      (List.range (partCount size)).foldlM (hashPart md4 size readPart) [] >>= fun concat =>
        pure (md4 concat) := by
  unfold ed2kHashPartsM
  dsimp only
  rw [if_neg h]

/-- The sentinel part is a turn without a call. -/
theorem foldlM_partCount (concat : Bytes) : (List.range (partCount size)).foldlM
    (hashPart md4 size readPart) concat =
      (List.range (size ⌈/⌉ PARTSIZE)).foldlM (hashPart md4 size readPart) concat >>= fun concat =>
        pure (concat ++ sentinel md4 size) := by
  rw [range_partCount, List.foldlM_append, sentinel]
  congr 1
  funext concat
  split_ifs with hmul
  · have hend : size ≤ size ⌈/⌉ PARTSIZE * PARTSIZE := by
      rw [Nat.ceilDiv_eq_add_pred_div]
      unfold PARTSIZE
      omega
    rw [List.foldlM_cons, hashPart_of_le hend, pure_bind]
    rfl
  · rw [List.append_nil]
    rfl

theorem outcome_of_one (h : partCount size = 1) (calls : List (Call ε)) :
    outcome md4 size calls = match calls with
      | [] => .ok (md4 [])
      | call :: _ => call.2.map md4 := by
  unfold outcome
  exact if_pos h

theorem outcome_of_ne_one (h : partCount size ≠ 1) (calls : List (Call ε)) :
    outcome md4 size calls =
      (gather md4 [] calls).map fun concat => md4 (concat ++ sentinel md4 size) := by
  unfold outcome
  exact if_neg h

/-- A file of one part has no data or one part of it. -/
theorem ceilDiv_of_one (h : partCount size = 1) :
    size ⌈/⌉ PARTSIZE = if size = 0 then 0 else 1 := by
  rw [Nat.ceilDiv_eq_add_pred_div]
  unfold partCount PARTSIZE at *
  split_ifs <;> omega

theorem asked_ed2kHashPartsM (md4 : Bytes → Hash16) (size : Nat)
    (readPart : Nat → Reading σ ε Bytes) (s : σ) : ∃ s' calls,
      Asked (List.range (size ⌈/⌉ PARTSIZE)) calls ∧
      ed2kHashPartsM md4 size readPart s = (outcome md4 size calls, s') ∧
      ed2kHashPartsM md4 size (noted readPart) (s, []) = (outcome md4 size calls, s', calls) := by
  by_cases hone : partCount size = 1
  · rw [ed2kHashPartsM_of_one hone, ed2kHashPartsM_of_one hone, ceilDiv_of_one hone]
    simp only [outcome_of_one hone]
    split_ifs with hzero
    · exact ⟨s, [], .nil, rfl, rfl⟩
    · rcases hread : readPart 0 s with ⟨answer, s'⟩
      have hnote := noted_apply hread []
      refine ⟨s', [(0, answer)], ?_⟩
      cases answer with
      | ok part => exact ⟨.ok part .nil, bind_ok_apply hread _, bind_ok_apply hnote _⟩
      | error e => exact ⟨.error 0 [] e, bind_error_apply hread _, bind_error_apply hnote _⟩
  · obtain ⟨s', calls, hasked, hplain, hnoted⟩ := asked_foldlM md4 readPart
      (fun i hi => mul_lt_of_lt_ceilDiv (List.mem_range.mp hi)) [] s []
    rw [List.nil_append] at hnoted
    refine ⟨s', calls, hasked, ?_⟩
    rw [ed2kHashPartsM_of_ne_one hone, ed2kHashPartsM_of_ne_one hone, foldlM_partCount,
      foldlM_partCount, bind_assoc, bind_assoc, outcome_of_ne_one hone]
    cases hgather : gather md4 [] calls with
    | ok concat =>
      rw [hgather] at hplain hnoted
      exact ⟨bind_ok_apply hplain _, bind_ok_apply hnoted _⟩
    | error e =>
      rw [hgather] at hplain hnoted
      exact ⟨bind_error_apply hplain _, bind_error_apply hnoted _⟩

theorem Asked.outcome_failed {calls : List (Call ε)}
    (h : Asked (List.range (size ⌈/⌉ PARTSIZE)) calls) {j : Nat} {e : ε}
    (hfail : (j, .error e) ∈ calls) (md4 : Bytes → Hash16) : outcome md4 size calls = .error e := by
  obtain ⟨hgather, front, hfront⟩ := h.failed hfail md4 []
  by_cases hone : partCount size = 1
  · have hlen := h.isPrefix.length_le
    rw [ceilDiv_of_one hone, hfront, List.length_map, List.length_append, List.length_singleton,
      List.length_range] at hlen
    have hnil : front = [] := List.eq_nil_of_length_eq_zero (by split_ifs at hlen <;> omega)
    rw [outcome_of_one hone, hfront, hnil]
    rfl
  · rw [outcome_of_ne_one hone, hgather]
    rfl

/-- The hash in memory, over the parts that have data. -/
theorem ed2kHash_eq (md4 : Bytes → Hash16) (data : Bytes) :
    ed2kHash md4 data = if partCount data.length = 1 then md4 data
      else md4 (((List.range (data.length ⌈/⌉ PARTSIZE)).flatMap fun i =>
        (md4 (partAt data i)).bytes) ++ sentinel md4 data.length) := by
  have hslice : ∀ i, (data.take (min (i * PARTSIZE + PARTSIZE) data.length)).drop (i * PARTSIZE) =
      partAt data i := by
    intro i
    rw [partAt, ← List.take_take, List.take_length, List.drop_take, Nat.add_sub_cancel_left]
  unfold ed2kHash
  simp only [hslice]
  have hsentinel : (if PARTSIZE ∣ data.length then [data.length ⌈/⌉ PARTSIZE] else []).flatMap
      (fun i => (md4 (partAt data i)).bytes) = sentinel md4 data.length := by
    unfold sentinel
    split_ifs with hmul
    · have hend : partAt data (data.length ⌈/⌉ PARTSIZE) = [] := by
        have hle : data.length ≤ data.length ⌈/⌉ PARTSIZE * PARTSIZE := by
          rw [Nat.ceilDiv_eq_add_pred_div]
          unfold PARTSIZE
          omega
        rw [partAt, List.drop_eq_nil_of_le hle, List.take_nil]
      rw [List.flatMap_singleton, hend]
    · rfl
  rw [range_partCount, List.flatMap_append, hsentinel]

theorem Asked.outcome_parts {data : Bytes} {calls : List (Call ε)}
    (h : Asked (List.range (data.length ⌈/⌉ PARTSIZE)) calls) (md4 : Bytes → Hash16)
    (hparts : ∀ call ∈ calls, call.2 = .ok (partAt data call.1)) :
    outcome md4 data.length calls = .ok (ed2kHash md4 data) := by
  have hcalls := h.whole fun call hcall => ⟨_, hparts call hcall⟩
  rw [ed2kHash_eq]
  split_ifs with hone
  · rw [outcome_of_one hone]
    have hlt : data.length < PARTSIZE := by
      unfold partCount PARTSIZE at *
      omega
    rw [ceilDiv_of_one hone] at hcalls
    split_ifs at hcalls with hzero
    · rw [List.map_eq_nil_iff.mp hcalls, List.length_eq_zero_iff.mp hzero]
    · obtain ⟨call, rfl, hfirst⟩ := List.map_eq_singleton_iff.mp hcalls
      have hpart := hparts call (List.mem_singleton_self _)
      rw [hfirst, partAt, Nat.zero_mul, List.drop_zero, List.take_of_length_le hlt.le] at hpart
      show call.2.map md4 = _
      rw [hpart]
      rfl
  · rw [outcome_of_ne_one hone, gather_parts hparts, hcalls, List.nil_append]
    rfl

/-- The calls are for the data parts in ascending order, each once, and all of them if none fails.
    If they bring the parts of `data`, the result is its hash; one that fails is the last, and its
    error is the result. -/
theorem streaming_hash (md4 : Bytes → Hash16) (data : Bytes) (readPart : Nat → Reading σ ε Bytes)
    (s : σ) :
    let calls := (ed2kHashPartsM md4 data.length (noted readPart) (s, [])).2.2
    let result := (ed2kHashPartsM md4 data.length readPart s).1
    calls.map Prod.fst = List.range calls.length ∧ calls.length ≤ data.length ⌈/⌉ PARTSIZE ∧
      ((∀ call ∈ calls, ∃ part, call.2 = .ok part) →
        calls.length = data.length ⌈/⌉ PARTSIZE) ∧
      ((∀ call ∈ calls, call.2 = .ok (partAt data call.1)) → result = .ok (ed2kHash md4 data)) ∧
      ∀ j e, (j, .error e) ∈ calls → result = .error e ∧ calls.length = j + 1 := by
  obtain ⟨s', calls, hasked, hplain, hnoted⟩ :=
    asked_ed2kHashPartsM md4 data.length readPart s
  intro calls' result
  have hcalls : calls' = calls := congrArg (fun r => r.2.2) hnoted
  have hresult : result = outcome md4 data.length calls := congrArg Prod.fst hplain
  rw [hcalls, hresult]
  have hlen : calls.length ≤ data.length ⌈/⌉ PARTSIZE := by
    have hlen := hasked.isPrefix.length_le
    rwa [List.length_map, List.length_range] at hlen
  have horder : calls.map Prod.fst = List.range calls.length := by
    rw [List.prefix_iff_eq_take.mp hasked.isPrefix, List.length_map, List.take_range,
      Nat.min_eq_left hlen]
  refine ⟨horder, hlen, fun hok => ?_, hasked.outcome_parts md4, fun j e hfail => ?_⟩
  · have hwhole := congrArg List.length (hasked.whole hok)
    rwa [List.length_map, List.length_range] at hwhole
  · refine ⟨hasked.outcome_failed hfail md4, ?_⟩
    obtain ⟨-, front, rfl⟩ := hasked.failed hfail md4 []
    rw [List.map_append, List.length_append, List.length_singleton, List.range_succ] at horder
    obtain ⟨-, hlast⟩ := List.append_inj' horder rfl
    have hj : j = front.length := by simpa using hlast
    rw [hj, List.length_append, List.length_singleton]

/-! ## A reader without a state -/

theorem foldlM_option (is : List Nat) (readPart : Nat → Option Bytes) (concat : Bytes) :
    is.foldlM (hashPart md4 size readPart) concat =
      (is.mapM fun i => if size ≤ i * PARTSIZE then some [] else readPart i).map fun parts =>
        concat ++ parts.flatMap fun data => (md4 data).bytes := by
  induction is generalizing concat with
  | nil => exact congrArg some (List.append_nil concat).symm
  | cons i is ih =>
    have hturn : hashPart md4 size readPart concat i =
        (if size ≤ i * PARTSIZE then some [] else readPart i).map fun data =>
          concat ++ (md4 data).bytes := by
      unfold hashPart
      dsimp only
      split_ifs with hend
      · rfl
      · cases readPart i <;> rfl
    rw [List.foldlM_cons, hturn, List.mapM_cons]
    cases (if size ≤ i * PARTSIZE then some [] else readPart i) with
    | none => rfl
    | some data =>
      show is.foldlM _ (concat ++ (md4 data).bytes) = _
      rw [ih]
      cases is.mapM fun i => if size ≤ i * PARTSIZE then some [] else readPart i with
      | none => rfl
      | some parts => exact congrArg some (List.append_assoc ..)

/-- The hash is the one of `ed2kHashParts`. -/
theorem ed2kHashPartsM_option (md4 : Bytes → Hash16) (size : Nat) (readPart : Nat → Option Bytes) :
    ed2kHashPartsM md4 size readPart = ed2kHashParts md4 size readPart := by
  unfold ed2kHashParts
  dsimp only
  split_ifs with hone hzero
  · rw [ed2kHashPartsM_of_one hone, if_pos hzero]
    rfl
  · rw [ed2kHashPartsM_of_one hone, if_neg hzero]
    cases readPart 0 <;> rfl
  · rw [ed2kHashPartsM_of_ne_one hone, foldlM_option]
    cases (List.range (partCount size)).mapM fun i =>
      if size ≤ i * PARTSIZE then some [] else readPart i with
    | none => rfl
    | some parts => rfl

end PadMule.Proto
