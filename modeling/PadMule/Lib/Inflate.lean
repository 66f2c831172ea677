import Mathlib.Tactic

/-
  Streaming decompressors, as their callers see them.

  A call hands over some input and the room left for output, and is told how much input
  was taken, what came out and how it ended. `Inflater` carries the three facts every
  caller may count on: no more input than offered is taken, no more output than fits is
  made, and a call with input and room makes progress, fails or has reached the end.

  `Decodes stream data`: however the stream is cut, its fragments decompress to the data.
  `Machine.toInflater` is the decompressor of a machine that reads one byte at a time, and
  `Machine.decodes` reads `Decodes` off one run of the machine.
-/

namespace Inflate

inductive Status where
  | ok
  | streamEnd
  | error
deriving DecidableEq, Repr

/-- What one call did; the state is updated on failure too. -/
structure Inflated (σ : Type) where
  state : σ
  consumed : Nat
  output : List UInt8
  status : Status

structure Inflater where
  State : Type
  new : State
  inflate : State → List UInt8 → Nat → Inflated State
  consumed_le : ∀ st input room, (inflate st input room).consumed ≤ input.length
  output_le : ∀ st input room, (inflate st input room).output.length ≤ room
  progress : ∀ st input room, input ≠ [] → 0 < room → (inflate st input room).status = .ok →
    0 < (inflate st input room).consumed ∨ 0 < (inflate st input room).output.length

namespace Inflater

variable (Z : Inflater)

/-- From `st`, with room for what is still to come, each fragment is taken whole and puts out
    its entry of `outs`; the end is reported with the last one. -/
def Follows : Z.State → Nat → List (List UInt8) → List (List UInt8) → Prop
  | _, _, [], [] => True
  | st, room, frag :: frags, out :: outs =>
    let r := Z.inflate st frag room
    r.consumed = frag.length ∧ r.output = out ∧ r.status ≠ .error ∧
      (r.status = .streamEnd → frags = []) ∧ Follows r.state (room - out.length) frags outs
  | _, _, _, _ => False

variable {Z} in
theorem follows_cons {st : Z.State} {room : Nat} {frag out : List UInt8}
    {frags outs : List (List UInt8)} :
    Z.Follows st room (frag :: frags) (out :: outs) ↔
      (Z.inflate st frag room).consumed = frag.length ∧ (Z.inflate st frag room).output = out ∧
        (Z.inflate st frag room).status ≠ .error ∧
        ((Z.inflate st frag room).status = .streamEnd → frags = []) ∧
        Z.Follows (Z.inflate st frag room).state (room - out.length) frags outs := Iff.rfl

/-- However the stream is cut into non-empty fragments, they decompress to the data. -/
def Decodes (stream data : List UInt8) : Prop :=
  ∀ frags : List (List UInt8), frags.flatten = stream → (∀ f ∈ frags, f ≠ []) →
    ∃ outs : List (List UInt8), outs.flatten = data ∧ Z.Follows Z.new data.length frags outs

end Inflater

/-- A decoder that reads a byte at a time and puts out at most one byte for each. -/
structure Machine where
  State : Type
  start : State
  /-- The next byte read will be put out. -/
  emits : State → Bool
  /-- The stream is complete. -/
  final : State → Bool
  /-- `none`: the input is corrupt. -/
  step : State → UInt8 → Option State

namespace Machine

variable (M : Machine)

/-- Read bytes while there are any, the stream is not over and what comes out fits. -/
def feed : Option M.State → List UInt8 → Nat → Inflated (Option M.State)
  | none, _, _ => ⟨none, 0, [], .error⟩
  | some st, [], _ => ⟨some st, 0, [], if M.final st then .streamEnd else .ok⟩
  | some st, b :: input, room =>
    if M.final st then ⟨some st, 0, [], .streamEnd⟩
    else if M.emits st && room == 0 then ⟨some st, 0, [], .ok⟩
    else
      let r := feed (M.step st b) input (if M.emits st then room - 1 else room)
      { r with consumed := r.consumed + 1, output := if M.emits st then b :: r.output else r.output }

theorem feed_consumed_le (st : Option M.State) (input : List UInt8) (room : Nat) :
    (M.feed st input room).consumed ≤ input.length := by
  induction input generalizing st room with
  | nil => cases st <;> simp [feed]
  | cons b input ih =>
    match st with
    | none => simp [feed]
    | some st =>
      unfold feed
      split_ifs
      · simp
      · simp
      all_goals
        simp only [List.length_cons]
        exact Nat.succ_le_succ (ih _ _)

theorem feed_output_le (st : Option M.State) (input : List UInt8) (room : Nat) :
    (M.feed st input room).output.length ≤ room := by
  induction input generalizing st room with
  | nil => cases st <;> simp [feed]
  | cons b input ih =>
    match st with
    | none => simp [feed]
    | some st =>
      unfold feed
      split_ifs with hfin hroom hemit
      · simp
      · simp
      · simp only [hemit, Bool.true_and, beq_iff_eq] at hroom
        have := ih (M.step st b) (room - 1)
        simp only [List.length_cons]
        omega
      · exact ih (M.step st b) room

theorem feed_progress (st : Option M.State) (input : List UInt8) (room : Nat) (hin : input ≠ [])
    (hroom : 0 < room) (hok : (M.feed st input room).status = .ok) :
    0 < (M.feed st input room).consumed ∨ 0 < (M.feed st input room).output.length := by
  obtain ⟨b, input, rfl⟩ := List.exists_cons_of_ne_nil hin
  match st with
  | none => simp [feed] at hok
  | some st =>
    by_cases hfin : M.final st = true
    · simp [feed, hfin] at hok
    · by_cases hemit : M.emits st = true <;> simp [feed, hfin, hemit, hroom.ne']

def toInflater : Inflater where
  State := Option M.State
  new := some M.start
  inflate := M.feed
  consumed_le := M.feed_consumed_le
  output_le := M.feed_output_le
  progress := M.feed_progress

/-- A state in which nothing has failed. -/
def live (st : M.State) : M.toInflater.State := some st

/-- One run over a whole stream. -/
def decode : M.State → List UInt8 → Option (List UInt8)
  | st, [] => if M.final st then some [] else none
  | st, b :: input =>
    if M.final st then none
    else (M.step st b).bind fun st' =>
      (decode st' input).map fun out => if M.emits st then b :: out else out

/-- Feeding a prefix of a stream that decodes takes all of it and leaves a stream that decodes
    to the rest. -/
theorem feed_prefix {st : M.State} {frag rest data : List UInt8} {room : Nat}
    (h : M.decode st (frag ++ rest) = some data) (hroom : data.length ≤ room) :
    ∃ st' out left, data = out ++ left ∧ M.decode st' rest = some left ∧
      M.feed (some st) frag room =
        ⟨some st', frag.length, out, if M.final st' then .streamEnd else .ok⟩ := by
  induction frag generalizing st data room with
  | nil => exact ⟨st, [], data, rfl, h, rfl⟩
  | cons b frag ih =>
    rw [List.cons_append, decode] at h
    by_cases hfin : M.final st = true
    · rw [if_pos hfin] at h
      cases h
    rw [if_neg hfin] at h
    obtain ⟨st₁, hstep, h⟩ := Option.bind_eq_some_iff.mp h
    obtain ⟨tail, htail, rfl⟩ := Option.map_eq_some_iff.mp h
    by_cases hemit : M.emits st = true
    · simp only [hemit, if_true, List.length_cons] at hroom
      obtain ⟨st', out, left, rfl, hrest, hfeed⟩ := ih htail (show tail.length ≤ room - 1 by omega)
      refine ⟨st', b :: out, left, by rw [if_pos hemit]; rfl, hrest, ?_⟩
      have hspace : room ≠ 0 := by omega
      simp [feed, hfin, hemit, hspace, hstep, hfeed]
    · simp only [hemit] at hroom
      obtain ⟨st', out, left, rfl, hrest, hfeed⟩ := ih htail hroom
      refine ⟨st', out, left, by rw [if_neg hemit], hrest, ?_⟩
      simp [feed, hfin, hemit, hstep, hfeed]

theorem follows_of_decode {st : M.State} {frags : List (List UInt8)} {data : List UInt8}
    (h : M.decode st frags.flatten = some data) (hne : ∀ f ∈ frags, f ≠ []) :
    ∃ outs : List (List UInt8), outs.flatten = data ∧
      M.toInflater.Follows (M.live st) data.length frags outs := by
  induction frags generalizing st data with
  | nil =>
    rw [List.flatten_nil, decode] at h
    split_ifs at h
    cases h
    exact ⟨[], rfl, trivial⟩
  | cons frag frags ih =>
    obtain ⟨-, hne'⟩ := List.forall_mem_cons.mp hne
    rw [List.flatten_cons] at h
    obtain ⟨st', out, left, rfl, hrest, hfeed⟩ := M.feed_prefix h le_rfl
    obtain ⟨outs, hflat, hfollows⟩ := ih hrest hne'
    have hcall : M.toInflater.inflate (M.live st) frag (out ++ left).length =
        ⟨M.live st', frag.length, out, if M.final st' then .streamEnd else .ok⟩ := hfeed
    have hroom : (out ++ left).length - out.length = left.length := by
      rw [List.length_append]
      omega
    refine ⟨out :: outs, by rw [List.flatten_cons, hflat], ?_⟩
    rw [Inflater.follows_cons, hcall]
    refine ⟨rfl, rfl, by split_ifs <;> simp, fun hend => ?_, ?_⟩
    · by_contra hmore
      have hfin : M.final st' = true := by
        by_contra hnot
        simp [hnot] at hend
      obtain ⟨f, fs, rfl⟩ := List.exists_cons_of_ne_nil hmore
      obtain ⟨b, g, rfl⟩ := List.exists_cons_of_ne_nil (hne' f (List.mem_cons_self ..))
      simp [decode, hfin] at hrest
    · rw [hroom]
      exact hfollows

theorem decodes {stream data : List UInt8} (h : M.decode M.start stream = some data) :
    M.toInflater.Decodes stream data := by
  intro frags hflat hne
  subst hflat
  exact M.follows_of_decode h hne

end Machine

end Inflate
