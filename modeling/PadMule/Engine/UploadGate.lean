import Mathlib.Data.Finset.Max
import Mathlib.Data.Prod.Lex
import PadMule.Lib.Runs

/-
  `mule-engine/src/share.rs`: the upload gate.

  `UploadGate` is what stands behind the gate's mutex. Around it `GateWorld` keeps the values
  that are alive outside: the slot guards, the queue waiters with the state of their
  `granted()` futures, and the destructors that have let go of the mutex but not called
  `notify_waiters` yet. A step is one critical section or one `notify_waiters`, so tasks
  interleave between the two halves of a destructor and between the two halves of a poll.
-/

namespace PadMule.Engine

def U64_MAX : Nat := 2 ^ 64 - 1

/-! ## Queue positions -/

/-- `(Reverse(score_key), seq)`, compared as the tuple is. -/
abbrev WaiterKey := ℕᵒᵈ ×ₗ ℕ

def waiterKey (scoreKey seq : Nat) : WaiterKey := toLex (OrderDual.toDual scoreKey, seq)

def scoreOf (key : WaiterKey) : Nat := OrderDual.ofDual (ofLex key).1

def seqOf (key : WaiterKey) : Nat := (ofLex key).2

@[simp] theorem seqOf_waiterKey (scoreKey seq : Nat) : seqOf (waiterKey scoreKey seq) = seq := rfl

/-- The best first: a higher score, then an earlier arrival. -/
theorem waiterKey_lt_iff {a b : WaiterKey} :
    a < b ↔ scoreOf b < scoreOf a ∨ scoreOf a = scoreOf b ∧ seqOf a < seqOf b := by
  rw [Prod.Lex.lt_iff]
  exact Iff.rfl

/-! ## Behind the mutex -/

structure GateInner where
  slotsFree : Nat
  waiters : Finset WaiterKey
  nextSeq : Nat
deriving DecidableEq

structure UploadGate where
  inner : GateInner
  queueCap : Nat
deriving DecidableEq

namespace UploadGate

def new (slotsTotal queueCap : Nat) : UploadGate := ⟨⟨slotsTotal, ∅, 0⟩, queueCap⟩

def waiting (g : UploadGate) : Nat := g.inner.waiters.card

def tryGrant (g : UploadGate) : Option UploadGate :=
  if 0 < g.inner.slotsFree ∧ g.inner.waiters = ∅ then
    some { g with inner := { g.inner with slotsFree := g.inner.slotsFree - 1 } }
  else none

/-- The waiter's key and rank. Incrementing `next_seq` at its maximum panics. -/
def enqueue (g : UploadGate) (scoreKey : Nat) : Option ((WaiterKey × Nat) × UploadGate) :=
  if g.queueCap ≤ g.inner.waiters.card then none
  else if g.inner.nextSeq = U64_MAX then none
  else
    let key := waiterKey scoreKey g.inner.nextSeq
    some ((key, (g.inner.waiters.filter (· < key)).card + 1),
      { g with inner :=
        { g.inner with waiters := insert key g.inner.waiters, nextSeq := g.inner.nextSeq + 1 } })

/-- The critical section of `granted`. -/
def takeSlot (g : UploadGate) (key : WaiterKey) : Option UploadGate :=
  if 0 < g.inner.slotsFree ∧ g.inner.waiters.min = key then
    some { g with inner :=
      { g.inner with
        slotsFree := g.inner.slotsFree - 1
        waiters := g.inner.waiters.erase key } }
  else none

/-- The critical section of `SlotGuard::drop`. -/
def freeSlot (g : UploadGate) : UploadGate :=
  { g with inner := { g.inner with slotsFree := g.inner.slotsFree + 1 } }

/-- The critical section of `QueueWaiter::drop`. -/
def depart (g : UploadGate) (key : WaiterKey) : UploadGate :=
  { g with inner := { g.inner with waiters := g.inner.waiters.erase key } }

end UploadGate

/-! ## Guards and waiters -/

/-- Where a waiter's `granted()` is: not polled yet, inside a poll between arming and
    checking, or pending. `woken` says that its `notified` has been notified. -/
inductive Park where
  | fresh
  | armed (woken : Bool)
  | parked (woken : Bool)
deriving DecidableEq

/-- What `notify_waiters` does to it. -/
def Park.notify : Park → Park
  | .fresh => .fresh
  | .armed _ => .armed true
  | .parked _ => .parked true

structure GateWorld where
  gate : UploadGate
  guards : Nat
  /-- The live waiters, in order of arrival. -/
  queued : List (WaiterKey × Park)
  /-- Destructors about to call `notify_waiters`. -/
  wakes : Nat
deriving DecidableEq

inductive GateOp where
  | tryGrant
  | enqueue (scoreKey : Nat)
  | arm (key : WaiterKey)
  | check (key : WaiterKey)
  | release
  | leave (key : WaiterKey)
  | notify
deriving DecidableEq

namespace GateWorld

def new (slotsTotal queueCap : Nat) : GateWorld := ⟨.new slotsTotal queueCap, 0, [], 0⟩

def park (w : GateWorld) (key : WaiterKey) (p : Park) : GateWorld :=
  { w with queued := w.queued.map fun q => if q.1 = key then (key, p) else q }

def remove (w : GateWorld) (key : WaiterKey) : List (WaiterKey × Park) :=
  w.queued.filter (·.1 ≠ key)

/-- One step, where it is possible. A future is not dropped while it is polled. -/
def step (w : GateWorld) : GateOp → Option GateWorld
  | .tryGrant =>
    match w.gate.tryGrant with
    | some g => some { w with gate := g, guards := w.guards + 1 }
    | none => some w
  | .enqueue scoreKey =>
    match w.gate.enqueue scoreKey with
    | some ((key, _), g) => some { w with gate := g, queued := w.queued ++ [(key, .fresh)] }
    | none => some w
  | .arm key =>
    match w.queued.lookup key with
    | some .fresh => some (w.park key (.armed false))
    | some (.parked true) => some (w.park key (.armed false))
    | some (.parked false) => some w
    | _ => none
  | .check key =>
    match w.queued.lookup key with
    | some (.armed woken) =>
      match w.gate.takeSlot key with
      | some g => some { w with gate := g, guards := w.guards + 1, queued := w.remove key }
      | none => some (w.park key (.parked woken))
    | _ => none
  | .release =>
    if w.guards = 0 then none
    else some { w with gate := w.gate.freeSlot, guards := w.guards - 1, wakes := w.wakes + 1 }
  | .leave key =>
    match w.queued.lookup key with
    | some .fresh | some (.parked _) =>
      some { w with gate := w.gate.depart key, queued := w.remove key, wakes := w.wakes + 1 }
    | _ => none
  | .notify =>
    if w.wakes = 0 then none
    else some { w with
      queued := w.queued.map fun q => (q.1, q.2.notify)
      wakes := w.wakes - 1 }

abbrev run (w : GateWorld) (ops : List GateOp) : Option GateWorld := Runs.run step w ops

/-! ## What a step can do -/

/-- Everything a step can do. -/
inductive Stepped (w : GateWorld) : GateOp → GateWorld → Prop where
  | granted (hfree : 0 < w.gate.inner.slotsFree) (hnobody : w.gate.inner.waiters = ∅) :
    Stepped w .tryGrant
      { w with
        gate.inner.slotsFree := w.gate.inner.slotsFree - 1
        guards := w.guards + 1 }
  | declined : Stepped w .tryGrant w
  | entered (scoreKey : Nat) (hroom : w.gate.inner.waiters.card < w.gate.queueCap) :
    Stepped w (.enqueue scoreKey)
      { w with
        gate.inner.waiters := insert (waiterKey scoreKey w.gate.inner.nextSeq) w.gate.inner.waiters
        gate.inner.nextSeq := w.gate.inner.nextSeq + 1
        queued := w.queued ++ [(waiterKey scoreKey w.gate.inner.nextSeq, .fresh)] }
  | refused (scoreKey : Nat) : Stepped w (.enqueue scoreKey) w
  | armed {key : WaiterKey} (hlive : key ∈ w.queued.map Prod.fst) :
    Stepped w (.arm key) (w.park key (.armed false))
  | idle (key : WaiterKey) : Stepped w (.arm key) w
  | took {key : WaiterKey} (hfree : 0 < w.gate.inner.slotsFree)
      (hbest : w.gate.inner.waiters.min = key) :
    Stepped w (.check key)
      { w with
        gate.inner.slotsFree := w.gate.inner.slotsFree - 1
        gate.inner.waiters := w.gate.inner.waiters.erase key
        guards := w.guards + 1
        queued := w.remove key }
  | slept {key : WaiterKey} (woken : Bool)
      (hnot : ¬(0 < w.gate.inner.slotsFree ∧ w.gate.inner.waiters.min = key)) :
    Stepped w (.check key) (w.park key (.parked woken))
  | released (hheld : 0 < w.guards) :
    Stepped w .release
      { w with
        gate.inner.slotsFree := w.gate.inner.slotsFree + 1
        guards := w.guards - 1
        wakes := w.wakes + 1 }
  | left (key : WaiterKey) :
    Stepped w (.leave key)
      { w with
        gate.inner.waiters := w.gate.inner.waiters.erase key
        queued := w.remove key
        wakes := w.wakes + 1 }
  | notified :
    Stepped w .notify
      { w with
        queued := w.queued.map fun q => (q.1, q.2.notify)
        wakes := w.wakes - 1 }

theorem mem_keys_of_lookup {queued : List (WaiterKey × Park)} {key : WaiterKey} {p : Park}
    (h : queued.lookup key = some p) : key ∈ queued.map Prod.fst := by
  obtain ⟨l₁, l₂, rfl, -⟩ := List.lookup_eq_some_iff.mp h
  simp

theorem step_cases {w w' : GateWorld} {op : GateOp} (h : w.step op = some w') :
    Stepped w op w' := by
  cases op with
  | tryGrant =>
    simp only [step, UploadGate.tryGrant] at h
    split_ifs at h with hgrant
    · cases h
      exact .granted hgrant.1 hgrant.2
    · cases h
      exact .declined
  | enqueue scoreKey =>
    simp only [step, UploadGate.enqueue] at h
    split_ifs at h with hfull hlast
    · cases h
      exact .refused scoreKey
    · cases h
      exact .refused scoreKey
    · cases h
      exact .entered scoreKey (not_le.mp hfull)
  | arm key =>
    simp only [step] at h
    split at h
    · cases h
      exact .armed (mem_keys_of_lookup ‹_›)
    · cases h
      exact .armed (mem_keys_of_lookup ‹_›)
    · cases h
      exact .idle key
    · cases h
  | check key =>
    simp only [step] at h
    split at h
    · rename_i woken hlook
      simp only [UploadGate.takeSlot] at h
      split_ifs at h with htake
      · cases h
        exact .took htake.1 htake.2
      · cases h
        exact .slept woken htake
    · cases h
  | release =>
    simp only [step] at h
    split_ifs at h with hheld
    cases h
    exact .released (Nat.pos_of_ne_zero hheld)
  | leave key =>
    simp only [step] at h
    split at h
    · cases h
      exact .left key
    · cases h
      exact .left key
    · cases h
  | notify =>
    simp only [step] at h
    split_ifs at h
    cases h
    exact .notified

/-! ## The bookkeeping -/

def keys (w : GateWorld) : List WaiterKey := w.queued.map Prod.fst

@[simp] theorem keys_park (w : GateWorld) (key : WaiterKey) (p : Park) :
    (w.park key p).keys = w.keys := by
  simp only [keys, park, List.map_map]
  refine List.map_congr_left fun q _ => ?_
  simp only [Function.comp_apply]
  split_ifs with heq
  · exact heq.symm
  · rfl

theorem map_remove (w : GateWorld) (key : WaiterKey) :
    (w.remove key).map Prod.fst = w.keys.filter (· ≠ key) := by
  rw [keys, List.filter_map]
  rfl

theorem keys_notify (w : GateWorld) (wakes : Nat) :
    keys { w with queued := w.queued.map fun q => (q.1, q.2.notify), wakes := wakes } = w.keys := by
  simp only [keys, List.map_map]
  rfl

theorem toFinset_filter_ne (l : List WaiterKey) (key : WaiterKey) :
    (l.filter (· ≠ key)).toFinset = l.toFinset.erase key := by
  ext k
  simp only [List.mem_toFinset, List.mem_filter, Finset.mem_erase, decide_eq_true_eq]
  exact and_comm

/-- What every step keeps. -/
structure Ok (slotsTotal queueCap : Nat) (w : GateWorld) : Prop where
  slots : w.gate.inner.slotsFree + w.guards = slotsTotal
  waiters : w.gate.inner.waiters = w.keys.toFinset
  arrival : (w.keys.map seqOf).Pairwise (· < ·)
  fresh : ∀ key ∈ w.keys, seqOf key < w.gate.inner.nextSeq
  room : w.gate.waiting ≤ queueCap
  cap : w.gate.queueCap = queueCap

theorem ok_new (slotsTotal queueCap : Nat) : Ok slotsTotal queueCap (new slotsTotal queueCap) where
  slots := rfl
  waiters := rfl
  arrival := List.Pairwise.nil
  fresh := fun _ hkey => absurd hkey List.not_mem_nil
  room := Nat.zero_le _
  cap := rfl

section Step

variable {slotsTotal queueCap : Nat} {w w' : GateWorld}

theorem Ok.park (h : Ok slotsTotal queueCap w) (key : WaiterKey) (p : Park) :
    Ok slotsTotal queueCap (w.park key p) where
  slots := h.slots
  waiters := by rw [keys_park]; exact h.waiters
  arrival := by rw [keys_park]; exact h.arrival
  fresh := by rw [keys_park]; exact h.fresh
  room := h.room
  cap := h.cap

theorem Ok.enter (h : Ok slotsTotal queueCap w) (scoreKey : Nat)
    (hroom : w.gate.inner.waiters.card < w.gate.queueCap) :
    Ok slotsTotal queueCap
      { w with
        gate.inner.waiters := insert (waiterKey scoreKey w.gate.inner.nextSeq) w.gate.inner.waiters
        gate.inner.nextSeq := w.gate.inner.nextSeq + 1
        queued := w.queued ++ [(waiterKey scoreKey w.gate.inner.nextSeq, .fresh)] } where
  slots := h.slots
  waiters := by
    simp only [keys, List.map_append, List.toFinset_append]
    rw [h.waiters, Finset.insert_eq, Finset.union_comm]
    rfl
  arrival := by
    simp only [keys, List.map_append, List.map_cons, List.map_nil]
    refine List.pairwise_append.mpr ⟨h.arrival, List.pairwise_singleton _ _, ?_⟩
    intro seq hseq last hlast
    obtain ⟨key, hkey, rfl⟩ := List.mem_map.mp hseq
    rw [List.mem_singleton.mp hlast]
    exact h.fresh key hkey
  fresh := by
    intro key hkey
    simp only [keys, List.map_append, List.mem_append, List.map_cons, List.map_nil,
      List.mem_singleton] at hkey
    rcases hkey with hkey | rfl
    · exact Nat.lt_succ_of_lt (h.fresh key hkey)
    · exact Nat.lt_succ_self _
  room := by
    have hcard := Finset.card_insert_le (waiterKey scoreKey w.gate.inner.nextSeq)
      w.gate.inner.waiters
    have hcap := h.cap
    simp only [UploadGate.waiting]
    omega
  cap := h.cap

theorem Ok.remove (h : Ok slotsTotal queueCap w) (key : WaiterKey) :
    w.gate.inner.waiters.erase key = ((w.remove key).map Prod.fst).toFinset ∧
      (((w.remove key).map Prod.fst).map seqOf).Pairwise (· < ·) ∧
      (∀ k ∈ (w.remove key).map Prod.fst, seqOf k < w.gate.inner.nextSeq) ∧
      (w.gate.inner.waiters.erase key).card ≤ queueCap := by
  rw [map_remove]
  refine ⟨?_, ?_, ?_, ?_⟩
  · rw [toFinset_filter_ne, h.waiters]
  · exact h.arrival.sublist (List.filter_sublist.map _)
  · exact fun k hk => h.fresh k (List.mem_of_mem_filter hk)
  · exact (Finset.card_erase_le).trans h.room

theorem Ok.step (h : Ok slotsTotal queueCap w) {op : GateOp} (hstep : w.step op = some w') :
    Ok slotsTotal queueCap w' := by
  have hslots := h.slots
  cases step_cases hstep with
  | granted hfree hnobody =>
    refine ⟨?_, h.waiters, h.arrival, h.fresh, h.room, h.cap⟩
    simp only
    omega
  | declined => exact h
  | entered scoreKey hroom => exact h.enter scoreKey hroom
  | refused scoreKey => exact h
  | armed hlive => exact h.park _ _
  | idle key => exact h
  | took hfree hbest =>
    obtain ⟨hkeys, harrival, hfresh, hroom⟩ := h.remove _
    refine ⟨?_, hkeys, harrival, hfresh, hroom, h.cap⟩
    simp only
    omega
  | slept woken hnot => exact h.park _ _
  | released hheld =>
    refine ⟨?_, h.waiters, h.arrival, h.fresh, h.room, h.cap⟩
    simp only
    omega
  | left key =>
    obtain ⟨hkeys, harrival, hfresh, hroom⟩ := h.remove key
    exact ⟨hslots, hkeys, harrival, hfresh, hroom, h.cap⟩
  | notified =>
    refine ⟨hslots, ?_, ?_, ?_, h.room, h.cap⟩
    · rw [keys_notify]
      exact h.waiters
    · rw [keys_notify]
      exact h.arrival
    · rw [keys_notify]
      exact h.fresh

theorem Ok.run (h : Ok slotsTotal queueCap w) {ops : List GateOp} (hrun : w.run ops = some w') :
    Ok slotsTotal queueCap w' :=
  Runs.run_induct (fun _ _ _ hok hstep => hok.step hstep) h hrun

end Step

/-! ## Who takes a slot -/

/-- Best by higher score, then by earlier arrival. -/
def Best (w : GateWorld) (key : WaiterKey) : Prop :=
  key ∈ w.gate.inner.waiters ∧
    ∀ other ∈ w.gate.inner.waiters, other ≠ key →
      scoreOf other < scoreOf key ∨ scoreOf key = scoreOf other ∧ seqOf key < seqOf other

theorem best_iff {w : GateWorld} {key : WaiterKey} :
    w.Best key ↔ w.gate.inner.waiters.min = key := by
  constructor
  · intro ⟨hmem, hleast⟩
    refine le_antisymm (Finset.min_le hmem) (Finset.le_min fun other hother => ?_)
    by_cases heq : other = key
    · exact heq ▸ le_rfl
    · exact WithTop.coe_le_coe.mpr (waiterKey_lt_iff.mpr (hleast other hother heq)).le
  · intro hmin
    refine ⟨Finset.mem_of_min hmin, fun other hother hne => waiterKey_lt_iff.mp ?_⟩
    have hle := Finset.min_le hother
    rw [hmin] at hle
    exact lt_of_le_of_ne (WithTop.coe_le_coe.mp hle) hne.symm

/-- A slot goes to a newcomer when nobody waits, or to the best waiter. -/
theorem taker_of_step {w w' : GateWorld} {op : GateOp} (h : w.step op = some w')
    (htaken : w'.gate.inner.slotsFree < w.gate.inner.slotsFree) :
    (op = .tryGrant ∧ w.gate.inner.waiters = ∅) ∨ ∃ key, op = .check key ∧ w.Best key := by
  cases step_cases h with
  | granted hfree hnobody => exact .inl ⟨rfl, hnobody⟩
  | took hfree hbest => exact .inr ⟨_, rfl, best_iff.mpr hbest⟩
  | released hheld => exact absurd htaken (Nat.not_lt.mpr (Nat.le_succ _))
  | _ => exact absurd htaken (lt_irrefl _)

/-- Over every run of the gate no slot and no waiter is lost or invented, the live waiters
    stand in order of arrival, and a free slot passes nobody who waits for it. -/
theorem upload_gate_safe {slotsTotal queueCap : Nat} {ops : List GateOp} {w : GateWorld}
    (hrun : (new slotsTotal queueCap).run ops = some w) :
    w.gate.inner.slotsFree + w.guards = slotsTotal ∧
      w.gate.inner.waiters = w.keys.toFinset ∧
      w.gate.inner.waiters.card = w.queued.length ∧
      w.gate.inner.waiters.card ≤ queueCap ∧
      (w.keys.map seqOf).Pairwise (· < ·) ∧
      (∀ op w', w.step op = some w' → w'.gate.inner.slotsFree < w.gate.inner.slotsFree →
        (op = .tryGrant ∧ w.gate.inner.waiters = ∅) ∨ ∃ key, op = .check key ∧ w.Best key) := by
  have hok := (ok_new slotsTotal queueCap).run hrun
  have hnodup : w.keys.Nodup := List.Nodup.of_map seqOf (hok.arrival.imp ne_of_lt)
  refine ⟨hok.slots, hok.waiters, ?_, hok.room, hok.arrival, fun _ _ => taker_of_step⟩
  rw [hok.waiters, List.toFinset_card_of_nodup hnodup, keys, List.length_map]

/-- One slot, and a waiter who queues for it: it is freed, and the waiter is best. -/
theorem waiter_served :
    ∃ w, (new 1 2).run [.tryGrant, .enqueue 7, .arm (waiterKey 7 0), .check (waiterKey 7 0),
        .release, .notify, .arm (waiterKey 7 0)] = some w ∧
      (∃ w', w.step (.check (waiterKey 7 0)) = some w' ∧
        w'.gate.inner.slotsFree < w.gate.inner.slotsFree) ∧
      w.gate.inner.slotsFree + w.guards = 1 ∧ w.gate.inner.waiters.card = w.queued.length ∧
      w.Best (waiterKey 7 0) := by
  have hmoves : ((new 1 2).run [.tryGrant, .enqueue 7, .arm (waiterKey 7 0),
      .check (waiterKey 7 0), .release, .notify, .arm (waiterKey 7 0)]).map (fun w =>
        (w.gate.inner.slotsFree,
          (w.step (.check (waiterKey 7 0))).map fun w' => w'.gate.inner.slotsFree)) =
      some (1, some 0) := by decide +kernel
  obtain ⟨w, hrun, hres⟩ := Option.map_eq_some_iff.mp hmoves
  obtain ⟨hfree, htake⟩ := Prod.mk.inj hres
  obtain ⟨w', hstep, hfree'⟩ := Option.map_eq_some_iff.mp htake
  have htaken : w'.gate.inner.slotsFree < w.gate.inner.slotsFree := by omega
  obtain ⟨hslots, -, hcard, -, -, htaker⟩ := upload_gate_safe hrun
  obtain ⟨hop, -⟩ | ⟨key, hop, hbest⟩ := htaker _ w' hstep htaken
  · cases hop
  · cases hop
    exact ⟨w, hrun, ⟨w', hstep, htaken⟩, hslots, hcard, hbest⟩

end GateWorld

end PadMule.Engine
