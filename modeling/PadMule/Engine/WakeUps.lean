import PadMule.Engine.UploadGate

/-
  Whether a free slot of the upload gate is noticed.

  `notify_waiters` reaches the waiters that are armed or parked at that moment and leaves
  nothing behind for later. A waiter that is woken but not the best parks again, and the best
  one takes its slot without waking anybody. So two slots freed before anybody is polled may
  leave the second of two waiters asleep beside the second slot.
-/

namespace PadMule.Engine

namespace GateWorld

/-- With a slot free, the best waiter is about to be polled, inside a poll or woken, or the
    wake is still to come from a destructor that is under way. -/
def Awake (w : GateWorld) : Prop :=
  0 < w.gate.inner.slotsFree →
    ∀ key, w.Best key → (key, Park.parked false) ∈ w.queued → 0 < w.wakes

/-- When a waiter takes one of several free slots, the next best one is not asleep. -/
def Calm (w : GateWorld) : GateOp → Prop
  | .check key =>
    ∀ (woken : Bool) (next : WaiterKey), w.queued.lookup key = some (.armed woken) → w.Best key →
      2 ≤ w.gate.inner.slotsFree → (w.gate.inner.waiters.erase key).min = next →
      (next, Park.parked false) ∈ w.queued → 0 < w.wakes
  | _ => True

theorem mem_queued_of_park {w : GateWorld} {key k : WaiterKey} {p q : Park}
    (h : (k, q) ∈ (w.park key p).queued) : (k = key ∧ q = p) ∨ (k ≠ key ∧ (k, q) ∈ w.queued) := by
  obtain ⟨⟨k', q'⟩, hmem, heq⟩ := List.mem_map.mp h
  split_ifs at heq with hk
  · cases heq
    exact .inl ⟨rfl, rfl⟩
  · cases heq
    exact .inr ⟨hk, hmem⟩

theorem lookup_of_step_check {w w' : GateWorld} {key : WaiterKey}
    (h : w.step (.check key) = some w') : ∃ woken, w.queued.lookup key = some (.armed woken) := by
  simp only [step] at h
  split at h
  · exact ⟨_, ‹_›⟩
  · cases h

section Step

variable {slotsTotal queueCap : Nat} {w w' : GateWorld}

theorem Awake.enter (hok : Ok slotsTotal queueCap w) (h : w.Awake) (scoreKey : Nat) :
    Awake
      { w with
        gate.inner.waiters := insert (waiterKey scoreKey w.gate.inner.nextSeq) w.gate.inner.waiters
        gate.inner.nextSeq := w.gate.inner.nextSeq + 1
        queued := w.queued ++ [(waiterKey scoreKey w.gate.inner.nextSeq, .fresh)] } := by
  intro hfree key hbest hasleep
  have hold : (key, Park.parked false) ∈ w.queued := by
    rcases List.mem_append.mp hasleep with hmem | hmem
    · exact hmem
    · cases List.mem_singleton.mp hmem
  have hin : key ∈ w.gate.inner.waiters := by
    rw [hok.waiters]
    exact List.mem_toFinset.mpr (List.mem_map_of_mem hold)
  exact h hfree key ⟨hin, fun other hother => hbest.2 other (Finset.mem_insert_of_mem hother)⟩ hold

/-- Taking a slot is what may leave the next best waiter asleep. -/
theorem awake_took {key : WaiterKey} {woken : Bool} (hlook : w.queued.lookup key = some (.armed woken))
    (hbest : w.gate.inner.waiters.min = key) :
    Awake
      { w with
        gate.inner.slotsFree := w.gate.inner.slotsFree - 1
        gate.inner.waiters := w.gate.inner.waiters.erase key
        guards := w.guards + 1
        queued := w.remove key } ↔ w.Calm (.check key) := by
  constructor
  · intro h woken next _ _ htwo hnext hasleep
    refine h (Nat.sub_pos_of_lt htwo) next (best_iff.mpr hnext) (List.mem_filter.mpr ⟨hasleep, ?_⟩)
    exact decide_eq_true (Finset.ne_of_mem_erase (Finset.mem_of_min hnext))
  · intro h hleft next hnext hasleep
    exact h woken next hlook (best_iff.mpr hbest) (Nat.lt_of_sub_pos hleft) (best_iff.mp hnext)
      (List.mem_of_mem_filter hasleep)

/-- A step of an awake gate leaves it awake exactly when the step is calm. -/
theorem awake_step_iff (hok : Ok slotsTotal queueCap w) (h : w.Awake) {op : GateOp}
    (hstep : w.step op = some w') : w'.Awake ↔ w.Calm op := by
  cases step_cases hstep with
  | granted hfree hnobody =>
    refine iff_of_true (fun _ key hbest => ?_) trivial
    exact absurd (hnobody ▸ hbest.1) (Finset.notMem_empty key)
  | declined => exact iff_of_true h trivial
  | entered scoreKey hroom => exact iff_of_true (h.enter hok scoreKey) trivial
  | refused scoreKey => exact iff_of_true h trivial
  | armed hlive =>
    refine iff_of_true (fun hfree key hbest hasleep => ?_) trivial
    obtain ⟨-, hpark⟩ | ⟨-, hmem⟩ := mem_queued_of_park hasleep
    · cases hpark
    · exact h hfree key hbest hmem
  | idle key => exact iff_of_true h trivial
  | took hfree hbest =>
    obtain ⟨woken, hlook⟩ := lookup_of_step_check hstep
    exact awake_took hlook hbest
  | slept woken hnot =>
    -- whoever parks here is not the best, or there is nothing to take
    refine iff_of_true (fun hfree key hbest hasleep => ?_) fun _ _ _ hbest htwo => ?_
    · obtain ⟨rfl, -⟩ | ⟨-, hmem⟩ := mem_queued_of_park hasleep
      · exact absurd ⟨hfree, best_iff.mp hbest⟩ hnot
      · exact h hfree key hbest hmem
    · exact absurd ⟨Nat.lt_of_lt_of_le Nat.two_pos htwo, best_iff.mp hbest⟩ hnot
  | released hheld => exact iff_of_true (fun _ _ _ _ => Nat.succ_pos _) trivial
  | left key => exact iff_of_true (fun _ _ _ _ => Nat.succ_pos _) trivial
  | notified =>
    refine iff_of_true (fun _ key _ hasleep => ?_) trivial
    obtain ⟨⟨k, p⟩, -, heq⟩ := List.mem_map.mp hasleep
    cases p <;> cases heq

/-- A check that is not possible is calm. -/
theorem calm_of_step_none {op : GateOp} (h : w.step op = none) : w.Calm op := by
  cases op with
  | check key =>
    intro woken next hlook
    simp only [step, hlook] at h
    split at h <;> cases h
  | _ => trivial

end Step

theorem awake_new (slotsTotal queueCap : Nat) : (new slotsTotal queueCap).Awake :=
  fun _ _ hbest => absurd hbest.1 (Finset.notMem_empty _)

/-- A free slot is noticed throughout a run exactly when no waiter that takes one of several
    free slots leaves the next best one asleep. -/
theorem free_slot_noticed_iff (slotsTotal queueCap : Nat) (ops : List GateOp) :
    Runs.Always step Awake (new slotsTotal queueCap) ops ↔
      Runs.Throughout step Calm (new slotsTotal queueCap) ops :=
  Runs.always_iff_throughout (fun _ _ _ hok hstep => hok.step hstep) (fun _ _ => calm_of_step_none)
    (fun _ _ _ hok h hstep => awake_step_iff hok h hstep) (ok_new slotsTotal queueCap)
    (awake_new slotsTotal queueCap) ops

/-- Two slots are freed before either of two waiters is polled, the second in line is polled
    first: it stays parked beside the second slot. -/
theorem second_waiter_sleeps :
    ∃ w, (new 2 2).run [.tryGrant, .tryGrant, .enqueue 9, .enqueue 5,
        .arm (waiterKey 9 0), .check (waiterKey 9 0), .arm (waiterKey 5 1), .check (waiterKey 5 1),
        .release, .notify, .release, .notify, .arm (waiterKey 5 1), .check (waiterKey 5 1),
        .arm (waiterKey 9 0), .check (waiterKey 9 0)] = some w ∧ ¬w.Awake := by
  refine ⟨⟨⟨⟨1, {waiterKey 5 1}, 2⟩, 2⟩, 1, [(waiterKey 5 1, .parked false)], 0⟩,
    by decide +kernel, fun h => ?_⟩
  exact absurd (h Nat.one_pos _ (best_iff.mpr Finset.min_singleton) (List.mem_singleton.mpr rfl))
    (lt_irrefl 0)

end GateWorld

end PadMule.Engine
