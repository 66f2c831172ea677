import PadMule.Engine.KadNamed
import PadMule.Kad.FloodBudget

/-
  `mule-engine/src/kad_serve.rs` and `kad_live.rs`: how often a node answers.

  Each opcode has a limiter of its own, and no answer goes out that it did not let through. So in no
  minute of a run an ip gets more answers of one kind than twice the budget, but for those that are
  not counted while the limiter is full of other addresses.
-/

namespace PadMule.Engine.KadNode

open PadMule.Proto PadMule.Kad Flood FileMap KadGate KadDemux KadServe KadAck

section

variable (p : Primitives)

/-- A datagram that is answered in the interval, and counted. -/
def Node.answersCounted (n : Node) (op : UInt8) (budget : UInt32) (ip : UInt32)
    (start stop : Nat) : NodeOp → Bool
  | .datagram source bytes rand =>
    (opened p n.kadId n.udpKey source bytes).any (fun d => d.opcode = op) && ipU32 source = ip &&
      (start ≤ n.now && n.now ≤ stop) && (n.receive p source bytes rand).2.isSome &&
      !(trackerOf n.flood op budget).full (ip, n.now)
  | _ => false

/-- How many of them there are in a run. -/
def Node.answered (op : UInt8) (budget : UInt32) (ip : UInt32) (start stop : Nat) :
    Node → List NodeOp → Nat
  | _, [] => 0
  | n, o :: ops => (if n.answersCounted p op budget ip start stop o then 1 else 0) +
      answered op budget ip start stop (n.step p o).1 ops

end

variable {p : Primitives} {n : Node} {op : UInt8} {budget ip : UInt32} {s k : Nat}

/-- The limiter of an opcode, behind a run up to now. -/
structure Node.Metered (n : Node) (op : UInt8) (budget ip : UInt32) (s k : Nat) : Prop where
  config : trackerOf n.flood op budget = ⟨FLOOD_WINDOW, budget, budget * 5, FLOOD_BAN,
    (trackerOf n.flood op budget).entries⟩
  budgeted : (trackerOf n.flood op budget).Budgeted ip s k n.now

theorem metered_bind (who : Identity) (op : UInt8) (budget ip : UInt32) (s : Nat) :
    (Node.bind who).Metered op budget ip s 0 where
  config := rfl
  budgeted := ⟨fun _ he => absurd he List.not_mem_nil, fun _ => .inl (Nat.zero_le _), fun _ => rfl⟩

theorem floodBudget_small (h : floodBudget op = some budget) :
    (budget * 5).toNat + 1 < UInt32.size := by
  unfold floodBudget at h
  split_ifs at h
  all_goals
    rw [← Option.some.inj h]
    decide

/-- The gate of another opcode leaves the limiter alone. -/
theorem trackerOf_floodAllows_of_ne (flood : FloodMap) (budget : UInt32) {op' : UInt8}
    (h : op' ≠ op) (ip : UInt32) (now : Nat) :
    trackerOf (floodAllows flood op' ip now).2 op budget = trackerOf flood op budget := by
  unfold floodAllows
  cases floodBudget op' with
  | none => rfl
  | some budget' =>
    unfold trackerOf
    dsimp only
    rw [get_write, if_neg fun heq => h heq.symm]

theorem trackerOf_floodAllows (flood : FloodMap) (h : floodBudget op = some budget) (ip : UInt32)
    (now : Nat) : trackerOf (floodAllows flood op ip now).2 op budget =
      ((trackerOf flood op budget).record ip now).2 ∧
    ((floodAllows flood op ip now).1 = true →
      ((trackerOf flood op budget).record ip now).1 = .allow) := by
  unfold floodAllows
  rw [h]
  refine ⟨?_, fun hallowed => of_decide_eq_true hallowed⟩
  show (get (write flood op _) op).getD _ = _
  rw [get_write, if_pos rfl]
  rfl

/-! ## The steps -/

theorem Node.Metered.le (h : n.Metered op budget ip s k) : k ≤ 2 * budget.toNat := by
  have hle := h.budgeted.le
  rwa [h.config] at hle

/-- A step that leaves the gate alone. -/
theorem Node.Metered.quiet (h : n.Metered op budget ip s k) {n' : Node}
    (hflood : n'.flood = n.flood) (hnow : n.now ≤ n'.now) : n'.Metered op budget ip s k where
  config := hflood.symm ▸ h.config
  budgeted := hflood.symm ▸ h.budgeted.later hnow

/-- A datagram at the gate. -/
theorem Node.Metered.gated (h : n.Metered op budget ip s k) (hbudget : floodBudget op = some budget)
    (d : KadDemux.Datagram) : (n.gated d).Metered op budget ip s
      (k + if d.opcode = op ∧ (trackerOf n.flood op budget).admits ip s (s + FLOOD_WINDOW)
        (ipU32 d.source, n.now) = true then 1 else 0) := by
  by_cases hop : d.opcode = op
  · obtain ⟨hrecord, -⟩ := trackerOf_floodAllows n.flood hbudget (ipU32 d.source) n.now
    have hsmall : (trackerOf n.flood op budget).hardLimit.toNat + 1 < UInt32.size := by
      rw [h.config]
      exact floodBudget_small hbudget
    have hban : (trackerOf n.flood op budget).window <
        (trackerOf n.flood op budget).banDuration := by
      rw [h.config]
      exact (by decide : FLOOD_WINDOW < FLOOD_BAN)
    have hwindow : (trackerOf n.flood op budget).window = FLOOD_WINDOW := by
      rw [h.config]
    have hstep := h.budgeted.record (q := (ipU32 d.source, n.now)) le_rfl hsmall hban
    have hconfig := FloodTracker.config_record (trackerOf n.flood op budget) (ipU32 d.source) n.now
    rw [hwindow] at hstep
    constructor
    · show trackerOf (floodAllows n.flood d.opcode (ipU32 d.source) n.now).2 op budget = ⟨_, _, _, _,
        (trackerOf (floodAllows n.flood d.opcode (ipU32 d.source) n.now).2 op budget).entries⟩
      rw [hop, hrecord, hconfig, h.config]
    · show (trackerOf (floodAllows n.flood d.opcode (ipU32 d.source) n.now).2 op budget).Budgeted
        ip s _ n.now
      rw [hop, hrecord]
      simpa only [true_and] using hstep
  · rw [if_neg fun hno => hop hno.1]
    have hsame := trackerOf_floodAllows_of_ne n.flood budget hop (ipU32 d.source) n.now
    exact ⟨hsame.symm ▸ h.config, hsame.symm ▸ h.budgeted⟩

theorem Node.Metered.fewer (h : n.Metered op budget ip s k) {k' : Nat} (hle : k' ≤ k) :
    n.Metered op budget ip s k' := ⟨h.config, h.budgeted.fewer hle⟩

theorem acknowledge_quiet (n : Node) (d : KadDemux.Datagram) :
    (n.acknowledge p d).flood = n.flood ∧ (n.acknowledge p d).now = n.now := by
  unfold Node.acknowledge
  dsimp only
  cases acceptHelloResAck d.payload (takeHelloResSent n.helloResSent (ipU32 d.source) n.now).1
    (validReceiverKey p n.udpKey d) <;> exact ⟨rfl, rfl⟩

theorem recordHello_quiet (n : Node) (d : KadDemux.Datagram) :
    (n.recordHello p d).flood = n.flood ∧ (n.recordHello p d).now = n.now := by
  unfold Node.recordHello
  split_ifs
  · cases parseHello d.payload <;> exact ⟨rfl, rfl⟩
  · exact ⟨rfl, rfl⟩

theorem after_quiet (n : Node) (d : KadDemux.Datagram) (answer : ServeAnswer) :
    (n.after d answer).flood = n.flood ∧ (n.after d answer).now = n.now := by
  unfold Node.after
  split_ifs <;> exact ⟨rfl, rfl⟩

theorem Node.Metered.receive (h : n.Metered op budget ip s k)
    (hbudget : floodBudget op = some budget) (source : SocketAddr) (bytes : Bytes) (rand : Rand) :
    (n.receive p source bytes rand).1.Metered op budget ip s
      (k + if n.answersCounted p op budget ip s (s + FLOOD_WINDOW) (.datagram source bytes rand)
        then 1 else 0) := by
  have hreceived := received p n source bytes rand
  have hcounted : n.answersCounted p op budget ip s (s + FLOOD_WINDOW)
      (.datagram source bytes rand) = ((opened p n.kadId n.udpKey source bytes).any
        (fun d => d.opcode = op) && ipU32 source = ip &&
      (s ≤ n.now && n.now ≤ s + FLOOD_WINDOW) && (n.receive p source bytes rand).2.isSome &&
      !(trackerOf n.flood op budget).full (ip, n.now)) := rfl
  rw [hcounted]
  generalize n.receive p source bytes rand = r at hreceived ⊢
  -- without an answer the step counts for nothing
  have hsilent (c : Bool) : ¬(c && (none : Option Bytes).isSome &&
      !(trackerOf n.flood op budget).full (ip, n.now)) = true := by simp
  cases hreceived with
  | unread | delivered =>
    rw [if_neg (hsilent _)]
    exact h.quiet rfl le_rfl
  | acknowledged =>
    rw [if_neg (hsilent _)]
    exact h.quiet (acknowledge_quiet n _).1 (acknowledge_quiet n _).2.ge
  | refused =>
    rw [if_neg (hsilent _)]
    exact (h.gated hbudget _).fewer (Nat.le_add_right _ _)
  | silent =>
    rw [if_neg (hsilent _)]
    exact ((h.gated hbudget _).fewer (Nat.le_add_right _ _)).quiet (recordHello_quiet _ _).1
      (recordHello_quiet _ _).2.ge
  | @answered d answer hopen hallowed hfree hanswer =>
    have hsource := source_of_opened hopen
    have hmetered := ((h.gated hbudget d).quiet (recordHello_quiet (p := p) _ d).1
      (recordHello_quiet _ d).2.ge).quiet (after_quiet _ d answer).1 (after_quiet _ d answer).2.ge
    refine hmetered.fewer (Nat.add_le_add_left ?_ k)
    split_ifs with hyes hadmits
    · exact le_rfl
    · rw [hopen, Option.any_some] at hyes
      simp only [Bool.and_eq_true, decide_eq_true_eq, Bool.not_eq_true'] at hyes
      obtain ⟨⟨⟨⟨hop, hip⟩, hstart, hstop⟩, -⟩, hroom⟩ := hyes
      have hverdict := (trackerOf_floodAllows n.flood hbudget (ipU32 source) n.now).2
        (by rw [← hop]; exact hallowed)
      refine absurd ⟨hop, ?_⟩ hadmits
      unfold FloodTracker.admits
      simp only [hsource, hip, Bool.and_eq_true, decide_eq_true_eq, Bool.not_eq_true']
      exact ⟨⟨⟨trivial, hstart, hstop⟩, hroom⟩, hip ▸ hverdict⟩
    · exact Nat.zero_le _
    · exact le_rfl

theorem Node.Metered.step (h : n.Metered op budget ip s k) (hbudget : floodBudget op = some budget)
    (o : NodeOp) : (n.step p o).1.Metered op budget ip s
      (k + if n.answersCounted p op budget ip s (s + FLOOD_WINDOW) o then 1 else 0) := by
  cases o with
  | datagram source bytes rand => exact h.receive hbudget source bytes rand
  | wait duration => exact h.quiet rfl (Nat.le_add_right _ _)
  | absorb i rand =>
    have hsame : (n.absorb p i rand).1.flood = n.flood ∧ (n.absorb p i rand).1.now = n.now := by
      unfold Node.absorb
      cases n.replies[i]? <;> exact ⟨rfl, rfl⟩
    exact h.quiet hsame.1 hsame.2.ge
  | request | withdraw | setIpFilter | setPublicIp | setAdvertisedUdpPort | seed | sweep | remove =>
    exact h.quiet rfl le_rfl

theorem Node.Metered.answered_le (ops : List NodeOp) (h : n.Metered op budget ip s k)
    (hbudget : floodBudget op = some budget) :
    k + n.answered p op budget ip s (s + FLOOD_WINDOW) ops ≤ 2 * budget.toNat := by
  induction ops generalizing n k with
  | nil => exact h.le
  | cons o ops ih =>
    rw [Node.answered, ← Nat.add_assoc]
    exact ih (h.step hbudget o)

/-- An answer is short, and goes to nobody who is blocked. -/
theorem answer_bounds {source : SocketAddr} {bytes out : Bytes} {rand : Rand}
    (hout : (n.receive p source bytes rand).2 = some out) :
    out.length ≤ 539 ∧ ∀ f, n.live.ipFilter = some f → f.isBlocked (ipU32 source) = false := by
  have hreceived := received p n source bytes rand
  generalize n.receive p source bytes rand = r at hreceived hout
  cases hreceived with
  | unread | delivered | acknowledged | refused | silent => cases hout
  | @answered d answer hopen hallowed hfree hanswer =>
    refine ⟨?_, hfree⟩
    have hanswers := answers_answerRequest hanswer
    have hpayload := hanswers.length_le
    have hframe := length_packKad_le p.deflate answer.opcode answer.payload
    rw [← Option.some.inj hout]
    show (kadObfuscateResponse ..).length ≤ 539
    rw [kadObfuscateResponse, length_assemble]
    omega

/-- In no minute of a run an ip gets more counted answers to one opcode than twice its budget. No
    answer is longer than 539 bytes, and none goes to an ip that is blocked at the time. -/
theorem answers_within_budget (p : Primitives) (who : Identity) (ops : List NodeOp) {op : UInt8}
    {budget : UInt32} (hbudget : floodBudget op = some budget) (ip : UInt32) (s : Nat) :
    (Node.bind who).answered p op budget ip s (s + FLOOD_WINDOW) ops ≤ 2 * budget.toNat ∧
    ∀ earlier source bytes rand later out, ops = earlier ++ .datagram source bytes rand :: later →
      (((Node.bind who).run p earlier).receive p source bytes rand).2 = some out →
      out.length ≤ 539 ∧ ∀ f, ((Node.bind who).run p earlier).live.ipFilter = some f →
        f.isBlocked (ipU32 source) = false := by
  constructor
  · have hle := (metered_bind who op budget ip s).answered_le (p := p) ops hbudget
    omega
  · intro earlier source bytes rand later out _ hout
    exact answer_bounds hout

theorem answers_within_budget_sample :
    (Node.bind sampleIdentity).answered samplePrimitives OP_PING 2 0x08080808 7 (7 + FLOOD_WINDOW)
        (List.replicate 9 (.datagram samplePeer (sampleRequest buildPing) sampleRand)) ≤ 4 ∧
    ∀ earlier source bytes rand later out,
      List.replicate 9 (NodeOp.datagram samplePeer (sampleRequest buildPing) sampleRand) =
        earlier ++ .datagram source bytes rand :: later →
      (((Node.bind sampleIdentity).run samplePrimitives earlier).receive samplePrimitives source
        bytes rand).2 = some out →
      out.length ≤ 539 ∧ ∀ f,
        ((Node.bind sampleIdentity).run samplePrimitives earlier).live.ipFilter = some f →
          f.isBlocked (ipU32 source) = false :=
  answers_within_budget samplePrimitives sampleIdentity _ rfl 0x08080808 7

end PadMule.Engine.KadNode
