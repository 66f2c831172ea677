import PadMule.Engine.ServerList
import PadMule.Lib.Runs

/-
  `mule-engine/src/server_crawl.rs`: the recursive crawl for servers, as the state machine it is.

  Seeds and accepted answers go on a stack, and the next to ask are taken off it. The stack never
  holds an address that was asked, so a round asks exactly the ones on top (`nextAsks_eq`), and the
  asked and the waiting ones together are the accepted seeds and what was discovered. With the
  ceiling on discoveries that bounds the asks, whatever is answered (`crawl_disciplined`).
-/

namespace PadMule.Engine

/-- The address as `server.met` has it, and the port. -/
abbrev ServerAddr := UInt32 × UInt16

def MAX_CRAWL_DISCOVERED : Nat := 1000

def isCrawlable (a : ServerAddr) : Bool := a.2 ≠ 0 && isRoutablePublicV4 (ipFromMetU32 a.1)

structure ServerCrawl where
  asked : Finset ServerAddr := ∅
  /-- The one that is asked next first. -/
  frontier : List ServerAddr := []
  discovered : List ServerAddr := []
  seen : Finset ServerAddr := ∅

namespace ServerCrawl

def addSeed (c : ServerCrawl) (a : ServerAddr) : ServerCrawl :=
  if isCrawlable a && a ∉ c.seen then
    { c with seen := insert a c.seen, frontier := a :: c.frontier }
  else c

def new (seed : List ServerAddr) : ServerCrawl := seed.foldl addSeed {}

/-- The loop of `next_asks`: what becomes of `asked`, what is left of the frontier, and `out`. -/
def askLoop (max : Nat) : Finset ServerAddr → List ServerAddr → List ServerAddr →
    Finset ServerAddr × List ServerAddr × List ServerAddr
  | asked, out, [] => (asked, [], out)
  | asked, out, a :: frontier =>
    if out.length < max then
      if a ∈ asked then askLoop max asked out frontier
      else askLoop max (insert a asked) (out ++ [a]) frontier
    else (asked, a :: frontier, out)

def nextAsks (c : ServerCrawl) (max : Nat) : ServerCrawl × List ServerAddr :=
  let (asked, frontier, out) := askLoop max c.asked [] c.frontier
  ({ c with asked, frontier }, out)

/-- The second is how many were new. -/
def onAnswer (c : ServerCrawl) : List ServerAddr → ServerCrawl × Nat
  | [] => (c, 0)
  | a :: servers =>
    if MAX_CRAWL_DISCOVERED ≤ c.discovered.length then (c, 0)
    else if !isCrawlable a || a ∈ c.seen then onAnswer c servers
    else
      let (c, fresh) := onAnswer { c with
        seen := insert a c.seen
        discovered := c.discovered ++ [a]
        frontier := a :: c.frontier } servers
      (c, fresh + 1)

def isExhausted (c : ServerCrawl) : Bool := c.frontier.isEmpty

def askedCount (c : ServerCrawl) : Nat := c.asked.card

/-! ## What a call does -/

/-- A frontier of addresses that were not asked is asked from the top. -/
theorem askLoop_eq {max : Nat} {asked : Finset ServerAddr} {frontier out : List ServerAddr}
    (hnew : ∀ a ∈ frontier, a ∉ asked) (hnodup : frontier.Nodup) :
    askLoop max asked out frontier =
      (asked ∪ (frontier.take (max - out.length)).toFinset, frontier.drop (max - out.length),
        out ++ frontier.take (max - out.length)) := by
  induction frontier generalizing asked out with
  | nil => simp [askLoop]
  | cons a frontier ih =>
    obtain ⟨ha, hrest⟩ := List.forall_mem_cons.mp hnew
    obtain ⟨hnot, hnodup⟩ := List.nodup_cons.mp hnodup
    rw [askLoop]
    split_ifs with hroom
    · have hnew' : ∀ b ∈ frontier, b ∉ insert a asked := fun b hb hmem =>
        (Finset.mem_insert.mp hmem).elim (fun heq => hnot (heq ▸ hb)) (hrest b hb)
      obtain ⟨k, hk⟩ : ∃ k, max - out.length = k + 1 := ⟨max - out.length - 1, by omega⟩
      have hk' : max - (out ++ [a]).length = k := by
        rw [List.length_append, List.length_singleton]
        omega
      rw [ih hnew' hnodup, hk, hk', List.take_succ_cons, List.drop_succ_cons, List.toFinset_cons,
        List.append_assoc, Finset.insert_union, Finset.union_insert]
      rfl
    · have hnone : max - out.length = 0 := by omega
      simp [hnone]

theorem nextAsks_eq {c : ServerCrawl} (hnew : ∀ a ∈ c.frontier, a ∉ c.asked)
    (hnodup : c.frontier.Nodup) (max : Nat) :
    nextAsks c max =
      ({ c with
          asked := c.asked ∪ (c.frontier.take max).toFinset
          frontier := c.frontier.drop max }, c.frontier.take max) := by
  rw [nextAsks, askLoop_eq hnew hnodup]
  rfl

end ServerCrawl

/-! ## Runs -/

/-- A crawl, with all that its rounds have returned. -/
structure CrawlRun where
  crawl : ServerCrawl
  asks : List ServerAddr

inductive CrawlOp where
  | nextAsks (max : Nat)
  | onAnswer (servers : List ServerAddr)

namespace CrawlRun

def begin (seed : List ServerAddr) : CrawlRun := ⟨.new seed, []⟩

def step (r : CrawlRun) : CrawlOp → Option CrawlRun
  | .nextAsks max =>
    let (crawl, out) := r.crawl.nextAsks max
    some ⟨crawl, r.asks ++ out⟩
  | .onAnswer servers => some { r with crawl := (r.crawl.onAnswer servers).1 }

/-! ## What every run keeps -/

/-- The asked and the waiting addresses are the ones that were seen: accepted seeds and
    discoveries, each once. -/
structure Inv (seed : List ServerAddr) (r : CrawlRun) : Prop where
  once : (r.asks ++ r.crawl.frontier).Nodup
  asked : r.crawl.asked = r.asks.toFinset
  seen : ∀ a, a ∈ r.crawl.seen ↔ a ∈ r.asks ++ r.crawl.frontier
  known : ∀ a, a ∈ r.asks ++ r.crawl.frontier ↔
    a ∈ seed ∧ isCrawlable a = true ∨ a ∈ r.crawl.discovered
  discoveredOnce : r.crawl.discovered.Nodup
  crawlable : ∀ a ∈ r.crawl.discovered, isCrawlable a = true
  notSeed : ∀ a ∈ r.crawl.discovered, a ∉ seed
  ceiling : r.crawl.discovered.length ≤ MAX_CRAWL_DISCOVERED

variable {seed : List ServerAddr} {r r' : CrawlRun}

theorem Inv.addSeed (h : r.Inv seed) (hdiscovered : r.crawl.discovered = []) (a : ServerAddr) :
    Inv (seed ++ [a]) { r with crawl := r.crawl.addSeed a } := by
  unfold ServerCrawl.addSeed
  split_ifs with hadd
  · rw [Bool.and_eq_true, decide_eq_true_eq] at hadd
    obtain ⟨hcrawlable, hunseen⟩ := hadd
    have hnew : a ∉ r.asks ++ r.crawl.frontier := fun hmem => hunseen ((h.seen a).mpr hmem)
    have hmid (b : ServerAddr) : b ∈ r.asks ++ a :: r.crawl.frontier ↔
        b = a ∨ b ∈ r.asks ++ r.crawl.frontier := by
      rw [List.perm_middle.mem_iff, List.mem_cons]
    refine ⟨?_, h.asked, fun b => ?_, fun b => ?_, h.discoveredOnce, h.crawlable, ?_, h.ceiling⟩
    · exact (List.nodup_middle.mpr (List.nodup_cons.mpr ⟨hnew, h.once⟩))
    · rw [Finset.mem_insert, h.seen, hmid]
    · rw [hmid, h.known, List.mem_append, List.mem_singleton]
      by_cases hb : b = a
      · simp [hb, hcrawlable]
      · simp [hb]
    · rw [hdiscovered]
      exact fun b hb => absurd hb List.not_mem_nil
  · refine { h with known := fun b => ?_, notSeed := ?_ }
    · rw [h.known, List.mem_append, List.mem_singleton]
      by_cases hb : b = a
      · subst hb
        simp only [Bool.and_eq_true, decide_eq_true_eq, not_and, not_not] at hadd
        have hseen (hc : isCrawlable b = true) := (h.known b).mp ((h.seen b).mp (hadd hc))
        tauto
      · simp [hb]
    · rw [hdiscovered]
      exact fun b hb => absurd hb List.not_mem_nil

theorem inv_begin (seed : List ServerAddr) : (begin seed).Inv seed := by
  have hboth : (begin seed).Inv seed ∧ (begin seed).crawl.discovered = [] := by
    induction seed using List.reverseRecOn with
    | nil =>
      refine ⟨⟨List.nodup_nil, rfl, ?_, ?_, List.nodup_nil, ?_, ?_, Nat.zero_le _⟩, rfl⟩ <;>
        simp [begin, ServerCrawl.new]
    | append_singleton seed a ih =>
      have hnew : (begin (seed ++ [a])) = { begin seed with
          crawl := (begin seed).crawl.addSeed a } := by
        rw [begin, ServerCrawl.new, List.foldl_append]
        rfl
      rw [hnew]
      refine ⟨ih.1.addSeed ih.2 a, ?_⟩
      unfold ServerCrawl.addSeed
      split_ifs
      · exact ih.2
      · exact ih.2
  exact hboth.1

theorem Inv.discover (h : r.Inv seed) {a : ServerAddr} (hcrawlable : isCrawlable a = true)
    (hunseen : a ∉ r.crawl.seen) (hroom : r.crawl.discovered.length < MAX_CRAWL_DISCOVERED) :
    Inv seed { r with crawl := { r.crawl with
      seen := insert a r.crawl.seen
      discovered := r.crawl.discovered ++ [a]
      frontier := a :: r.crawl.frontier } } := by
  have hnew : a ∉ r.asks ++ r.crawl.frontier := fun hmem => hunseen ((h.seen a).mpr hmem)
  have hunknown := (not_congr (h.known a)).mp hnew
  rw [not_or, not_and] at hunknown
  have hmid (b : ServerAddr) : b ∈ r.asks ++ a :: r.crawl.frontier ↔
      b = a ∨ b ∈ r.asks ++ r.crawl.frontier := by
    rw [List.perm_middle.mem_iff, List.mem_cons]
  refine ⟨?_, h.asked, fun b => ?_, fun b => ?_, ?_, ?_, ?_, ?_⟩
  · exact (List.nodup_middle.mpr (List.nodup_cons.mpr ⟨hnew, h.once⟩))
  · rw [Finset.mem_insert, h.seen, hmid]
  · rw [hmid, h.known, List.mem_append, List.mem_singleton, or_comm, or_assoc]
  · exact List.nodup_append'.mpr ⟨h.discoveredOnce, List.nodup_singleton a, by
      simpa using hunknown.2⟩
  · intro b hb
    rcases List.mem_append.mp hb with hb | hb
    · exact h.crawlable b hb
    · exact List.mem_singleton.mp hb ▸ hcrawlable
  · intro b hb
    rcases List.mem_append.mp hb with hb | hb
    · exact h.notSeed b hb
    · exact List.mem_singleton.mp hb ▸ fun hseed => hunknown.1 hseed hcrawlable
  · rw [List.length_append, List.length_singleton]
    exact hroom

theorem Inv.onAnswer (h : r.Inv seed) (servers : List ServerAddr) :
    Inv seed { r with crawl := (r.crawl.onAnswer servers).1 } := by
  induction servers generalizing r with
  | nil => exact h
  | cons a servers ih =>
    rw [ServerCrawl.onAnswer]
    split_ifs with hfull hskip
    · exact h
    · exact ih h
    · simp only [Bool.or_eq_true, Bool.not_eq_true', decide_eq_true_eq, not_or] at hskip
      exact ih (h.discover (by simpa using hskip.1) hskip.2 (not_le.mp hfull))

theorem Inv.nextAsks_eq (h : r.Inv seed) (max : Nat) :
    r.crawl.nextAsks max = ({ r.crawl with
      asked := r.crawl.asked ∪ (r.crawl.frontier.take max).toFinset
      frontier := r.crawl.frontier.drop max }, r.crawl.frontier.take max) := by
  obtain ⟨-, hnodup, hapart⟩ := List.nodup_append'.mp h.once
  have hnew : ∀ a ∈ r.crawl.frontier, a ∉ r.crawl.asked := fun a ha hasked =>
    hapart (List.mem_toFinset.mp (h.asked ▸ hasked)) ha
  exact ServerCrawl.nextAsks_eq hnew hnodup max

theorem Inv.nextAsks (h : r.Inv seed) (max : Nat) :
    Inv seed ⟨(r.crawl.nextAsks max).1, r.asks ++ (r.crawl.nextAsks max).2⟩ := by
  have hsame : r.asks ++ r.crawl.frontier.take max ++ r.crawl.frontier.drop max =
      r.asks ++ r.crawl.frontier := by
    rw [List.append_assoc, List.take_append_drop]
  rw [h.nextAsks_eq]
  refine ⟨hsame ▸ h.once, ?_, hsame ▸ h.seen, hsame ▸ h.known, h.discoveredOnce, h.crawlable,
    h.notSeed, h.ceiling⟩
  rw [List.toFinset_append, ← h.asked]

theorem inv_step (h : r.Inv seed) {op : CrawlOp} (hs : r.step op = some r') : r'.Inv seed := by
  cases op with
  | nextAsks max => exact Option.some.inj hs ▸ h.nextAsks max
  | onAnswer servers => exact Option.some.inj hs ▸ h.onAnswer servers

/-! ## The discipline -/

/-- The seeds that may be asked. -/
def acceptedSeeds (seed : List ServerAddr) : Finset ServerAddr :=
  (seed.filter isCrawlable).toFinset

structure Disciplined (seed : List ServerAddr) (r : CrawlRun) : Prop where
  askedOnce : r.asks.Nodup
  crawlable : ∀ a, a ∈ r.asks ∨ a ∈ r.crawl.discovered → isCrawlable a = true
  discoveredOnce : r.crawl.discovered.Nodup
  notSeed : ∀ a ∈ r.crawl.discovered, a ∉ seed
  ceiling : r.crawl.discovered.length ≤ MAX_CRAWL_DISCOVERED
  /-- Nothing accepted is lost. -/
  kept : ∀ a, a ∈ r.asks ∨ a ∈ r.crawl.frontier ↔
    a ∈ acceptedSeeds seed ∨ a ∈ r.crawl.discovered
  bounded : r.asks.length ≤ (acceptedSeeds seed).card + MAX_CRAWL_DISCOVERED
  counted : r.crawl.askedCount = r.asks.length
  /-- A round asks somebody unless all were asked. -/
  progress : ∀ max, (r.crawl.nextAsks max).2.length = min max r.crawl.frontier.length
  exhausted : r.crawl.isExhausted = true ↔
    ∀ a, a ∈ acceptedSeeds seed ∨ a ∈ r.crawl.discovered → a ∈ r.asks

theorem Inv.disciplined (h : r.Inv seed) : r.Disciplined seed := by
  have hasks : r.asks.Nodup := (List.nodup_append'.mp h.once).1
  have hkept (a : ServerAddr) : a ∈ r.asks ∨ a ∈ r.crawl.frontier ↔
      a ∈ acceptedSeeds seed ∨ a ∈ r.crawl.discovered := by
    rw [← List.mem_append, h.known, acceptedSeeds, List.mem_toFinset, List.mem_filter]
  refine ⟨hasks, ?_, h.discoveredOnce, h.notSeed, h.ceiling, hkept, ?_, ?_, ?_, ?_⟩
  · rintro a (ha | ha)
    · rcases (hkept a).mp (.inl ha) with hseed | hdiscovered
      · exact (List.mem_filter.mp (List.mem_toFinset.mp hseed)).2
      · exact h.crawlable a hdiscovered
    · exact h.crawlable a ha
  · have hsub : r.asks.toFinset ⊆ acceptedSeeds seed ∪ r.crawl.discovered.toFinset := by
      intro a ha
      rw [Finset.mem_union, List.mem_toFinset]
      exact (hkept a).mp (.inl (List.mem_toFinset.mp ha))
    calc
      r.asks.length = r.asks.toFinset.card := (List.toFinset_card_of_nodup hasks).symm
      _ ≤ (acceptedSeeds seed ∪ r.crawl.discovered.toFinset).card := Finset.card_le_card hsub
      _ ≤ (acceptedSeeds seed).card + r.crawl.discovered.toFinset.card := Finset.card_union_le _ _
      _ ≤ (acceptedSeeds seed).card + MAX_CRAWL_DISCOVERED :=
        Nat.add_le_add_left ((List.toFinset_card_le _).trans h.ceiling) _
  · rw [ServerCrawl.askedCount, h.asked, List.toFinset_card_of_nodup hasks]
  · intro max
    rw [h.nextAsks_eq, List.length_take]
  · rw [ServerCrawl.isExhausted, List.isEmpty_iff]
    constructor
    · intro hempty a ha
      have hmem := (hkept a).mpr ha
      rw [hempty] at hmem
      exact hmem.resolve_right List.not_mem_nil
    · intro hall
      refine List.eq_nil_iff_forall_not_mem.mpr fun a ha => ?_
      obtain ⟨-, -, hapart⟩ := List.nodup_append'.mp h.once
      exact hapart (hall a ((hkept a).mp (.inr ha))) ha

/-- Whatever is answered, and in whatever order the calls come. -/
theorem crawl_disciplined (seed : List ServerAddr) (ops : List CrawlOp) :
    Runs.Always step (Disciplined seed) (begin seed) ops :=
  Runs.always_induct (fun _ _ _ h hs => inv_step h hs) (fun _ h => h.disciplined)
    (inv_begin seed) ops

end CrawlRun

end PadMule.Engine
