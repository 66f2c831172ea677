import PadMule.Engine.ServeSession
import PadMule.Engine.ServerLogin
import PadMule.Kad.Keywords
import PadMule.Lib.LossyUtf8
import PadMule.Lib.Runs

/-
  `mule-engine/src/kad_publish.rs` and `Engine::maintain_kad_publish`: what is published in Kad,
  and when.

  A pass refills an empty schedule from the library and then works on the first of its jobs. What
  may be published is asked when a job is enqueued, and a job waits for as long as others are in
  front of it, or as passes find a gate closed. So a source record goes out while the node is LowID
  where the job is older than that, and a word of an old name where a file came back under a new
  one. `Current` says that the first job is none of these; the passes of a run publish as they
  should exactly when it holds of each (`publishing_iff`).

  What one file gets of a refill follows from its own clocks, and from the first entry in the
  library under its hash (`filter_refill`); all that is said of clocks and jobs rests on that.
-/

namespace PadMule.Engine.KadPublish

open PadMule.Proto PadMule.Kad FileMap

def KAD_REPUBLISH_SOURCE_SECS : Nat := 5 * 3600
def KAD_REPUBLISH_KEYWORD_SECS : Nat := 24 * 3600

/-! ## The schedule -/

inductive PublishJob where
  | source (hash : Hash16)
  | keyword (file : Hash16) (word : String)
deriving DecidableEq

def PublishJob.file : PublishJob → Hash16
  | .source hash => hash
  | .keyword file _ => file

/-- Unix seconds of the last enqueue of each kind. -/
structure FileClocks where
  source : Option Nat
  keyword : Option Nat
deriving DecidableEq

/-- The clock of the job's kind. -/
def PublishJob.clock : PublishJob → FileClocks → Option Nat
  | .source _, c => c.source
  | .keyword .., c => c.keyword

structure PublishSchedule where
  clocks : Dir Hash16 FileClocks
  queue : List PublishJob
deriving DecidableEq

def due (last : Option Nat) (now interval : Nat) : Bool :=
  match last with
  | none => true
  | some t => interval ≤ now - t

/-- The jobs of one file whose clocks are `c`. -/
def FileClocks.jobs (now : Nat) (canPublishSource : Bool) (c : FileClocks)
    (f : Hash16 × List String) : List PublishJob :=
  (if canPublishSource && due c.source now KAD_REPUBLISH_SOURCE_SECS then [.source f.1] else []) ++
    if due c.keyword now KAD_REPUBLISH_KEYWORD_SECS then f.2.map (.keyword f.1) else []

/-- The clocks afterwards. -/
def FileClocks.stamp (now : Nat) (canPublishSource : Bool) (c : FileClocks) : FileClocks :=
  ⟨if canPublishSource && due c.source now KAD_REPUBLISH_SOURCE_SECS then some now else c.source,
    if due c.keyword now KAD_REPUBLISH_KEYWORD_SECS then some now else c.keyword⟩

namespace PublishSchedule

def new : PublishSchedule := ⟨[], []⟩

/-- `entry(*hash).or_default()` -/
def clocksOf (s : PublishSchedule) (hash : Hash16) : FileClocks :=
  (get s.clocks hash).getD ⟨none, none⟩

/-- What `refill` does with one shared file. -/
def enqueue (now : Nat) (canPublishSource : Bool) (s : PublishSchedule)
    (f : Hash16 × List String) : PublishSchedule :=
  let c := s.clocksOf f.1
  ⟨write s.clocks f.1 (c.stamp now canPublishSource), s.queue ++ c.jobs now canPublishSource f⟩

def refill (s : PublishSchedule) (now : Nat) (shared : List (Hash16 × List String))
    (canPublishSource : Bool) : PublishSchedule :=
  if s.queue ≠ [] then s
  else
    shared.foldl (enqueue now canPublishSource)
      { s with clocks := s.clocks.filter fun e => e.1 ∈ shared.map Prod.fst }

def takeNext (s : PublishSchedule) : Option PublishJob × PublishSchedule :=
  (s.queue.head?, { s with queue := s.queue.tail })

end PublishSchedule

/-! ## A pass -/

/-- In milliseconds. -/
def KAD_PUBLISH_EVERY : Nat := 10 * 1000
def KAD_PUBLISH_CRYPT_OPTIONS : UInt8 := 0x01

/-- What a pass reads of the engine and does not change. -/
structure Surroundings where
  state : EngineState
  offline : Bool
  sharing : Bool
  /-- The contacts that the node knows, where there is a node. -/
  contactsKnown : Option Nat
  serverHighId : Bool
  shared : List SharedFile
  advertisedPort : UInt16
  kadAdvertisedPort : UInt16
deriving DecidableEq

/-- A record as it is handed to the node, beside the file or the word that gives its target. -/
inductive Published where
  | source (file : Hash16) (entry : SourceEntry)
  | keyword (word : String) (entry : KeywordEntry)
deriving DecidableEq

structure World where
  env : Surroundings
  /-- The wall clock in seconds. -/
  now : Nat
  /-- The monotonic clock in milliseconds. -/
  instant : Nat
  lastKadPublish : Nat
  schedule : PublishSchedule
  /-- History: what was enqueued, and when, for files that have been in the library since. -/
  enqueued : List (PublishJob × Nat)
deriving DecidableEq

section Passes

variable (toLowercase : String → String)

/-- The words a shared file is published under. -/
def wordsOf (f : SharedFile) : List String :=
  kadKeywords toLowercase (LossyUtf8.fromUtf8Lossy f.name)

def keywordEntry (f : SharedFile) : KeywordEntry where
  fileId := .fromHash f.hash
  name := LossyUtf8.fromUtf8Lossy f.name
  size := f.size
  completeSources := 1
  fileType := ""
  aichRoot := f.aichRoot

namespace Surroundings

def sourceEntry (env : Surroundings) (f : SharedFile) : SourceEntry :=
  ⟨f.size, env.advertisedPort, some env.kadAdvertisedPort, KAD_PUBLISH_CRYPT_OPTIONS⟩

def sharedFile (env : Surroundings) (hash : Hash16) : Option SharedFile :=
  env.shared.find? (·.hash = hash)

/-- The library as the schedule sees it. -/
def scheduleInput (env : Surroundings) : List (Hash16 × List String) :=
  env.shared.map fun f => (f.hash, wordsOf toLowercase f)

/-- A job whose file is no longer shared publishes nothing. -/
def publish (env : Surroundings) : PublishJob → Option Published
  | .source hash => (env.sharedFile hash).map fun f => .source hash (env.sourceEntry f)
  | .keyword file word => (env.sharedFile file).map fun f => .keyword word (keywordEntry f)

end Surroundings

namespace World

/-- `Engine::new`, in any surroundings. -/
def new (env : Surroundings) (now instant : Nat) : World :=
  ⟨env, now, instant, instant, .new, []⟩

/-- The gates of a pass, in front of everything it changes. -/
def canPublish (w : World) : Bool :=
  (w.env.state = .running || w.env.state = .seeding) && !w.env.offline && w.env.sharing &&
    KAD_PUBLISH_EVERY ≤ w.instant - w.lastKadPublish && w.env.contactsKnown.any (· ≠ 0)

def refilled (w : World) : PublishSchedule :=
  w.schedule.refill w.now (w.env.scheduleInput toLowercase) w.env.serverHighId

/-- What a pass enqueues. -/
def batch (w : World) : List PublishJob :=
  if w.canPublish && w.schedule.queue = [] then (w.refilled toLowercase).queue else []

def maintainKadPublish (w : World) : Option Published × World :=
  if !w.canPublish then (none, w)
  else
    let next := (w.refilled toLowercase).takeNext
    (next.1.bind w.env.publish,
      { w with
        lastKadPublish := w.instant
        schedule := next.2
        enqueued := w.enqueued ++ (w.batch toLowercase).map fun job => (job, w.now) })

end World

inductive Move where
  | pass
  | advance (secs millis : Nat)
  /-- Anything the pass reads changes. -/
  | change (env : Surroundings)

def step (w : World) : Move → Option World
  | .pass => some (w.maintainKadPublish toLowercase).2
  | .advance secs millis => some { w with now := w.now + secs, instant := w.instant + millis }
  | .change env =>
    some { w with
      env
      enqueued := w.enqueued.filter fun e => e.1.file ∈ env.shared.map SharedFile.hash }

/-! ## What is asked of a pass -/

/-- The record is true of the surroundings it is published in. -/
def Surroundings.Honest (env : Surroundings) : Published → Prop
  | .source file entry => env.serverHighId = true ∧ env.sharing = true ∧
      ∃ f ∈ env.shared, f.hash = file ∧ entry = env.sourceEntry f
  | .keyword word entry => ∃ f ∈ env.shared, entry = keywordEntry f ∧ word ∈ wordsOf toLowercase f

structure World.Passes (w : World) : Prop where
  honest : ∀ r, (w.maintainKadPublish toLowercase).1 = some r → w.env.Honest toLowercase r
  /-- A pass that cannot publish does nothing. -/
  gated : w.canPublish = false → w.maintainKadPublish toLowercase = (none, w)
  sourceApart : ∀ hash t, .source hash ∈ w.batch toLowercase → (.source hash, t) ∈ w.enqueued →
    t + KAD_REPUBLISH_SOURCE_SECS ≤ w.now
  sourceOnce : ∀ hash, (w.batch toLowercase).count (.source hash) ≤ 1
  keywordApart : ∀ file word word' t, .keyword file word ∈ w.batch toLowercase →
    (.keyword file word', t) ∈ w.enqueued → t + KAD_REPUBLISH_KEYWORD_SECS ≤ w.now
  /-- One job for each word of the file, where there is one for any. -/
  everyWordOnce : ∀ file word, .keyword file word ∈ w.batch toLowercase →
    ∃ f, w.env.sharedFile file = some f ∧ ∀ word',
      (w.batch toLowercase).count (.keyword file word') =
        if word' ∈ wordsOf toLowercase f then 1 else 0
  /-- What is due is enqueued once the schedule has run dry. -/
  drained : w.canPublish = true → w.schedule.queue = [] → ∀ f ∈ w.env.shared,
    (w.env.serverHighId = true →
      due (w.schedule.clocksOf f.hash).source w.now KAD_REPUBLISH_SOURCE_SECS = true →
        .source f.hash ∈ w.batch toLowercase) ∧
    (due (w.schedule.clocksOf f.hash).keyword w.now KAD_REPUBLISH_KEYWORD_SECS = true →
      ∃ f', w.env.sharedFile f.hash = some f' ∧
        ∀ word ∈ wordsOf toLowercase f', .keyword f.hash word ∈ w.batch toLowercase)

/-- The job could be enqueued today, or publishes nothing. -/
def Surroundings.StillHolds (env : Surroundings) : PublishJob → Prop
  | .source hash => (env.sharedFile hash).isSome → env.serverHighId = true
  | .keyword file word => ∀ f, env.sharedFile file = some f → word ∈ wordsOf toLowercase f

/-- Where the pass can publish, the job that waits in front still holds. -/
def World.Current (w : World) : Prop :=
  w.canPublish = true → ∀ job, w.schedule.queue.head? = some job → w.env.StillHolds toLowercase job

/-! ## Jobs and clocks of one file -/

section Schedule

variable {now : Nat} {can : Bool}

theorem due_now {interval : Nat} (h : 0 < interval) (now : Nat) :
    due (some now) now interval = false := by
  simp only [due, Nat.sub_self, decide_eq_false_iff_not]
  omega

theorem le_of_due {t now interval : Nat} (h : due (some t) now interval = true)
    (hpos : 0 < interval) : t + interval ≤ now := by
  have hle : interval ≤ now - t := of_decide_eq_true h
  omega

theorem mem_jobs {c : FileClocks} {f : Hash16 × List String} {job : PublishJob} :
    job ∈ c.jobs now can f ↔
      (job = .source f.1 ∧ can = true ∧ due c.source now KAD_REPUBLISH_SOURCE_SECS = true) ∨
      ((∃ word ∈ f.2, .keyword f.1 word = job) ∧
        due c.keyword now KAD_REPUBLISH_KEYWORD_SECS = true) := by
  unfold FileClocks.jobs
  rw [List.mem_append]
  refine or_congr ?_ ?_
  · split_ifs with hdue
    · rw [Bool.and_eq_true] at hdue
      simp [hdue]
    · rw [Bool.and_eq_true] at hdue
      simp [hdue]
  · split_ifs with hdue
    · simp [hdue]
    · simp [hdue]

theorem file_of_mem_jobs {c : FileClocks} {f : Hash16 × List String} {job : PublishJob}
    (h : job ∈ c.jobs now can f) : job.file = f.1 := by
  rcases mem_jobs.mp h with ⟨rfl, -⟩ | ⟨⟨word, -, rfl⟩, -⟩
  · rfl
  · rfl

/-- What was stamped just now is not due. -/
theorem jobs_stamp (c : FileClocks) (f : Hash16 × List String) :
    (c.stamp now can).jobs now can f = [] := by
  have hsource := due_now (show 0 < KAD_REPUBLISH_SOURCE_SECS by decide) now
  have hkeyword := due_now (show 0 < KAD_REPUBLISH_KEYWORD_SECS by decide) now
  refine List.eq_nil_iff_forall_not_mem.mpr fun job hjob => ?_
  rcases mem_jobs.mp hjob with ⟨-, hcan, hdue⟩ | ⟨-, hdue⟩
  · simp only [FileClocks.stamp, hcan, Bool.true_and] at hdue
    split_ifs at hdue with hold
    · exact absurd hdue (by simp [hsource])
    · exact hold hdue
  · simp only [FileClocks.stamp] at hdue
    split_ifs at hdue with hold
    · exact absurd hdue (by simp [hkeyword])
    · exact hold hdue

theorem stamp_stamp (c : FileClocks) : (c.stamp now can).stamp now can = c.stamp now can := by
  simp only [FileClocks.stamp, FileClocks.mk.injEq]
  constructor
  · split_ifs <;> rfl
  · split_ifs <;> rfl

namespace PublishSchedule

theorem clocksOf_enqueue (s : PublishSchedule) (f : Hash16 × List String) (hash : Hash16) :
    (s.enqueue now can f).clocksOf hash =
      if hash = f.1 then (s.clocksOf hash).stamp now can else s.clocksOf hash := by
  unfold enqueue clocksOf
  dsimp only
  rw [get_write]
  split_ifs with heq
  · rw [heq, Option.getD_some]
  · rfl

/-- Only the first entry under its hash brings a file any jobs. -/
theorem filter_foldl_enqueue (files : List (Hash16 × List String)) (hash : Hash16)
    (s : PublishSchedule) :
    (files.foldl (enqueue now can) s).queue.filter (·.file = hash) =
      s.queue.filter (·.file = hash) ++
        (files.find? (·.1 = hash)).elim [] ((s.clocksOf hash).jobs now can) := by
  induction files generalizing s with
  | nil => rw [List.foldl_nil, List.find?_nil, Option.elim_none, List.append_nil]
  | cons f files ih =>
    rw [List.foldl_cons, ih, clocksOf_enqueue, List.find?_cons]
    have hqueue : (s.enqueue now can f).queue = s.queue ++ (s.clocksOf f.1).jobs now can f := rfl
    rw [hqueue, List.filter_append]
    by_cases heq : f.1 = hash
    · have hall : ((s.clocksOf f.1).jobs now can f).filter (·.file = hash) =
          (s.clocksOf f.1).jobs now can f :=
        List.filter_eq_self.mpr fun job hjob =>
          decide_eq_true ((file_of_mem_jobs hjob).trans heq)
      have hrest : (files.find? (·.1 = hash)).elim []
          (((s.clocksOf hash).stamp now can).jobs now can) = [] := by
        cases files.find? (·.1 = hash) with
        | none => rfl
        | some g => exact jobs_stamp _ g
      rw [hall, if_pos heq.symm, hrest, List.append_nil, decide_eq_true heq, Option.elim_some, heq]
    · have hnone : ((s.clocksOf f.1).jobs now can f).filter (·.file = hash) = [] :=
        List.filter_eq_nil_iff.mpr fun job hjob hfile =>
          heq ((file_of_mem_jobs hjob).symm.trans (of_decide_eq_true hfile))
      rw [hnone, if_neg (Ne.symm heq), List.append_nil, decide_eq_false heq]

theorem clocksOf_foldl_enqueue (files : List (Hash16 × List String)) (hash : Hash16)
    (s : PublishSchedule) :
    (files.foldl (enqueue now can) s).clocksOf hash =
      if hash ∈ files.map Prod.fst then (s.clocksOf hash).stamp now can else s.clocksOf hash := by
  induction files generalizing s with
  | nil => rfl
  | cons f files ih =>
    rw [List.foldl_cons, ih, clocksOf_enqueue, List.map_cons]
    by_cases heq : hash = f.1
    · rw [if_pos heq, if_pos (List.mem_cons.mpr (.inl heq)), stamp_stamp, ite_self]
    · rw [if_neg heq]
      exact if_congr (by rw [List.mem_cons, or_iff_right heq]) rfl rfl

/-- A file that is shared keeps its clocks. -/
theorem clocksOf_filter (s : PublishSchedule) {hashes : List Hash16} {hash : Hash16}
    (h : hash ∈ hashes) (queue : List PublishJob) :
    (⟨s.clocks.filter fun e => e.1 ∈ hashes, queue⟩ : PublishSchedule).clocksOf hash =
      s.clocksOf hash := by
  unfold clocksOf
  dsimp only
  rw [get_filter_mem s.clocks h]

variable {s : PublishSchedule} {files : List (Hash16 × List String)} {hash : Hash16}

/-- What one file gets of a refill. -/
theorem filter_refill (hqueue : s.queue = []) :
    (s.refill now files can).queue.filter (·.file = hash) =
      (files.find? (·.1 = hash)).elim [] ((s.clocksOf hash).jobs now can) := by
  rw [refill, if_neg (not_not.mpr hqueue), filter_foldl_enqueue, hqueue, List.filter_nil,
    List.nil_append]
  cases hfound : files.find? (·.1 = hash) with
  | none => rfl
  | some f =>
    have hmem : hash ∈ files.map Prod.fst :=
      List.mem_map.mpr ⟨f, List.mem_of_find?_eq_some hfound, by simpa using List.find?_some hfound⟩
    rw [Option.elim_some, Option.elim_some, clocksOf_filter s hmem _]

theorem clocksOf_refill (hqueue : s.queue = []) (hmem : hash ∈ files.map Prod.fst) :
    (s.refill now files can).clocksOf hash = (s.clocksOf hash).stamp now can := by
  rw [refill, if_neg (not_not.mpr hqueue), clocksOf_foldl_enqueue, if_pos hmem,
    clocksOf_filter s hmem _]

end PublishSchedule

theorem count_jobs_source (c : FileClocks) (f : Hash16 × List String) :
    (c.jobs now can f).count (.source f.1) ≤ 1 := by
  have hwords : (if due c.keyword now KAD_REPUBLISH_KEYWORD_SECS then
      f.2.map (.keyword f.1) else []).count (PublishJob.source f.1) = 0 := by
    refine List.count_eq_zero.mpr fun hmem => ?_
    split_ifs at hmem
    · simp at hmem
    · exact absurd hmem List.not_mem_nil
  rw [FileClocks.jobs, List.count_append, hwords]
  split_ifs
  · rw [List.count_singleton_self]
  · rw [List.count_nil]
    exact Nat.zero_le 1

theorem count_jobs_keyword {c : FileClocks} {hash : Hash16} {words : List String}
    (hdue : due c.keyword now KAD_REPUBLISH_KEYWORD_SECS = true) (hnodup : words.Nodup)
    (word : String) :
    (c.jobs now can (hash, words)).count (.keyword hash word) = if word ∈ words then 1 else 0 := by
  have hsource : (if can && due c.source now KAD_REPUBLISH_SOURCE_SECS then
      [PublishJob.source hash] else []).count (.keyword hash word) = 0 := by
    refine List.count_eq_zero.mpr fun hmem => ?_
    split_ifs at hmem
    · simp at hmem
    · exact absurd hmem List.not_mem_nil
  have hinj : Function.Injective (PublishJob.keyword hash) := fun a b h =>
    (PublishJob.keyword.inj h).2
  rw [FileClocks.jobs, List.count_append, hsource, if_pos hdue, Nat.zero_add,
    List.count_map_of_injective words _ hinj, hnodup.count]

theorem clock_stamp (job : PublishJob) (c : FileClocks) :
    job.clock (c.stamp now can) = some now ∨ job.clock (c.stamp now can) = job.clock c := by
  cases job with
  | source hash =>
    simp only [PublishJob.clock, FileClocks.stamp]
    split_ifs
    · exact .inl rfl
    · exact .inr rfl
  | keyword file word =>
    simp only [PublishJob.clock, FileClocks.stamp]
    split_ifs
    · exact .inl rfl
    · exact .inr rfl

theorem clock_stamp_of_mem {c : FileClocks} {f : Hash16 × List String} {job : PublishJob}
    (h : job ∈ c.jobs now can f) : job.clock (c.stamp now can) = some now := by
  rcases mem_jobs.mp h with ⟨rfl, hcan, hdue⟩ | ⟨⟨word, -, rfl⟩, hdue⟩
  · exact if_pos (Bool.and_eq_true_iff.mpr ⟨hcan, hdue⟩)
  · exact if_pos hdue

end Schedule

/-! ## Runs -/

namespace World

variable {toLowercase : String → String} {w w' : World} {job : PublishJob} {hash : Hash16}

theorem find?_scheduleInput (env : Surroundings) (hash : Hash16) :
    (env.scheduleInput toLowercase).find? (·.1 = hash) =
      (env.sharedFile hash).map fun f => (f.hash, wordsOf toLowercase f) := by
  rw [Surroundings.scheduleInput, List.find?_map]
  rfl

theorem sharedFile_spec {env : Surroundings} {f : SharedFile} (h : env.sharedFile hash = some f) :
    f ∈ env.shared ∧ f.hash = hash :=
  ⟨List.mem_of_find?_eq_some h, by simpa using List.find?_some h⟩

theorem sharedFile_isSome_iff {env : Surroundings} :
    (env.sharedFile hash).isSome ↔ ∃ f ∈ env.shared, f.hash = hash := by
  rw [Surroundings.sharedFile, List.find?_isSome]
  simp

theorem filter_batch (hopen : w.canPublish = true) (hqueue : w.schedule.queue = [])
    (hash : Hash16) : (w.batch toLowercase).filter (·.file = hash) =
      (w.env.sharedFile hash).elim [] fun f =>
        (w.schedule.clocksOf hash).jobs w.now w.env.serverHighId
          (f.hash, wordsOf toLowercase f) := by
  rw [batch, if_pos (by simp [hopen, hqueue]), refilled, PublishSchedule.filter_refill hqueue,
    find?_scheduleInput]
  cases w.env.sharedFile hash with
  | none => rfl
  | some f => rfl

theorem mem_batch : job ∈ w.batch toLowercase ↔
    (w.canPublish = true ∧ w.schedule.queue = []) ∧
      ∃ f, w.env.sharedFile job.file = some f ∧
        job ∈ (w.schedule.clocksOf job.file).jobs w.now w.env.serverHighId
          (f.hash, wordsOf toLowercase f) := by
  by_cases hdry : w.canPublish = true ∧ w.schedule.queue = []
  · have hself : job ∈ w.batch toLowercase ↔
        job ∈ (w.batch toLowercase).filter (·.file = job.file) := by
      rw [List.mem_filter]
      simp
    rw [hself, filter_batch hdry.1 hdry.2]
    cases w.env.sharedFile job.file with
    | none => simp
    | some f => simp [hdry]
  · rw [batch, if_neg (by simpa using hdry)]
    simp [hdry]

/-- What is left of the history belongs to shared files, and its clocks are not behind it. -/
def Inv (w : World) : Prop := ∀ job t, (job, t) ∈ w.enqueued → t ≤ w.now ∧
  (∃ f ∈ w.env.shared, f.hash = job.file) ∧
    ∃ t', job.clock (w.schedule.clocksOf job.file) = some t' ∧ t ≤ t'

theorem mem_scheduleInput {env : Surroundings} :
    hash ∈ (env.scheduleInput toLowercase).map Prod.fst ↔ ∃ f ∈ env.shared, f.hash = hash := by
  simp [Surroundings.scheduleInput]

/-- A pass leaves the clock of a shared file alone, or sets it to now. -/
theorem clock_pass (toLowercase : String → String)
    (hfile : ∃ f ∈ w.env.shared, f.hash = job.file) :
    job.clock ((w.refilled toLowercase).clocksOf job.file) = some w.now ∨
      job.clock ((w.refilled toLowercase).clocksOf job.file) =
        job.clock (w.schedule.clocksOf job.file) := by
  unfold refilled
  by_cases hqueue : w.schedule.queue = []
  · rw [PublishSchedule.clocksOf_refill hqueue (mem_scheduleInput.mpr hfile)]
    exact clock_stamp job _
  · rw [PublishSchedule.refill, if_pos hqueue]
    exact .inr rfl

theorem Inv.pass (h : w.Inv) : (w.maintainKadPublish toLowercase).2.Inv := by
  unfold maintainKadPublish
  split_ifs with hgate
  · exact h
  · intro job t hmem
    rcases List.mem_append.mp hmem with hold | hnew
    · obtain ⟨ht, hfile, t', hclock, hle⟩ := h job t hold
      refine ⟨ht, hfile, ?_⟩
      rcases clock_pass toLowercase hfile with hnow | hsame
      · exact ⟨w.now, hnow, ht⟩
      · exact ⟨t', hsame.trans hclock, hle⟩
    · obtain ⟨job', hjob, heq⟩ := List.mem_map.mp hnew
      obtain ⟨rfl, rfl⟩ := Prod.mk.inj heq
      obtain ⟨⟨-, hqueue⟩, f, hf, hdue⟩ := mem_batch.mp hjob
      have hfile := sharedFile_isSome_iff.mp (Option.isSome_of_eq_some hf)
      refine ⟨le_rfl, hfile, w.now, ?_, le_rfl⟩
      have hclocks : (w.refilled toLowercase).clocksOf job'.file = _ :=
        PublishSchedule.clocksOf_refill hqueue (mem_scheduleInput.mpr hfile)
      exact (congrArg job'.clock hclocks).trans (clock_stamp_of_mem hdue)

theorem Inv.step {m : Move} (h : w.Inv) (hs : step toLowercase w m = some w') : w'.Inv := by
  cases m with
  | pass =>
    obtain rfl := Option.some.inj hs
    exact h.pass
  | advance secs millis =>
    obtain rfl := Option.some.inj hs
    intro job t hmem
    obtain ⟨ht, hfile, hclock⟩ := h job t hmem
    exact ⟨Nat.le_add_right_of_le ht, hfile, hclock⟩
  | change env =>
    obtain rfl := Option.some.inj hs
    intro job t hmem
    obtain ⟨hold, hstays⟩ := List.mem_filter.mp hmem
    obtain ⟨ht, -, hclock⟩ := h job t hold
    exact ⟨ht, List.mem_map.mp (of_decide_eq_true hstays), hclock⟩

/-- Two enqueues of one kind, for one file that stays, are an interval apart. -/
theorem Inv.apart (h : w.Inv) {interval t : Nat} (hpos : 0 < interval)
    (hmem : (job, t) ∈ w.enqueued)
    (hdue : due (job.clock (w.schedule.clocksOf job.file)) w.now interval = true) :
    t + interval ≤ w.now := by
  obtain ⟨-, -, t', hclock, hle⟩ := h job t hmem
  rw [hclock] at hdue
  exact (Nat.add_le_add_right hle _).trans (le_of_due hdue hpos)

/-- Whatever waits in front, what the pass publishes is true exactly when that still holds. -/
theorem honest_publish_iff {env : Surroundings} (hsharing : env.sharing = true) :
    (∀ r, env.publish job = some r → env.Honest toLowercase r) ↔
      env.StillHolds toLowercase job := by
  cases job with
  | source hash =>
    cases hf : env.sharedFile hash with
    | none => simp [Surroundings.publish, Surroundings.StillHolds, hf]
    | some f =>
      obtain ⟨hmem, hhash⟩ := sharedFile_spec hf
      have hpub : env.publish (.source hash) = some (.source hash (env.sourceEntry f)) := by
        rw [Surroundings.publish, hf, Option.map_some]
      simp only [hpub, Option.some.injEq, forall_eq', Surroundings.StillHolds, hf]
      exact ⟨fun h _ => h.1, fun h => ⟨h rfl, hsharing, f, hmem, hhash, rfl⟩⟩
  | keyword file word =>
    cases hf : env.sharedFile file with
    | none => simp [Surroundings.publish, Surroundings.StillHolds, hf]
    | some f =>
      have hpub : env.publish (.keyword file word) = some (.keyword word (keywordEntry f)) := by
        rw [Surroundings.publish, hf, Option.map_some]
      simp only [hpub, Option.some.injEq, forall_eq', Surroundings.StillHolds, hf]
      constructor
      · rintro ⟨g, -, hentry, hword⟩
        have hname : LossyUtf8.fromUtf8Lossy f.name = LossyUtf8.fromUtf8Lossy g.name :=
          congrArg KeywordEntry.name hentry
        rw [wordsOf, hname, ← wordsOf]
        exact hword
      · exact fun hword => ⟨f, (sharedFile_spec hf).1, rfl, hword⟩

/-- A job that was enqueued just now holds. -/
theorem stillHolds_of_mem_batch (h : job ∈ w.batch toLowercase) :
    w.env.StillHolds toLowercase job := by
  obtain ⟨-, f, hf, hjob⟩ := mem_batch.mp h
  rcases mem_jobs.mp hjob with ⟨rfl, hhigh, -⟩ | ⟨⟨word, hword, rfl⟩, -⟩
  · exact fun _ => hhigh
  · intro g hg
    obtain rfl := Option.some.inj (hf.symm.trans hg)
    simpa only using hword

theorem sharing_of_canPublish (h : w.canPublish = true) : w.env.sharing = true := by
  simp only [canPublish, Bool.and_eq_true] at h
  exact h.1.1.2

theorem honest_iff_current :
    (∀ r, (w.maintainKadPublish toLowercase).1 = some r → w.env.Honest toLowercase r) ↔
      w.Current toLowercase := by
  unfold maintainKadPublish
  cases hopen : w.canPublish with
  | false => simp [Current, hopen]
  | true =>
    have hsharing := sharing_of_canPublish hopen
    show (∀ r, (w.refilled toLowercase).queue.head?.bind w.env.publish = some r → _) ↔ _
    cases hqueue : w.schedule.queue with
    | nil =>
      refine iff_of_true (fun r hr => ?_) fun _ job hjob => absurd (hqueue ▸ hjob) (by simp)
      obtain ⟨job, hjob, hpub⟩ := Option.bind_eq_some_iff.mp hr
      have hbatch : job ∈ w.batch toLowercase := by
        rw [batch, if_pos (by simp [hopen, hqueue])]
        exact List.mem_of_mem_head? hjob
      exact (honest_publish_iff hsharing).mpr (stillHolds_of_mem_batch hbatch) r hpub
    | cons job rest =>
      have hrefilled : w.refilled toLowercase = w.schedule := by
        rw [refilled, PublishSchedule.refill, if_pos (by simp [hqueue])]
      rw [hrefilled, hqueue, List.head?_cons, Option.bind_some, honest_publish_iff hsharing]
      simp [Current, hopen, hqueue]

theorem count_batch (job : PublishJob) : (w.batch toLowercase).count job =
    ((w.batch toLowercase).filter (·.file = job.file)).count job := by
  rw [List.count_filter]
  exact decide_eq_true rfl

theorem Inv.passes_iff (h : w.Inv) : w.Passes toLowercase ↔ w.Current toLowercase := by
  refine ⟨fun hp => honest_iff_current.mp hp.honest, fun hc => ⟨honest_iff_current.mpr hc, ?_, ?_,
    ?_, ?_, ?_, ?_⟩⟩
  · intro hshut
    rw [maintainKadPublish, if_pos (by rw [hshut, Bool.not_false])]
  · intro hash t hjob hmem
    obtain ⟨-, f, hf, hdue⟩ := mem_batch.mp hjob
    rcases mem_jobs.mp hdue with ⟨-, -, hdue⟩ | ⟨⟨word, -, heq⟩, -⟩
    · exact h.apart (by decide) hmem hdue
    · exact absurd heq (by simp)
  · intro hash
    by_cases hjob : .source hash ∈ w.batch toLowercase
    · obtain ⟨⟨hopen, hqueue⟩, f, hf, -⟩ := mem_batch.mp hjob
      rw [PublishJob.file] at hf
      obtain rfl := (sharedFile_spec hf).2
      rw [count_batch, PublishJob.file, filter_batch hopen hqueue, hf, Option.elim_some]
      exact count_jobs_source _ (f.hash, wordsOf toLowercase f)
    · rw [List.count_eq_zero.mpr hjob]
      exact Nat.zero_le 1
  · intro file word word' t hjob hmem
    obtain ⟨-, f, hf, hdue⟩ := mem_batch.mp hjob
    rcases mem_jobs.mp hdue with ⟨heq, -⟩ | ⟨-, hdue⟩
    · exact absurd heq (by simp)
    · exact h.apart (by decide) hmem hdue
  · intro file word hjob
    obtain ⟨⟨hopen, hqueue⟩, f, hf, hdue⟩ := mem_batch.mp hjob
    rw [PublishJob.file] at hf hdue
    obtain rfl := (sharedFile_spec hf).2
    refine ⟨f, hf, fun word' => ?_⟩
    rw [count_batch, PublishJob.file, filter_batch hopen hqueue, hf, Option.elim_some]
    rcases mem_jobs.mp hdue with ⟨heq, -⟩ | ⟨-, hdue⟩
    · exact absurd heq (by simp)
    · have hnodup : (wordsOf toLowercase f).Nodup := nodup_kadKeywords _
      exact count_jobs_keyword hdue hnodup word'
  · intro hopen hqueue f hf
    obtain ⟨f', hf'⟩ := Option.isSome_iff_exists.mp (sharedFile_isSome_iff.mpr ⟨f, hf, rfl⟩)
    have hhash := (sharedFile_spec hf').2
    constructor
    · intro hhigh hdue
      refine mem_batch.mpr ⟨⟨hopen, hqueue⟩, f', hf', mem_jobs.mpr (.inl ⟨?_, hhigh, hdue⟩)⟩
      rw [hhash]
    · intro hdue
      refine ⟨f', hf', fun word hword => ?_⟩
      refine mem_batch.mpr ⟨⟨hopen, hqueue⟩, f', hf', mem_jobs.mpr (.inr ⟨⟨word, ?_, ?_⟩, hdue⟩)⟩
      · simpa only using hword
      · rw [hhash]

end World

/-- In a run from a fresh engine every pass publishes as it should, exactly when every pass that
    can publish finds a job in front that still holds. -/
theorem publishing_iff (env : Surroundings) (now instant : Nat) (moves : List Move) :
    Runs.Throughout (step toLowercase) (fun w m => m = .pass → w.Passes toLowercase)
        (.new env now instant) moves ↔
      Runs.Throughout (step toLowercase) (fun w m => m = .pass → w.Current toLowercase)
        (.new env now instant) moves := by
  have hstart : (World.new env now instant).Inv := fun _ _ hmem => absurd hmem List.not_mem_nil
  constructor
  · refine Runs.Throughout.imp (fun w m w' hi _ hs => hi.step hs) (fun w m hi hp hm => ?_) hstart
    exact hi.passes_iff.mp (hp hm)
  · refine Runs.Throughout.imp (fun w m w' hi _ hs => hi.step hs) (fun w m hi hc hm => ?_) hstart
    exact hi.passes_iff.mpr (hc hm)

end Passes

/-! ## A source record of a node that nobody can reach -/

/-- A file whose name gives no words. -/
def nameless (n : UInt8) : SharedFile := ⟨.fill 16 n, 1, [], [], "", 0, "", none⟩

def twoFiles : Surroundings := ⟨.running, false, true, some 1, true, [nameless 1, nameless 2], 1, 2⟩

/-- Both are due while HighID; the first goes out, the login after it is LowID, and the second goes
    out all the same. -/
theorem lowId_publishes_source :
    ¬ ∀ (toLowercase : String → String) (env : Surroundings) (now instant : Nat)
      (moves : List Move), Runs.Throughout (step toLowercase)
        (fun w m => m = .pass → w.Passes toLowercase) (.new env now instant) moves := by
  intro h
  have hrun := h id twoFiles 0 0
    [.advance 10 10000, .pass, .change { twoFiles with serverHighId := false },
      .advance 10 10000, .pass]
  have hlast := (hrun.2 _ rfl).2 _ rfl |>.2 _ rfl |>.2 _ rfl |>.1 rfl
  have hrecord := hlast.honest (.source (.fill 16 2) ⟨1, 1, some 2, 1⟩) (by decide +kernel)
  exact absurd hrecord.1 (by decide +kernel)

end PadMule.Engine.KadPublish
