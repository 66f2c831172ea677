import PadMule.Engine.PresentBytes
import PadMule.Proto.Ed2kHash

/-
  `finish_download`: verify the finished `.part` off the lock, then move it into place.

  Sessions and their writes go on meanwhile. The file handed over is the `.part` itself, so
  a write that lands after the verdict changes what the user gets (`late_write_handed_over`).
  With the packets of `Careful` a complete file has no write in flight, and then the bytes
  read are the bytes moved, now and later (`file_handed_over`).
-/

namespace PadMule.Engine

open Spans Files PadMule.Proto BlockReceiver Lanes Inflate

variable {Z : Inflater}

/-- Where `finish_download` stands. -/
inductive Finish where
  | idle
  | reading (buf : Bytes) -- `verify_whole_file_and_aich` has read this much
  | judged (verified : Bool)
  | stopped -- it returned, and nothing was moved
  | moved -- `finish_to` returned Ok

/-- A download with its sessions and the task that finishes it. -/
structure Finishing (Z : Inflater) where
  swarm : Swarm Z
  cancelled : Bool
  finish : Finish

inductive FinishLabel where
  | swarm (l : Swarm.Label)
  | claim
  | read (n : Nat)
  | judge
  | readFails
  | reset
  | giveUp
  | finishTo
  | cancel

namespace Finishing

def opened (Z : Inflater) (store : PartStore) (file : Bytes) : Finishing Z :=
  ⟨.opened Z store file, false, .idle⟩

/-- What `verify_whole_file_and_aich` reads as part `p`. -/
def partOf (buf : Bytes) (p size : Nat) : Bytes := (buf.drop (p * PARTSIZE)).take (partSize p size)

/-- The content of `dest`: the `.part`'s inode. -/
def dest (f : Finishing Z) : Option Bytes :=
  match f.finish with
  | .moved => some f.swarm.dl.file
  | _ => none

section

variable (md4 : Bytes → Hash16)

/-- Everything but verification of parts. -/
def next (f : Finishing Z) : FinishLabel → Option (Finishing Z)
  | .swarm (.move m) => (f.swarm.move m).map fun swarm => { f with swarm }
  | .swarm (.verify _) => none
  -- complete, and `try_begin_finalize`
  | .claim =>
    match f.finish with
    | .idle =>
      if f.swarm.pf.isComplete ∧ f.swarm.dl.recovery = none then
        some { f with finish := .reading [] }
      else none
    | _ => none
  | .read n =>
    match f.finish with
    | .reading buf =>
      if buf.length + n ≤ f.swarm.pf.size ∧ buf.length + n ≤ f.swarm.dl.file.length then
        some { f with finish := .reading (buf ++ (f.swarm.dl.file.drop buf.length).take n) }
      else none
    | _ => none
  | .judge =>
    match f.finish with
    | .reading buf =>
      if buf.length = f.swarm.pf.size then
        let got := ed2kHashParts md4 f.swarm.pf.size fun p => some (partOf buf p f.swarm.pf.size)
        some { f with finish := .judged (got = some f.swarm.pf.hash) }
      else none
    | _ => none
  | .readFails =>
    match f.finish with
    | .reading _ => some { f with finish := .judged false }
    | _ => none
  -- the parts are re-opened by steps of the download, then `reset_finalize`
  | .reset =>
    match f.finish with
    | .judged false => some { f with finish := .idle }
    | _ => none
  -- cancelled, or the rename failed
  | .giveUp =>
    match f.finish with
    | .judged true => some { f with finish := .stopped }
    | _ => none
  | .finishTo =>
    match f.finish with
    | .judged true =>
      if f.swarm.dl.recovery = none ∧ f.cancelled = false then some { f with finish := .moved }
      else none
    | _ => none
  | .cancel => some { f with cancelled := true }

def steps (f : Finishing Z) : List FinishLabel → Option (Finishing Z)
  | [] => some f
  | l :: ls => (f.next md4 l).bind fun f' => f'.steps ls

variable (sha1 : Bytes → Hash20) (verified : LeafSpan → Prop)

inductive Step : Finishing Z → FinishLabel → Finishing Z → Prop where
  | next {f f' : Finishing Z} {l : FinishLabel} : f.next md4 l = some f' → Step f l f'
  | verify {f : Finishing Z} {dl : Download} {swarm : Swarm Z} :
    Swarm.Step md4 sha1 verified f.swarm (.verify dl) swarm →
      Step f (.swarm (.verify dl)) { f with swarm }

/-- The states reached from `f₀` by steps that all meet `ok`. -/
inductive RunOf (ok : Finishing Z → FinishLabel → Prop) (f₀ : Finishing Z) :
    Finishing Z → Prop where
  | start : RunOf ok f₀ f₀
  | step {f f' : Finishing Z} {l : FinishLabel} :
    RunOf ok f₀ f → Step md4 sha1 verified f l f' → ok f l → RunOf ok f₀ f'

end

end Finishing

/-! ## What a careful step does to the file -/

theorem length_writeAllAt (file : Bytes) (start : Nat) (data : Bytes) :
    (writeAllAt file start data).length = max file.length (start + data.length) := by
  have hlen : ((file ++ List.replicate (start - file.length) 0).take start).length = start := by
    rw [List.length_take, List.length_append, List.length_replicate]
    omega
  unfold writeAllAt
  rw [List.length_append, List.length_append, hlen, List.length_drop]
  omega

/-- A write in flight whose bytes are missing ends inside the file. -/
theorem end_le_of_missing {pf : PartFile} (hok : pf.Ok) {c : Commit} {done : Nat}
    (hstate : c.state = .writing done) (hne : c.data ≠ []) (hmissing : c.reach ⊆ cover pf.gaps) :
    c.start + c.data.length ≤ pf.size := by
  have hlen := List.length_pos_iff.mpr hne
  have hlast : c.start + c.data.length - 1 ∈ c.reach := by
    simp only [Commit.reach, hstate, Set.mem_Ico]
    omega
  have hlt := hok.cover_lt _ (hmissing hlast)
  omega

namespace Swarm

variable {md4 : Bytes → Hash16} {sha1 : Bytes → Hash20} {verified : LeafSpan → Prop}

/-- The data file never outgrows the download. -/
theorem Guarded.within {w w' : Swarm Z} {l : Label} (h : Guarded w)
    (hs : Step md4 sha1 verified w l w') (hlen : w.dl.file.length ≤ w.pf.size) :
    w'.dl.file.length ≤ w.pf.size := by
  rcases h.file_cases hs with hsame | ⟨v, c, c', m, dl, hadvance, hlane, hne, hfile⟩
  · rw [hsame]
    exact hlen
  · rw [hfile]
    rcases advance_cases hadvance with ⟨hsame, -⟩ | ⟨done, n, hstate, hin, hland, -⟩
    · rw [hsame]
      exact hlen
    · have hend := end_le_of_missing h.gapsOk hstate hne (hlane.trans (h.lanes.inside v))
      have hchunk : ((c.data.drop done).take n).length ≤ c.data.length - done := by
        rw [List.length_take, List.length_drop]
        exact Nat.min_le_right _ _
      rw [hland, length_writeAllAt]
      omega

/-- The sessions never open a gap. -/
theorem move_closes {w w' : Swarm Z} (hok : w.pf.Ok) {m : Move} (hm : w.move m = some w') :
    cover w'.pf.gaps ⊆ cover w.pf.gaps := by
  cases move_cases hm with
  | connect status hfree => exact subset_rfl
  | ask flags hi hphase hfree hnew => exact subset_rfl
  | receive hi hphase haccept => exact subset_rfl
  | batchDone hi hphase hdone => exact subset_rfl
  | revoked hi hphase => exact subset_rfl
  | skip hi hphase hempty => exact subset_rfl
  | detach hi hphase hfree => exact subset_rfl
  | @write i s rx noMoreBlocks writes c c' m dl hi hphase hadvance =>
    show cover dl.store.pf.gaps ⊆ _
    rw [(advance_static hadvance).1]
    exact subset_rfl
  | close due hi hphase hsynced hfree =>
    show cover (Download.saveMet _ _).store.pf.gaps ⊆ _
    rw [store_saveMet]
    show cover (PartFile.fillGap _ _ _).gaps ⊆ _
    rw [PartFile.cover_fillGap hok]
    exact Set.sdiff_subset
  | unsettled hi hphase hdone => exact subset_rfl
  | settle hi hphase hnext => exact subset_rfl
  | drained flags hi hphase hfree => exact subset_rfl
  | topUp flags hi hphase hfree => exact subset_rfl
  | leave hi hlive => exact subset_rfl
  | @straggle k c c' m dl hk hadvance =>
    show cover dl.store.pf.gaps ⊆ _
    rw [(advance_static hadvance).1]
    exact subset_rfl
  | setHashset hashes hfree => exact subset_rfl

/-- A file without a gap keeps its content. -/
theorem Guarded.prefix_of_complete {w w' : Swarm Z} {l : Label} (h : Guarded w)
    (hs : Step md4 sha1 verified w l w') (hcomplete : w.pf.gaps = []) :
    w.dl.file <+: w'.dl.file := by
  refine List.prefix_iff_getElem?.mpr fun x hx => ?_
  refine h.keeps hs ?_ (List.getElem?_eq_getElem hx)
  rw [hcomplete, cover_nil]
  exact Set.notMem_empty x

end Swarm

/-! ## What is read is what is moved -/

/-- The bytes are being vetted, or have been. -/
def Finish.Settled : Finish → Prop
  | .reading _ | .judged true | .moved => True
  | _ => False

namespace Finishing

/-- What a step of the finishing task does. -/
inductive Took (md4 : Bytes → Hash16) (f : Finishing Z) : FinishLabel → Finishing Z → Prop where
  | swarm {m : Move} {swarm : Swarm Z} (hm : f.swarm.move m = some swarm) :
    Took md4 f (.swarm (.move m)) { f with swarm }
  | claim (hcomplete : f.swarm.pf.gaps = []) : Took md4 f .claim { f with finish := .reading [] }
  | read {buf : Bytes} (n : Nat) (hfinish : f.finish = .reading buf) :
    Took md4 f (.read n)
      { f with finish := .reading (buf ++ (f.swarm.dl.file.drop buf.length).take n) }
  | judge {buf : Bytes} (hfinish : f.finish = .reading buf) (hlen : buf.length = f.swarm.pf.size) :
    Took md4 f .judge { f with finish := .judged (ed2kHashParts md4 f.swarm.pf.size (fun p =>
      some (partOf buf p f.swarm.pf.size)) = some f.swarm.pf.hash) }
  | finishTo (hfinish : f.finish = .judged true) :
    Took md4 f .finishTo { f with finish := .moved }
  | unsettled {l : FinishLabel} (finish : Finish) (h : ¬finish.Settled) :
    Took md4 f l { f with finish }
  | cancel : Took md4 f .cancel { f with cancelled := true }

theorem next_cases {md4 : Bytes → Hash16} {f f' : Finishing Z} {l : FinishLabel}
    (h : f.next md4 l = some f') : Took md4 f l f' := by
  cases l with
  | swarm l =>
    cases l with
    | move m =>
      obtain ⟨swarm, hm, rfl⟩ := Option.map_eq_some_iff.mp h
      exact .swarm hm
    | verify dl => cases h
  | claim =>
    simp only [next] at h
    split at h
    · split_ifs at h with hready
      cases h
      exact .claim (List.isEmpty_iff.mp hready.1)
    · cases h
  | read n =>
    simp only [next] at h
    split at h
    · rename_i buf hfinish
      split_ifs at h
      cases h
      exact .read n hfinish
    · cases h
  | judge =>
    simp only [next] at h
    split at h
    · rename_i buf hfinish
      split_ifs at h with hlen
      cases h
      exact .judge hfinish hlen
    · cases h
  | readFails =>
    simp only [next] at h
    split at h
    · cases h
      exact .unsettled (.judged false) id
    · cases h
  | reset =>
    simp only [next] at h
    split at h
    · cases h
      exact .unsettled .idle id
    · cases h
  | giveUp =>
    simp only [next] at h
    split at h
    · cases h
      exact .unsettled .stopped id
    · cases h
  | finishTo =>
    simp only [next] at h
    split at h
    · rename_i hfinish
      split_ifs at h
      cases h
      exact .finishTo hfinish
    · cases h
  | cancel =>
    cases h
    exact .cancel

/-- Packets are careful, and from the start of the verification on no verification step
    re-opens a byte. -/
def Careful (f : Finishing Z) : FinishLabel → Prop
  | .swarm l => f.swarm.Careful l ∧
    ∀ dl, l = .verify dl → f.finish.Settled → cover dl.store.pf.gaps ⊆ cover f.swarm.pf.gaps
  | _ => True

/-- A file being vetted has no gap; what has been read of it is what it holds; and once it
    is accepted it has the hash that was asked for. -/
structure Vetted (md4 : Bytes → Hash16) (hash : Hash16) (f : Finishing Z) : Prop where
  guarded : f.swarm.Guarded
  hash_eq : f.swarm.pf.hash = hash
  within : f.swarm.dl.file.length ≤ f.swarm.pf.size
  complete : f.finish.Settled → f.swarm.pf.gaps = []
  read : ∀ buf, f.finish = .reading buf → buf <+: f.swarm.dl.file
  right : f.finish = .judged true ∨ f.finish = .moved →
    f.swarm.dl.file.length = f.swarm.pf.size ∧ ed2kHash md4 f.swarm.dl.file = hash

/-- Gap lists in order are empty if they cover nothing. -/
theorem eq_nil_of_cover {pf : PartFile} (hok : pf.Ok) (h : cover pf.gaps ⊆ ∅) : pf.gaps = [] :=
  List.eq_nil_iff_forall_not_mem.mpr fun g hg =>
    h (mem_cover.mpr ⟨g, hg, Nat.le_refl _, hok.tidy.nonempty g hg⟩)

theorem partOf_eq {buf : Bytes} (p : Nat) :
    partOf buf p buf.length = (buf.drop (p * PARTSIZE)).take PARTSIZE := by
  unfold partOf partSize
  rw [List.take_eq_take_min (i := PARTSIZE), List.length_drop, Nat.min_comm]

variable {md4 : Bytes → Hash16} {sha1 : Bytes → Hash20} {verified : LeafSpan → Prop}
  {hash : Hash16}

theorem vetted_opened {store : PartStore} (hopen : Opened store) {file : Bytes}
    (hlen : file.length ≤ store.pf.size) : Vetted md4 store.pf.hash (opened Z store file) where
  guarded := Swarm.guarded_opened hopen file
  hash_eq := rfl
  within := hlen
  complete h := h.elim
  read _ h := by cases h
  right h := by rcases h with h | h <;> cases h

/-- The sessions and the verification of parts go on. -/
theorem Vetted.swarm {f : Finishing Z} (h : Vetted md4 hash f) {l : Swarm.Label} {w : Swarm Z}
    (hs : Swarm.Step md4 sha1 verified f.swarm l w) (hcareful : f.Careful (.swarm l)) :
    Vetted md4 hash { f with swarm := w } := by
  obtain ⟨hpackets, hverify⟩ := hcareful
  have hsame := Swarm.sameFile h.guarded.gapsOk hs
  have hwithin := h.guarded.within hs h.within
  have hgrows : f.finish.Settled → f.swarm.dl.file <+: w.dl.file := fun hsettled =>
    h.guarded.prefix_of_complete hs (h.complete hsettled)
  refine ⟨Swarm.guarded_step h.guarded hs hpackets, hsame.hash_eq.trans h.hash_eq, ?_, ?_, ?_, ?_⟩
  · show w.dl.file.length ≤ w.pf.size
    rw [hsame.size_eq]
    exact hwithin
  · intro hsettled
    have hcloses : cover w.pf.gaps ⊆ cover f.swarm.pf.gaps := by
      cases hs with
      | move m hm => exact Swarm.move_closes h.guarded.gapsOk hm
      | verify hstep hcommits hfile => exact hverify _ rfl hsettled
    rw [h.complete hsettled, cover_nil] at hcloses
    exact eq_nil_of_cover hsame.ok hcloses
  · intro buf hfinish
    have hfinish : f.finish = .reading buf := hfinish
    exact (h.read buf hfinish).trans (hgrows (by rw [hfinish]; trivial))
  · intro hfinish
    have hfinish : f.finish = .judged true ∨ f.finish = .moved := hfinish
    obtain ⟨hlen, hright⟩ := h.right hfinish
    have hsettled : f.finish.Settled := by rcases hfinish with h | h <;> rw [h] <;> trivial
    have heq : f.swarm.dl.file = w.dl.file :=
      (hgrows hsettled).eq_of_length_le (by rw [hlen]; exact hwithin)
    refine ⟨?_, ?_⟩
    · show w.dl.file.length = w.pf.size
      rw [hsame.size_eq, ← heq, hlen]
    · show ed2kHash md4 w.dl.file = hash
      rw [← heq, hright]

/-- All bytes have been read, and the verdict is about the file. -/
theorem Vetted.judges {f : Finishing Z} (h : Vetted md4 hash f) {buf : Bytes}
    (hfinish : f.finish = .reading buf) (hlen : buf.length = f.swarm.pf.size) :
    buf = f.swarm.dl.file ∧
      ed2kHashParts md4 f.swarm.pf.size (fun p => some (partOf buf p f.swarm.pf.size)) =
        some (ed2kHash md4 f.swarm.dl.file) := by
  have heq : buf = f.swarm.dl.file :=
    (h.read buf hfinish).eq_of_length_le (by rw [hlen]; exact h.within)
  refine ⟨heq, ?_⟩
  rw [← hlen, ← heq]
  exact ed2kHashParts_eq md4 fun i _ => congrArg some (partOf_eq i)

theorem Vetted.step {f f' : Finishing Z} {l : FinishLabel} (h : Vetted md4 hash f)
    (hs : Step md4 sha1 verified f l f') (hcareful : f.Careful l) : Vetted md4 hash f' := by
  cases hs with
  | verify hs => exact h.swarm hs hcareful
  | next hnext =>
    cases next_cases hnext with
    | @swarm m swarm hm =>
      have hs : Swarm.Step md4 sha1 verified f.swarm (.move m) swarm := .move m hm
      exact h.swarm hs hcareful
    | claim hcomplete =>
      refine ⟨h.guarded, h.hash_eq, h.within, fun _ => hcomplete, ?_, ?_⟩
      · intro buf hbuf
        cases hbuf
        exact List.nil_prefix
      · rintro (hfinish | hfinish) <;> cases hfinish
    | @read buf n hfinish =>
      refine ⟨h.guarded, h.hash_eq, h.within, fun _ => h.complete (by rw [hfinish]; trivial), ?_, ?_⟩
      · intro buf' hbuf
        cases hbuf
        obtain ⟨rest, hrest⟩ := h.read buf hfinish
        rw [← hrest, List.drop_left]
        exact (List.prefix_append_right_inj buf).mpr (List.take_prefix n rest)
      · rintro (hfinish | hfinish) <;> cases hfinish
    | @judge buf hfinish hlen =>
      obtain ⟨heq, hverdict⟩ := h.judges hfinish hlen
      refine ⟨h.guarded, h.hash_eq, h.within, fun _ => h.complete (by rw [hfinish]; trivial), ?_, ?_⟩
      · intro buf' hbuf
        cases hbuf
      · rintro (hjudged | hmoved)
        · rw [hverdict] at hjudged
          refine ⟨by rw [← heq]; exact hlen, ?_⟩
          have hsame : some (ed2kHash md4 f.swarm.dl.file) = some f.swarm.pf.hash := by
            simpa using hjudged
          exact (Option.some.inj hsame).trans h.hash_eq
        · cases hmoved
    | finishTo hfinish =>
      refine ⟨h.guarded, h.hash_eq, h.within, fun _ => h.complete (by rw [hfinish]; trivial), ?_, ?_⟩
      · intro buf hbuf
        cases hbuf
      · exact fun _ => h.right (.inl hfinish)
    | unsettled finish hnot =>
      refine ⟨h.guarded, h.hash_eq, h.within, fun hsettled => absurd hsettled hnot, ?_, ?_⟩
      · intro buf hbuf
        have hbuf : finish = .reading buf := hbuf
        rw [hbuf] at hnot
        exact absurd trivial hnot
      · intro hfinish
        have hfinish : finish = .judged true ∨ finish = .moved := hfinish
        rcases hfinish with rfl | rfl <;> exact absurd trivial hnot
    | cancel => exact ⟨h.guarded, h.hash_eq, h.within, h.complete, h.read, h.right⟩

theorem RunOf.vetted {store : PartStore} (hopen : Opened store) {file : Bytes}
    (hlen : file.length ≤ store.pf.size) {f : Finishing Z}
    (hrun : RunOf md4 sha1 verified Careful (opened Z store file) f) :
    Vetted md4 store.pf.hash f := by
  induction hrun with
  | start => exact vetted_opened hopen hlen
  | step _ hs hcareful ih => exact ih.step hs hcareful

/-- Whatever has been moved to `dest` has the hash that was asked for, then and later. -/
theorem file_handed_over {store : PartStore} (hopen : Opened store) {file : Bytes}
    (hlen : file.length ≤ store.pf.size) {f : Finishing Z}
    (hrun : RunOf md4 sha1 verified Careful (opened Z store file) f) {content : Bytes}
    (hdest : f.dest = some content) : ed2kHash md4 content = store.pf.hash := by
  unfold dest at hdest
  split at hdest
  · rename_i hfinish
    cases hdest
    exact ((hrun.vetted hopen hlen).right (.inr hfinish)).2
  · cases hdest

/-- Steps that meet `ok` in every state, one after the other. -/
theorem runOf_steps {ok : Finishing Z → FinishLabel → Prop} {f₀ f f' : Finishing Z}
    {ls : List FinishLabel} (hrun : RunOf md4 sha1 verified ok f₀ f) (h : f.steps md4 ls = some f')
    (hok : ∀ l ∈ ls, ∀ v, ok v l) : RunOf md4 sha1 verified ok f₀ f' := by
  induction ls generalizing f with
  | nil =>
    cases h
    exact hrun
  | cons l ls ih =>
    rw [steps] at h
    obtain ⟨v, hv, h⟩ := Option.bind_eq_some_iff.mp h
    obtain ⟨hl, hls⟩ := List.forall_mem_cons.mp hok
    exact ih (.step hrun (.next hv) (hl f)) h hls

end Finishing

/-! ## A late write -/

/-- An MD4 that tells the requested content from every other. -/
def md4OfOneTwo (data : Bytes) : Hash16 :=
  if data = [1, 2] then Digest.fill 16 0xAB else Digest.fill 16 0

def smallFinishing : Finishing storedZlib :=
  .opened storedZlib (PartStore.create (Digest.fill 16 0xAB) 2 [0x61]) [0, 0]

def sessionMoves (ms : List Move) : List FinishLabel := ms.map fun m => .swarm (.move m)

/-- Session `i` commits the two bytes it has just received. -/
def commitsBoth (i : Nat) : List Move :=
  [.detach i, .write i .lock, .write i (.land 2), .write i .sync, .close i false]

/-- One session fetches the file, and it is verified and moved. -/
theorem small_file_handed_over :
    ∃ f : Finishing storedZlib,
      Finishing.RunOf md4OfOneTwo (fun _ => Digest.fill 20 0) (fun _ => True) Finishing.Careful
        smallFinishing f ∧
      f.dest = some [1, 2] ∧ ed2kHash md4OfOneTwo [1, 2] = Digest.fill 16 0xAB := by
  have hsteps : (smallFinishing.steps md4OfOneTwo
      (sessionMoves [.connect fullSource, .ask 0 ⟨false, false⟩])).bind (fun f₁ =>
        (f₁.next md4OfOneTwo (.swarm (.move (rawPiece 0 2 [1, 2])))).bind fun f₂ =>
          (f₂.steps md4OfOneTwo (sessionMoves (commitsBoth 0) ++
            [.claim, .read 2, .judge, .finishTo])).map fun f =>
              ((f₁.swarm.pf.gaps, f₁.swarm.dl.commits.isEmpty),
                (f₁.swarm.sessions.map fetchingHash, f.dest))) =
      some (([⟨0, 2⟩], true), ([some (Digest.fill 16 0xAB)], some [1, 2])) := by decide +kernel
  obtain ⟨f₁, hf₁, hsteps⟩ := Option.bind_eq_some_iff.mp hsteps
  obtain ⟨f₂, hf₂, hsteps⟩ := Option.bind_eq_some_iff.mp hsteps
  obtain ⟨f, hf, hres⟩ := Option.map_eq_some_iff.mp hsteps
  have hgaps : f₁.swarm.pf.gaps = [⟨0, 2⟩] := congrArg (fun r => r.1.1) hres
  have hcommits : f₁.swarm.dl.commits = [] := List.isEmpty_iff.mp (congrArg (fun r => r.1.2) hres)
  have hphases : f₁.swarm.sessions.map fetchingHash = [some (Digest.fill 16 0xAB)] :=
    congrArg (fun r => r.2.1) hres
  have hdest : f.dest = some [1, 2] := congrArg (fun r => r.2.2) hres
  have hstart : Finishing.RunOf md4OfOneTwo (fun _ => Digest.fill 20 0) (fun _ => True)
      Finishing.Careful smallFinishing f₁ := by
    refine Finishing.runOf_steps .start hf₁ fun l hl v => ?_
    simp only [sessionMoves, List.map_cons, List.map_nil, List.mem_cons, List.not_mem_nil,
      or_false] at hl
    rcases hl with rfl | rfl <;> exact ⟨trivial, fun _ hdl => by cases hdl⟩
  have hpacket : f₁.Careful (.swarm (.move (rawPiece 0 2 [1, 2]))) :=
    ⟨careful_rawPiece hgaps hcommits hphases (by decide) [1, 2], fun _ hdl => by cases hdl⟩
  have hrun : Finishing.RunOf md4OfOneTwo (fun _ => Digest.fill 20 0) (fun _ => True)
      Finishing.Careful smallFinishing f := by
    refine Finishing.runOf_steps (.step hstart (.next hf₂) hpacket) hf fun l hl v => ?_
    rcases List.mem_append.mp hl with hl | hl
    · obtain ⟨m, hm, rfl⟩ := List.mem_map.mp hl
      refine ⟨?_, fun _ hdl => by cases hdl⟩
      simp only [commitsBoth, List.mem_cons, List.not_mem_nil, or_false] at hm
      rcases hm with rfl | rfl | rfl | rfl | rfl <;> trivial
    · simp only [List.mem_cons, List.not_mem_nil, or_false] at hl
      rcases hl with rfl | rfl | rfl | rfl <;> trivial
  have hopen := Opened.created (Digest.fill 16 0xAB) 2 [0x61]
  exact ⟨f, hrun, hdest, Finishing.file_handed_over hopen (by decide) hrun hdest⟩

/-- Endgame has given the block to two sessions. The first one's bytes are verified; then
    the second one's write lands, and that is what `finish_to` moves. -/
theorem late_write_handed_over :
    ∃ f : Finishing storedZlib,
      Finishing.RunOf md4OfOneTwo (fun _ => Digest.fill 20 0) (fun _ => True) (fun _ _ => True)
        smallFinishing f ∧
      f.dest = some [9, 9] ∧ ed2kHash md4OfOneTwo [9, 9] ≠ Digest.fill 16 0xAB := by
  have hsteps : (smallFinishing.steps md4OfOneTwo
      (sessionMoves ([.connect fullSource, .connect fullSource, .ask 0 ⟨false, false⟩,
        .ask 1 ⟨false, false⟩, rawPiece 0 2 [1, 2]] ++ commitsBoth 0) ++
      [.claim, .read 2, .judge] ++
      sessionMoves [rawPiece 1 2 [9, 9], .detach 1, .write 1 .lock, .write 1 (.land 2)] ++
      [.finishTo])).map Finishing.dest = some (some [9, 9]) := by decide +kernel
  obtain ⟨f, hf, hdest⟩ := Option.map_eq_some_iff.mp hsteps
  exact ⟨f, Finishing.runOf_steps .start hf fun _ _ _ => trivial, hdest, by decide +kernel⟩

end PadMule.Engine
