import PadMule.Lib.Runs

/-
  Tasks that rewrite one file: each edit reads it whole, writes what becomes of it to a temp file
  that all share, and renames that over it. A task holds the one lock during its edits, or does not
  take it at all.

  The edits are serializable as long as none of them reads the file, to change it, while another one
  is between its read and its rename (`always_serial`); the lock sees to that for the tasks that
  take it.
-/

namespace Rewrites

/-- How the write and the rename of an edit end. -/
inductive Outcome (β : Type) where
  /-- The write fails, and this is what it leaves in the temp file. -/
  | failed (left : β)
  /-- The rename fails. -/
  | unrenamed
  | renamed
deriving DecidableEq

/-- How far an edit is. -/
inductive Phase (β : Type) where
  | idle
  /-- The file has been read, and this is to be written. -/
  | writes (content : β)
  /-- It has been written to the temp file. -/
  | renames (content : β)
deriving DecidableEq

structure Task (ε β : Type) where
  locks : Bool
  /-- The edits to come, the one that is under way included. -/
  todo : List (ε × Outcome β)
  phase : Phase β

structure System (ι ε β : Type) where
  file : Option β
  tmp : Option β
  holder : Option ι
  tasks : ι → Task ε β

variable {ι ε β : Type} [DecidableEq ι]

namespace System

def setPhase (s : System ι ε β) (i : ι) (phase : Phase β) : System ι ε β :=
  { s with tasks := Function.update s.tasks i { s.tasks i with phase } }

/-- The edit is over; behind the last one the lock is released. -/
def finish (s : System ι ε β) (i : ι) (rest : List (ε × Outcome β)) : System ι ε β :=
  { s with
    holder := if (s.tasks i).locks ∧ rest = [] then none else s.holder
    tasks := Function.update s.tasks i { s.tasks i with todo := rest, phase := .idle } }

/-- The next action of a task, where it has one and is not waiting for the lock. -/
def step (new : ε → Option β → Option β) (s : System ι ε β) (i : ι) : Option (System ι ε β) :=
  match (s.tasks i).todo, (s.tasks i).phase with
  | [], _ => none
  | (e, _) :: rest, .idle =>
    if (s.tasks i).locks ∧ s.holder ≠ some i then
      if s.holder = none then some { s with holder := some i } else none
    else
      match new e s.file with
      | none => some (s.finish i rest)
      | some content => some (s.setPhase i (.writes content))
  | (_, .failed left) :: rest, .writes _ => some (finish { s with tmp := some left } i rest)
  | _ :: _, .writes content => some (setPhase { s with tmp := some content } i (.renames content))
  -- a temp file that is gone cannot be renamed
  | (_, .renamed) :: rest, .renames _ =>
    some (finish { s with file := s.tmp.or s.file, tmp := none } i rest)
  | _ :: rest, .renames _ => some (s.finish i rest)

end System

/-! ## Serial orders -/

/-- An edit without anything in between. -/
def applyEdit (new : ε → Option β → Option β) (file : Option β) (edit : ε × Outcome β) : Option β :=
  match edit.2 with
  | .renamed => (new edit.1 file).or file
  | _ => file

def serial (new : ε → Option β → Option β) (file : Option β) (edits : List (ε × Outcome β)) :
    Option β :=
  edits.foldl (applyEdit new) file

theorem serial_concat (new : ε → Option β → Option β) (file : Option β)
    (edits : List (ε × Outcome β)) (edit : ε × Outcome β) :
    serial new file (edits ++ [edit]) = applyEdit new (serial new file edits) edit :=
  List.foldl_concat ..

/-- The edits that a task has made. -/
def madeBy (order : List (ι × (ε × Outcome β))) (i : ι) : List (ε × Outcome β) :=
  (order.filter fun made => made.1 = i).map Prod.snd

/-- The edits that are over, each task's in the order of the task, and what they come to. -/
structure SerialOrder (new : ε → Option β → Option β) (start s : System ι ε β)
    (order : List (ι × (ε × Outcome β))) : Prop where
  made : ∀ i, madeBy order i ++ (s.tasks i).todo = (start.tasks i).todo
  file : s.file = serial new start.file (order.map Prod.snd)

/-! ## Overlaps -/

/-- The edit for which the task is about to read the file, if there is something to change. -/
def reading (new : ε → Option β → Option β) (s : System ι ε β) (i : ι) : Option ε :=
  match (s.tasks i).todo, (s.tasks i).phase with
  | (e, _) :: _, .idle =>
    if (s.tasks i).locks ∧ s.holder ≠ some i then none
    else if (new e s.file).isSome then some e
    else none
  | _, _ => none

/-- No other edit is between its read and its rename, unless both tasks take the lock. -/
def Alone (s : System ι ε β) (i : ι) : Prop :=
  ∀ j, j ≠ i → (s.tasks j).phase ≠ .idle → (s.tasks i).locks ∧ (s.tasks j).locks

/-- The step is no read for a change during the change of another task, and what is read for fits
    the file. -/
def Clean (new : ε → Option β → Option β) (fits : ε → Option β → Prop) (s : System ι ε β)
    (i : ι) : Prop :=
  ∀ e, reading new s i = some e → Alone s i ∧ fits e s.file

instance [Fintype ι] [DecidableEq β] (s : System ι ε β) (i : ι) : Decidable (Alone s i) :=
  inferInstanceAs (Decidable (∀ j, j ≠ i → (s.tasks j).phase ≠ .idle →
    (s.tasks i).locks ∧ (s.tasks j).locks))

instance [Fintype ι] [DecidableEq β] (new : ε → Option β → Option β) (fits : ε → Option β → Prop)
    [∀ e file, Decidable (fits e file)] (s : System ι ε β) (i : ι) :
    Decidable (Clean new fits s i) :=
  match h : reading new s i with
  | none => .isTrue fun e he => by cases h.symm.trans he
  | some e => decidable_of_iff (Alone s i ∧ fits e s.file)
      ⟨fun hok e' he' => Option.some.inj (h.symm.trans he') ▸ hok, fun hclean => hclean e h⟩

/-! ## What a step does -/

variable {new : ε → Option β → Option β} {fits : ε → Option β → Prop}
  {start s s' : System ι ε β} {i : ι}

/-- What the step of a task whose next edit is `e` makes of a system. -/
inductive Stepped (new : ε → Option β → Option β) (s : System ι ε β) (i : ι) (e : ε)
    (o : Outcome β) (rest : List (ε × Outcome β)) : System ι ε β → Prop
  | acquires (hphase : (s.tasks i).phase = .idle) (hlocks : (s.tasks i).locks)
      (hfree : s.holder = none) : Stepped new s i e o rest { s with holder := some i }
  | leaves (hphase : (s.tasks i).phase = .idle) (hlocks : (s.tasks i).locks → s.holder = some i)
      (hnew : new e s.file = none) : Stepped new s i e o rest (s.finish i rest)
  | reads (content : β) (hphase : (s.tasks i).phase = .idle)
      (hlocks : (s.tasks i).locks → s.holder = some i) (hnew : new e s.file = some content) :
      Stepped new s i e o rest (s.setPhase i (.writes content))
  | fails (content left : β) (hphase : (s.tasks i).phase = .writes content)
      (ho : o = .failed left) :
      Stepped new s i e o rest (System.finish { s with tmp := some left } i rest)
  | writes (content : β) (hphase : (s.tasks i).phase = .writes content) :
      Stepped new s i e o rest
        (System.setPhase { s with tmp := some content } i (.renames content))
  | renames (content : β) (hphase : (s.tasks i).phase = .renames content) (ho : o = .renamed) :
      Stepped new s i e o rest
        (System.finish { s with file := s.tmp.or s.file, tmp := none } i rest)
  | misses (content : β) (hphase : (s.tasks i).phase = .renames content) (ho : o ≠ .renamed) :
      Stepped new s i e o rest (s.finish i rest)

theorem stepped (h : s.step new i = some s') :
    ∃ e o rest, (s.tasks i).todo = (e, o) :: rest ∧ Stepped new s i e o rest s' := by
  unfold System.step at h
  rcases htodo : (s.tasks i).todo with _ | ⟨⟨e, o⟩, rest⟩
  · rw [htodo] at h
    cases h
  refine ⟨e, o, rest, rfl, ?_⟩
  cases hphase : (s.tasks i).phase with
  | idle =>
    rw [htodo, hphase] at h
    dsimp only at h
    split_ifs at h with hlock hfree
    · cases h
      exact .acquires hphase hlock.1 hfree
    · have hheld : (s.tasks i).locks → s.holder = some i :=
        fun hl => not_not.mp (not_and.mp hlock hl)
      split at h
      · rename_i hnew
        cases h
        exact .leaves hphase hheld hnew
      · rename_i content hnew
        cases h
        exact .reads content hphase hheld hnew
  | writes content =>
    rw [htodo, hphase] at h
    cases o with
    | failed left =>
      cases h
      exact .fails content left hphase rfl
    | unrenamed =>
      cases h
      exact .writes content hphase
    | renamed =>
      cases h
      exact .writes content hphase
  | renames content =>
    rw [htodo, hphase] at h
    cases o with
    | failed left =>
      cases h
      exact .misses content hphase nofun
    | unrenamed =>
      cases h
      exact .misses content hphase nofun
    | renamed =>
      cases h
      exact .renames content hphase rfl

/-! ## What holds without overlaps -/

/-- One edit at most is under way; it holds the lock if its task takes one, the file is as it was
    read, and the temp file is its own. -/
structure Ordered (new : ε → Option β → Option β) (fits : ε → Option β → Prop)
    (s : System ι ε β) : Prop where
  one : ∀ i j, (s.tasks i).phase ≠ .idle → (s.tasks j).phase ≠ .idle → i = j
  held : ∀ i, (s.tasks i).phase ≠ .idle → (s.tasks i).locks → s.holder = some i
  fresh : ∀ i content, (s.tasks i).phase = .writes content ∨ (s.tasks i).phase = .renames content →
    ∀ e ∈ (s.tasks i).todo.head?, new e.1 s.file = some content ∧ fits e.1 s.file
  wrote : ∀ i content, (s.tasks i).phase = .renames content → s.tmp = some content

omit [DecidableEq ι] in
theorem Ordered.of_idle (h : ∀ j, (s.tasks j).phase = .idle) : Ordered new fits s where
  one i _ hi := absurd (h i) hi
  held i hi := absurd (h i) hi
  fresh i content hi := by
    rw [h i] at hi
    rcases hi with hi | hi <;> cases hi
  wrote i content hi := by
    rw [h i] at hi
    cases hi

omit [DecidableEq ι] in
/-- Only one edit is under way. -/
theorem Ordered.of_only (hothers : ∀ j, j ≠ i → (s.tasks j).phase = .idle)
    (hheld : (s.tasks i).locks → s.holder = some i)
    (hfresh : ∀ content, (s.tasks i).phase = .writes content ∨
      (s.tasks i).phase = .renames content → ∀ e ∈ (s.tasks i).todo.head?,
        new e.1 s.file = some content ∧ fits e.1 s.file)
    (hwrote : ∀ content, (s.tasks i).phase = .renames content → s.tmp = some content) :
    Ordered new fits s := by
  have heq : ∀ j, (s.tasks j).phase ≠ .idle → j = i := fun j hj =>
    not_not.mp fun hne => hj (hothers j hne)
  have hpending : ∀ {j content}, (s.tasks j).phase = .writes content ∨
      (s.tasks j).phase = .renames content → j = i := fun {j content} hj =>
    heq j (by rcases hj with hj | hj <;> rw [hj] <;> nofun)
  constructor
  · exact fun j k hj hk => (heq j hj).trans (heq k hk).symm
  · intro j hj
    rw [heq j hj]
    exact hheld
  · intro j content hj
    obtain rfl := hpending hj
    exact hfresh content hj
  · intro j content hj
    obtain rfl := hpending (.inr hj)
    exact hwrote content hj

omit [DecidableEq ι] in
theorem Ordered.others (h : Ordered new fits s) (hi : (s.tasks i).phase ≠ .idle) {j : ι}
    (hj : j ≠ i) : (s.tasks j).phase = .idle :=
  not_not.mp fun hpending => hj (h.one j i hpending hi)

/-! ### Tasks after a step -/

theorem setPhase_self (s : System ι ε β) (i : ι) (phase : Phase β) :
    (s.setPhase i phase).tasks i = { s.tasks i with phase } := Function.update_self ..

theorem setPhase_ne (s : System ι ε β) {i j : ι} (h : j ≠ i) (phase : Phase β) :
    (s.setPhase i phase).tasks j = s.tasks j := Function.update_of_ne h ..

theorem finish_self (s : System ι ε β) (i : ι) (rest : List (ε × Outcome β)) :
    (s.finish i rest).tasks i = { s.tasks i with todo := rest, phase := .idle } :=
  Function.update_self ..

theorem finish_ne (s : System ι ε β) {i j : ι} (h : j ≠ i) (rest : List (ε × Outcome β)) :
    (s.finish i rest).tasks j = s.tasks j := Function.update_of_ne h ..

/-- The edit that was under way is over. -/
theorem Ordered.finish (rest : List (ε × Outcome β))
    (h : ∀ j, j ≠ i → (s.tasks j).phase = .idle) : Ordered new fits (s.finish i rest) := by
  refine .of_idle fun j => ?_
  by_cases hj : j = i
  · rw [hj, finish_self]
  · rw [finish_ne s hj, h j hj]

/-- An edit that changes nothing goes unnoticed by one that is under way. -/
theorem Ordered.leave (h : Ordered new fits s) (hphase : (s.tasks i).phase = .idle)
    (hlocks : (s.tasks i).locks → s.holder = some i) (rest : List (ε × Outcome β)) :
    Ordered new fits (s.finish i rest) := by
  have hphases : ∀ j, ((s.finish i rest).tasks j).phase = (s.tasks j).phase := by
    intro j
    by_cases hj : j = i
    · rw [hj, finish_self, hphase]
    · rw [finish_ne s hj]
  have hne : ∀ j, (s.tasks j).phase ≠ .idle → j ≠ i := by
    rintro j hj rfl
    exact hj hphase
  constructor
  · intro j k hj hk
    rw [hphases] at hj hk
    exact h.one j k hj hk
  · intro j hj hl
    rw [hphases] at hj
    rw [finish_ne s (hne j hj)] at hl
    have hheld := h.held j hj hl
    show (if (s.tasks i).locks ∧ rest = [] then none else s.holder) = some j
    rw [if_neg, hheld]
    rintro ⟨hli, -⟩
    exact hne j hj (Option.some.inj (hheld.symm.trans (hlocks hli)))
  · intro j content hj
    rw [hphases] at hj
    have hji : j ≠ i := hne j (by rcases hj with hj | hj <;> rw [hj] <;> nofun)
    rw [finish_ne s hji]
    exact h.fresh j content hj
  · intro j content hj
    rw [hphases] at hj
    exact h.wrote j content hj

omit [DecidableEq ι] in
theorem Ordered.acquire (h : Ordered new fits s) (hfree : s.holder = none) :
    Ordered new fits { s with holder := some i } where
  one := h.one
  held j hj hl := absurd ((h.held j hj hl).symm.trans hfree) nofun
  fresh := h.fresh
  wrote := h.wrote

/-- Who reads for a change is alone, because of the lock if not by chance. -/
theorem Ordered.alone (h : Ordered new fits s) {e : ε} {o : Outcome β} {rest : List (ε × Outcome β)}
    {content : β} (hclean : Clean new fits s i) (htodo : (s.tasks i).todo = (e, o) :: rest)
    (hphase : (s.tasks i).phase = .idle) (hlocks : (s.tasks i).locks → s.holder = some i)
    (hnew : new e s.file = some content) :
    (∀ j, j ≠ i → (s.tasks j).phase = .idle) ∧ fits e s.file := by
  have hreading : reading new s i = some e := by
    rw [reading, htodo, hphase]
    dsimp only
    rw [if_neg (fun hl => hl.2 (hlocks hl.1)), hnew, Option.isSome_some, if_pos rfl]
  obtain ⟨halone, hfits⟩ := hclean e hreading
  refine ⟨fun j hj => ?_, hfits⟩
  by_contra hpending
  obtain ⟨hli, hlj⟩ := halone j hj hpending
  exact hj (Option.some.inj ((h.held j hpending hlj).symm.trans (hlocks hli)))

theorem Ordered.step (h : Ordered new fits s) (hclean : Clean new fits s i)
    (hstep : s.step new i = some s') : Ordered new fits s' := by
  obtain ⟨e, o, rest, htodo, hs⟩ := stepped hstep
  cases hs with
  | acquires hphase hlocks hfree => exact h.acquire hfree
  | leaves hphase hlocks hnew => exact h.leave hphase hlocks rest
  | reads content hphase hlocks hnew =>
    obtain ⟨halone, hfits⟩ := h.alone hclean htodo hphase hlocks hnew
    refine .of_only (i := i) (fun j hj => by rw [setPhase_ne s hj, halone j hj]) ?_ ?_ ?_
    · rw [setPhase_self]
      exact hlocks
    · rw [setPhase_self, htodo]
      rintro content' hcontent e' he'
      cases he'
      rcases hcontent with hcontent | hcontent <;> cases hcontent
      exact ⟨hnew, hfits⟩
    · rw [setPhase_self]
      nofun
  | fails content left hphase ho =>
    exact .finish rest fun j hj => h.others (by rw [hphase]; nofun) hj
  | writes content hphase =>
    have hpending : (s.tasks i).phase ≠ .idle := by rw [hphase]; nofun
    refine .of_only (i := i) (fun j hj => ?_) ?_ ?_ ?_
    · rw [setPhase_ne _ hj]
      exact h.others hpending hj
    · rw [setPhase_self]
      exact h.held i hpending
    · rw [setPhase_self]
      rintro content' hcontent
      rcases hcontent with hcontent | hcontent <;> cases hcontent
      exact h.fresh i content (.inl hphase)
    · rw [setPhase_self]
      rintro content' hcontent
      cases hcontent
      rfl
  | renames content hphase ho =>
    exact .finish rest fun j hj => h.others (by rw [hphase]; nofun) hj
  | misses content hphase ho =>
    exact .finish rest fun j hj => h.others (by rw [hphase]; nofun) hj

/-! ## Runs -/

theorem madeBy_concat (order : List (ι × (ε × Outcome β))) (i j : ι) (edit : ε × Outcome β) :
    madeBy (order ++ [(i, edit)]) j = madeBy order j ++ if j = i then [edit] else [] := by
  unfold madeBy
  rw [List.filter_append, List.map_append]
  by_cases hj : j = i
  · simp [hj]
  · simp [hj, Ne.symm hj]

/-- The edits of two tasks, in some order. -/
theorem perm_of_madeBy (order : List (Bool × (ε × Outcome β))) :
    (madeBy order false ++ madeBy order true).Perm (order.map Prod.snd) := by
  have hsplit := (List.filter_append_perm (fun made => decide (made.1 = false)) order).map Prod.snd
  have htrue : (order.filter fun made => !decide (made.1 = false)) =
      order.filter fun made => decide (made.1 = true) := by simp
  rwa [List.map_append, htrue] at hsplit

/-- A step that only gets on with an edit. -/
theorem SerialOrder.goesOn {order : List (ι × (ε × Outcome β))} (h : SerialOrder new start s order)
    (htodo : ∀ j, (s'.tasks j).todo = (s.tasks j).todo) (hfile : s'.file = s.file) :
    SerialOrder new start s' order :=
  ⟨fun j => by rw [htodo, h.made], by rw [hfile, h.file]⟩

/-- The edit of a task is over, and it is the last one in the order. -/
theorem SerialOrder.concat {order : List (ι × (ε × Outcome β))} {e : ε} {o : Outcome β}
    {rest : List (ε × Outcome β)} (h : SerialOrder new start s order)
    (htodo : (s.tasks i).todo = (e, o) :: rest)
    (htasks : s'.tasks = Function.update s.tasks i { s.tasks i with todo := rest, phase := .idle })
    (hfile : s'.file = applyEdit new s.file (e, o)) :
    SerialOrder new start s' (order ++ [(i, (e, o))]) := by
  refine ⟨fun j => ?_, ?_⟩
  · rw [madeBy_concat, htasks, ← h.made j]
    by_cases hj : j = i
    · rw [if_pos hj, hj, Function.update_self, htodo, List.append_assoc]
      rfl
    · rw [if_neg hj, Function.update_of_ne hj, List.append_nil]
  · rw [hfile, h.file, List.map_append]
    exact (serial_concat ..).symm

theorem SerialOrder.step {order : List (ι × (ε × Outcome β))} (h : SerialOrder new start s order)
    (hordered : Ordered new fits s) (hstep : s.step new i = some s') :
    SerialOrder new start s' order ∧ s'.file = s.file ∨
      ∃ edit, SerialOrder new start s' (order ++ [(i, edit)]) ∧
        s'.file = applyEdit new s.file edit ∧
        (edit.2 = .renamed → (new edit.1 s.file).isSome → fits edit.1 s.file) := by
  obtain ⟨e, o, rest, htodo, hs⟩ := stepped hstep
  have hhead : (e, o) ∈ (s.tasks i).todo.head? := by
    rw [htodo]
    rfl
  have htodos (s₀ : System ι ε β) (hs₀ : s₀.tasks = s.tasks) (phase : Phase β) (j : ι) :
      ((s₀.setPhase i phase).tasks j).todo = (s.tasks j).todo := by
    rw [← hs₀]
    by_cases hj : j = i
    · rw [hj, setPhase_self]
    · rw [setPhase_ne s₀ hj]
  have hkept : o ≠ .renamed → applyEdit new s.file (e, o) = s.file := by
    intro ho
    cases o with
    | renamed => exact absurd rfl ho
    | failed left => rfl
    | unrenamed => rfl
  cases hs with
  | acquires hphase hlocks hfree => exact .inl ⟨h.goesOn (fun _ => rfl) rfl, rfl⟩
  | reads content hphase hlocks hnew => exact .inl ⟨h.goesOn (htodos s rfl _) rfl, rfl⟩
  | writes content hphase =>
    exact .inl ⟨h.goesOn (htodos { s with tmp := some content } rfl _) rfl, rfl⟩
  | leaves hphase hlocks hnew =>
    have hsame : s.file = applyEdit new s.file (e, o) := by
      unfold applyEdit
      split
      · rw [hnew, Option.none_or]
      · rfl
    refine .inr ⟨(e, o), h.concat htodo rfl hsame, hsame, fun _ hsome => ?_⟩
    rw [hnew] at hsome
    cases hsome
  | fails content left hphase ho =>
    have hsame : s.file = applyEdit new s.file (e, o) := (hkept (by rw [ho]; nofun)).symm
    exact .inr ⟨(e, o), h.concat htodo rfl hsame, hsame, fun hr => by cases ho.symm.trans hr⟩
  | renames content hphase ho =>
    obtain ⟨hnew, hfits⟩ := hordered.fresh i content (.inr hphase) (e, o) hhead
    have hfile : s.tmp.or s.file = applyEdit new s.file (e, o) := by
      rw [hordered.wrote i content hphase, applyEdit, ho]
      dsimp only
      rw [hnew]
    exact .inr ⟨(e, o), h.concat htodo rfl hfile, hfile, fun _ _ => hfits⟩
  | misses content hphase ho =>
    have hsame : s.file = applyEdit new s.file (e, o) := (hkept ho).symm
    exact .inr ⟨(e, o), h.concat htodo rfl hsame, hsame, fun hr => absurd hr ho⟩

/-- What holds of the file and the edits made, one after the other, holds in every state of a clean
    run: its edits have a serial order. -/
theorem always_serial {p : Option β → List (ε × Outcome β) → Prop}
    (hidle : ∀ i, (start.tasks i).phase = .idle) (hstart : p start.file [])
    (hp : ∀ file edits edit, p file edits →
      (edit.2 = .renamed → (new edit.1 file).isSome → fits edit.1 file) →
      p (applyEdit new file edit) (edits ++ [edit]))
    {schedule : List ι}
    (hclean : Runs.Throughout (fun s i => s.step new i) (Clean new fits) start schedule) :
    Runs.Always (fun s i => s.step new i)
      (fun s => ∃ order, SerialOrder new start s order ∧ p s.file (order.map Prod.snd))
      start schedule := by
  have hfirst : SerialOrder new start start [] := ⟨fun _ => rfl, rfl⟩
  have hinv : ∀ s i s', (Ordered new fits s ∧ ∃ order, SerialOrder new start s order ∧
      p s.file (order.map Prod.snd)) → Clean new fits s i → s.step new i = some s' →
      Ordered new fits s' ∧ ∃ order, SerialOrder new start s' order ∧
        p s'.file (order.map Prod.snd) := ?_
  · exact Runs.always_of_throughout hinv (fun s h => h.2) ⟨.of_idle hidle, [], hfirst, hstart⟩
      hclean
  rintro s i s' ⟨hordered, order, horder, hps⟩ hok hstep
  refine ⟨hordered.step hok hstep, ?_⟩
  rcases horder.step hordered hstep with ⟨horder', hfile⟩ | ⟨edit, horder', hfile, hfits⟩
  · exact ⟨order, horder', hfile ▸ hps⟩
  · refine ⟨order ++ [(i, edit)], horder', ?_⟩
    rw [hfile, List.map_append]
    exact hp s.file _ edit hps hfits

end Rewrites
