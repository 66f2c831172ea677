import PadMule.Kad.Message
import Mathlib

/-
  `mule-kad/src/message.rs`: the words a file is published under, and the words it is searched by.

  A word is lowercased after its length was measured, so a published word may be shorter than any
  token of a query that is kept; such a word is published and cannot be searched. A query that is
  made of published words is aimed at the first of those that are long enough, and every file that
  is published under its words passes its filter (`search_agrees`).
-/

namespace PadMule.Kad

/-- The word a search is aimed at. -/
def kadPrimaryKeyword (toLowercase : String → String) (phrase : String) : Option String :=
  (kadKeywords toLowercase phrase).head?

/-- The characters of a word are none of those between words. -/
def Unseparated (s : String) : Prop := ∀ c ∈ s.toList, c ∉ INV_KAD_KEYWORD_CHARS

/-- What is asked of `to_lowercase`: twice is as good as once, and it makes no separator. -/
structure Lowercases (toLowercase : String → String) : Prop where
  idem : ∀ s, toLowercase (toLowercase s) = toLowercase s
  unseparated : ∀ s, Unseparated s → Unseparated (toLowercase s)

/-- Character by character, where one may become several. -/
theorem lowercases_of_chars {lower : Char → List Char}
    (hidem : ∀ c, (lower c).flatMap lower = lower c)
    (hunseparated : ∀ c ∉ INV_KAD_KEYWORD_CHARS, ∀ d ∈ lower c, d ∉ INV_KAD_KEYWORD_CHARS) :
    Lowercases fun s => String.ofList (s.toList.flatMap lower) where
  idem s := by
    rw [String.toList_ofList, List.flatMap_assoc]
    exact congrArg String.ofList (List.flatMap_congr fun c _ => hidem c)
  unseparated s h d hd := by
    rw [String.toList_ofList] at hd
    obtain ⟨c, hc, hd⟩ := List.mem_flatMap.mp hd
    exact hunseparated c (h c hc) d hd

/-- A token that is kept. -/
def LongEnough (s : String) : Prop := MIN_KEYWORD_BYTES ≤ s.utf8ByteSize

instance (s : String) : Decidable (LongEnough s) := inferInstanceAs (Decidable (_ ≤ _))

/-! ## Tokens -/

theorem not_mem_of_mem_splitOnP {α : Type*} {p : α → Bool} {l t : List α} (h : t ∈ l.splitOnP p) :
    ∀ x ∈ t, p x = false := by
  induction l generalizing t with
  | nil =>
    rw [List.splitOnP_nil, List.mem_singleton] at h
    simp [h]
  | cons a l ih =>
    rw [List.splitOnP_cons_eq_if_modifyHead] at h
    split_ifs at h with ha
    · rcases List.mem_cons.mp h with rfl | h
      · exact fun x hx => absurd hx List.not_mem_nil
      · exact ih h
    · obtain ⟨first, rest, hsplit⟩ := List.exists_cons_of_ne_nil (List.splitOnP_ne_nil p l)
      rw [hsplit, List.modifyHead_cons] at h
      rw [hsplit] at ih
      rcases List.mem_cons.mp h with rfl | h
      · intro x hx
        rcases List.mem_cons.mp hx with rfl | hx
        · simpa using ha
        · exact ih (List.mem_cons_self ..) x hx
      · exact ih (List.mem_cons_of_mem _ h)

def tokens (phrase : String) : List String :=
  (phrase.toList.splitOnP (· ∈ INV_KAD_KEYWORD_CHARS)).map String.ofList

theorem unseparated_of_mem_tokens {phrase tok : String} (h : tok ∈ tokens phrase) :
    Unseparated tok := by
  obtain ⟨cs, hcs, rfl⟩ := List.mem_map.mp h
  rw [Unseparated, String.toList_ofList]
  exact fun c hc => by simpa using not_mem_of_mem_splitOnP hcs c hc

/-- Words that are joined by single spaces are the tokens again. -/
theorem tokens_intercalate {ws : List String} (hne : ws ≠ []) (h : ∀ w ∈ ws, Unseparated w) :
    tokens (" ".intercalate ws) = ws := by
  induction ws with
  | nil => exact absurd rfl hne
  | cons w ws ih =>
    obtain ⟨hw, hws⟩ := List.forall_mem_cons.mp h
    have hplain : ∀ c ∈ w.toList, decide (c ∈ INV_KAD_KEYWORD_CHARS) = false := fun c hc =>
      decide_eq_false (hw c hc)
    by_cases hlast : ws = []
    · subst hlast
      rw [String.intercalate_singleton, tokens, List.splitOnP_eq_singleton hplain,
        List.map_singleton, String.ofList_toList]
    · have hspace : decide (' ' ∈ INV_KAD_KEYWORD_CHARS) = true := by decide
      have htext : (" ".intercalate (w :: ws)).toList =
          w.toList ++ ' ' :: (" ".intercalate ws).toList := by
        rw [String.intercalate_cons_of_ne_nil hlast, String.toList_append, String.toList_append,
          List.append_assoc]
        rfl
      rw [tokens, htext, List.splitOnP_append_cons_of_forall_mem hplain ' ' hspace, List.map_cons,
        String.ofList_toList]
      exact congrArg (w :: ·) (ih hlast hws)

/-! ## The words of a name -/

section Words

variable {toLowercase : String → String}

theorem kadKeywords_subset {phrase w : String} (h : w ∈ kadKeywords toLowercase phrase) :
    w ∈ (tokens phrase).foldl (keepWord toLowercase) [] := by
  unfold kadKeywords at h
  dsimp only at h
  split_ifs at h
  · exact List.mem_of_mem_dropLast h
  · exact h

/-- Each word is kept once. -/
theorem nodup_keepWord {words : List String} (h : words.Nodup) (tok : String) :
    (keepWord toLowercase words tok).Nodup := by
  unfold keepWord
  split_ifs
  · exact h
  · refine List.nodup_append'.mpr ⟨h.filter _, List.nodup_singleton _, ?_⟩
    intro w hw hw'
    obtain rfl := List.mem_singleton.mp hw'
    simpa using (List.mem_filter.mp hw).2

theorem nodup_kadKeywords (phrase : String) : (kadKeywords toLowercase phrase).Nodup := by
  have hwords (toks : List String) : (toks.foldl (keepWord toLowercase) []).Nodup := by
    induction toks using List.reverseRecOn with
    | nil => exact List.nodup_nil
    | append_singleton toks tok ih =>
      rw [List.foldl_append]
      exact nodup_keepWord ih tok
  unfold kadKeywords
  dsimp only
  split_ifs
  · exact (hwords _).sublist (List.dropLast_sublist _)
  · exact hwords _

/-- A word is a lowercased token. -/
theorem mem_foldl_keepWord {toks : List String} {w : String}
    (h : w ∈ toks.foldl (keepWord toLowercase) []) : ∃ tok ∈ toks, w = toLowercase tok := by
  induction toks using List.reverseRecOn with
  | nil => exact absurd h List.not_mem_nil
  | append_singleton toks tok ih =>
    rw [List.foldl_append] at h
    have hold (h : w ∈ toks.foldl (keepWord toLowercase) []) :
        ∃ tok' ∈ toks ++ [tok], w = toLowercase tok' := by
      obtain ⟨tok', hmem, heq⟩ := ih h
      exact ⟨tok', List.mem_append_left _ hmem, heq⟩
    rw [List.foldl_cons, List.foldl_nil, keepWord] at h
    split_ifs at h
    · exact hold h
    · rcases List.mem_append.mp h with h | h
      · exact hold (List.mem_filter.mp h).1
      · exact ⟨tok, List.mem_append_right _ (List.mem_singleton_self _), List.mem_singleton.mp h⟩

/-- A word of a name is in lower case and is one token. -/
theorem keyword_spec (hlower : Lowercases toLowercase) {phrase w : String}
    (h : w ∈ kadKeywords toLowercase phrase) : toLowercase w = w ∧ Unseparated w := by
  obtain ⟨tok, htok, rfl⟩ := mem_foldl_keepWord (kadKeywords_subset h)
  exact ⟨hlower.idem tok, hlower.unseparated tok (unseparated_of_mem_tokens htok)⟩

/-! ## The words of a query -/

/-- Distinct words in lower case are kept as they are, but for the short ones. -/
theorem foldl_keepWord_eq {ws : List String} (hnodup : ws.Nodup)
    (hlower : ∀ w ∈ ws, toLowercase w = w) :
    ws.foldl (keepWord toLowercase) [] = ws.filter fun w => LongEnough w := by
  induction ws using List.reverseRecOn with
  | nil => rfl
  | append_singleton ws w ih =>
    obtain ⟨hws, -, hapart⟩ := List.nodup_append'.mp hnodup
    have hnew : w ∉ ws := fun hmem => hapart hmem (List.mem_singleton_self w)
    have hw := hlower w (List.mem_append_right _ (List.mem_singleton_self _))
    rw [List.foldl_append, ih hws fun v hv => hlower v (List.mem_append_left _ hv), List.foldl_cons,
      List.foldl_nil, keepWord, hw, List.filter_append]
    by_cases hlong : LongEnough w
    · have hother : ∀ v ∈ ws.filter fun w => LongEnough w, decide (v ≠ w) = true := fun v hv =>
        decide_eq_true fun heq => hnew (heq ▸ (List.mem_filter.mp hv).1)
      rw [if_neg (not_lt.mpr hlong)]
      dsimp only
      rw [List.filter_eq_self.mpr hother]
      simp [hlong]
    · rw [if_pos (not_le.mp hlong)]
      simp [hlong]

/-- The words of a query of published words: those that are long enough, perhaps without the last
    where there are several. -/
theorem kadKeywords_query {ws : List String} (hne : ws ≠ []) (hnodup : ws.Nodup)
    (hws : ∀ w ∈ ws, toLowercase w = w ∧ Unseparated w) :
    kadKeywords toLowercase (" ".intercalate ws) = ws.filter (fun w => LongEnough w) ∨
      1 < (ws.filter fun w => LongEnough w).length ∧
        kadKeywords toLowercase (" ".intercalate ws) =
          (ws.filter fun w => LongEnough w).dropLast := by
  have hwords : (tokens (" ".intercalate ws)).foldl (keepWord toLowercase) [] =
      ws.filter fun w => LongEnough w := by
    rw [tokens_intercalate hne fun w hw => (hws w hw).2]
    exact foldl_keepWord_eq hnodup fun w hw => (hws w hw).1
  unfold tokens at hwords
  unfold kadKeywords
  dsimp only
  rw [hwords]
  split_ifs with hdrop
  · exact .inr ⟨hdrop.1, rfl⟩
  · exact .inl rfl

/-- The search is aimed at the first word that is long enough. -/
theorem kadPrimaryKeyword_query {ws : List String} (hne : ws ≠ []) (hnodup : ws.Nodup)
    (hws : ∀ w ∈ ws, toLowercase w = w ∧ Unseparated w) :
    kadPrimaryKeyword toLowercase (" ".intercalate ws) = ws.find? fun w => LongEnough w := by
  rw [← List.head?_filter, kadPrimaryKeyword]
  rcases kadKeywords_query hne hnodup hws with heq | ⟨hmany, heq⟩
  · rw [heq]
  · rw [heq, List.head?_dropLast, if_pos hmany]

theorem kadKeywords_word {w : String} (hw : toLowercase w = w ∧ Unseparated w) :
    kadKeywords toLowercase w = [w] ↔ LongEnough w := by
  have hquery := kadKeywords_query (List.cons_ne_nil w []) (List.nodup_singleton w)
    (List.forall_mem_singleton.mpr hw)
  rw [String.intercalate_singleton] at hquery
  by_cases hlong : LongEnough w
  · have hkept : ([w].filter fun w => LongEnough w) = [w] := by simp [hlong]
    rw [hkept] at hquery
    rcases hquery with heq | ⟨hmany, -⟩
    · exact iff_of_true heq hlong
    · exact absurd hmany (lt_irrefl 1)
  · have hkept : ([w].filter fun w => LongEnough w) = [] := by simp [hlong]
    rw [hkept] at hquery
    rcases hquery with heq | ⟨hmany, -⟩
    · exact iff_of_false (heq ▸ (List.cons_ne_nil w []).symm) hlong
    · exact absurd hmany (Nat.not_lt_zero 1)

/-- A query of words that the file is published under, in any order: the file passes its filter,
    and it is aimed at one of them unless they are all too short to be searched. -/
theorem search_agrees (hlower : Lowercases toLowercase) (filename : String) (ws : List String)
    (hne : ws ≠ []) (hnodup : ws.Nodup) (hws : ∀ w ∈ ws, w ∈ kadKeywords toLowercase filename) :
    kadFilenameMatches toLowercase filename (" ".intercalate ws) = true ∧
      kadPrimaryKeyword toLowercase (" ".intercalate ws) = (ws.find? fun w => LongEnough w) ∧
      ((∃ w ∈ ws, LongEnough w) → ∃ w ∈ kadKeywords toLowercase filename,
        kadPrimaryKeyword toLowercase (" ".intercalate ws) = some w) ∧
      ∀ w ∈ kadKeywords toLowercase filename, kadKeywords toLowercase w = [w] ↔ LongEnough w := by
  have hspec : ∀ w ∈ ws, toLowercase w = w ∧ Unseparated w := fun w hw =>
    keyword_spec hlower (hws w hw)
  have hprimary := kadPrimaryKeyword_query hne hnodup hspec
  refine ⟨List.all_eq_true.mpr fun w hw => decide_eq_true ?_, hprimary, ?_, fun w hw =>
    kadKeywords_word (keyword_spec hlower hw)⟩
  · refine hws w ?_
    rcases kadKeywords_query hne hnodup hspec with heq | ⟨-, heq⟩
    · exact (List.mem_filter.mp (heq ▸ hw)).1
    · exact (List.mem_filter.mp (List.mem_of_mem_dropLast (heq ▸ hw))).1
  · rintro ⟨w, hw, hlong⟩
    obtain ⟨first, hfirst⟩ := Option.isSome_iff_exists.mp
      (List.find?_isSome (p := fun w => decide (LongEnough w)).mpr ⟨w, hw, decide_eq_true hlong⟩)
    exact ⟨first, hws first (List.mem_of_find?_eq_some hfirst), hprimary.trans hfirst⟩

end Words

/-! ## A word that is published and not found -/

/-- `to_lowercase` of the ASCII letters and of the Kelvin sign, which becomes a `k`. -/
def lowerChar (c : Char) : Char := if c = '\u212A' then 'k' else c.toLower

def lowerPlain (s : String) : String := String.ofList (s.toList.flatMap fun c => [lowerChar c])

/-- A character stays as it is or becomes a small letter. -/
theorem lowerChar_cases (c : Char) : lowerChar c = c ∨ (lowerChar c).isLower = true := by
  unfold lowerChar
  split_ifs with hkelvin
  · exact .inr (by decide)
  · by_cases hupper : c.isUpper = true
    · refine .inr ?_
      rw [Char.isLower_toLower_eq_isAlpha, Char.isAlpha, hupper, Bool.true_or]
    · exact .inl (Char.toLower_eq_of_not_isUpper hupper)

theorem lowerChar_idem (c : Char) : lowerChar (lowerChar c) = lowerChar c := by
  rcases lowerChar_cases c with heq | hlower
  · rw [heq, heq]
  · have hkelvin : lowerChar c ≠ '\u212A' := fun heq => absurd (heq ▸ hlower) (by decide)
    have hupper : ¬ (lowerChar c).isUpper = true := fun h => Char.not_isLower_of_isUpper h hlower
    rw [lowerChar, if_neg hkelvin, Char.toLower_eq_of_not_isUpper hupper]

theorem lowercases_lowerPlain : Lowercases lowerPlain := by
  refine lowercases_of_chars (fun c => ?_) fun c hc d hd => ?_
  · rw [List.flatMap_singleton, lowerChar_idem]
  · obtain rfl := List.mem_singleton.mp hd
    have hseparators : INV_KAD_KEYWORD_CHARS.all (fun c => !c.isLower) = true := by decide +kernel
    rcases lowerChar_cases c with heq | hlower
    · rwa [heq]
    · exact fun hmem => by simpa [hlower] using List.all_eq_true.mp hseparators _ hmem

/-- Two words of the name, in the other order. -/
theorem search_agrees_reversed :
    kadFilenameMatches lowerPlain "Yes Prime Minister.avi" "minister yes" = true ∧
      kadPrimaryKeyword lowerPlain "minister yes" = some "minister" := by
  have h := search_agrees lowercases_lowerPlain "Yes Prime Minister.avi" ["minister", "yes"]
    (by decide) (by decide) (by decide)
  exact ⟨h.1, h.2.1⟩

/-- The Kelvin sign has three bytes, the `k` under which it is published one. -/
theorem kelvin_not_found :
    ¬ ∀ (toLowercase : String → String) (filename : String) (ws : List String),
      Lowercases toLowercase → ws ≠ [] → ws.Nodup →
      (∀ w ∈ ws, w ∈ kadKeywords toLowercase filename) →
        (∃ w ∈ kadKeywords toLowercase filename,
          kadPrimaryKeyword toLowercase (" ".intercalate ws) = some w) ∧
          kadFilenameMatches toLowercase filename (" ".intercalate ws) = true := by
  intro h
  obtain ⟨⟨w, -, hw⟩, -⟩ := h lowerPlain "\u212A" ["k"] lowercases_lowerPlain (by decide)
    (by decide) (by decide)
  have hnone : kadPrimaryKeyword lowerPlain (" ".intercalate ["k"]) = none := by decide
  exact absurd (hnone.symm.trans hw) (by simp)

end PadMule.Kad
