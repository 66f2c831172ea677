import Mathlib.Tactic

/-
  Bytes as text, where what is no UTF-8 is replaced.

  Valid text is read as it is. Otherwise every character that can be decoded is kept, and each
  longest beginning of a character that is cut off or goes wrong becomes one U+FFFD.
-/

namespace LossyUtf8

def REPLACEMENT : Char := Char.ofNat 0xFFFD

def isContinuation (b : UInt8) : Bool := 0x80 ≤ b && b ≤ 0xBF

/-- Whether the second byte of a three- or four-byte character may follow the first. -/
def secondFits (first second : UInt8) : Bool :=
  if first = 0xE0 then 0xA0 ≤ second && second ≤ 0xBF
  else if first = 0xED then 0x80 ≤ second && second ≤ 0x9F
  else if first = 0xF0 then 0x90 ≤ second && second ≤ 0xBF
  else if first = 0xF4 then 0x80 ≤ second && second ≤ 0x8F
  else (0xE1 ≤ first && first ≤ 0xF3) && isContinuation second

/-- How many bytes one replacement stands for. -/
def brokenLen : List UInt8 → Nat
  | first :: second :: third :: _ =>
    if secondFits first second then
      if 0xF0 ≤ first && isContinuation third then 3 else 2
    else 1
  | [first, second] => if secondFits first second then 2 else 1
  | _ => 1

/-- At most `n` characters. -/
def lossyChars : Nat → List UInt8 → List Char
  | 0, _ => []
  | _, [] => []
  | n + 1, bytes =>
    match (ByteArray.mk bytes.toArray).utf8DecodeChar? 0 with
    | some c => c :: lossyChars n (bytes.drop c.utf8Size)
    | none => REPLACEMENT :: lossyChars n (bytes.drop (brokenLen bytes))

def fromUtf8Lossy (bytes : List UInt8) : String :=
  match String.fromUTF8? ⟨bytes.toArray⟩ with
  | some s => s
  | none => String.ofList (lossyChars bytes.length bytes)

/-- Text comes back from its own bytes. -/
theorem fromUtf8Lossy_toUTF8 (s : String) : fromUtf8Lossy s.toUTF8.data.toList = s := by
  have hvalid : String.fromUTF8? s.toByteArray = some s := dif_pos s.isValidUTF8
  have hbytes : (⟨s.toUTF8.data.toList.toArray⟩ : ByteArray) = s.toByteArray := rfl
  rw [fromUtf8Lossy, hbytes, hvalid]

example : fromUtf8Lossy [0x61, 0xE2, 0x82, 0x62, 0xFF, 0xC3, 0xA9] = "a\uFFFDb\uFFFDé" := by
  decide +kernel

/-! ## A text that is cut

What is left of the last character becomes one U+FFFD, so a cut text is the same text only where
the cut goes through a last character that is U+FFFD itself. -/

open String (utf8EncodeChar length_utf8EncodeChar)

/-- The characters of a text, one after the other. -/
def utf8Bytes (cs : List Char) : List UInt8 := cs.flatMap utf8EncodeChar

theorem utf8Bytes_cons (c : Char) (cs : List Char) :
    utf8Bytes (c :: cs) = utf8EncodeChar c ++ utf8Bytes cs := List.flatMap_cons

theorem utf8Bytes_append (cs cs' : List Char) :
    utf8Bytes (cs ++ cs') = utf8Bytes cs ++ utf8Bytes cs' := List.flatMap_append

theorem mk_toArray (l : List UInt8) : (⟨l.toArray⟩ : ByteArray) = l.toByteArray := by
  ext1
  exact List.data_toByteArray.symm

theorem toUTF8_ofList (cs : List Char) : (String.ofList cs).toUTF8.data.toList = utf8Bytes cs := by
  have hbytes : (String.ofList cs).toByteArray = (utf8Bytes cs).toByteArray :=
    String.toByteArray_ofList
  rw [String.toUTF8_eq_toByteArray, hbytes, List.data_toByteArray]

theorem length_le_utf8Bytes (cs : List Char) : cs.length ≤ (utf8Bytes cs).length := by
  induction cs with
  | nil => exact le_rfl
  | cons c cs ih =>
    have hpos := c.utf8Size_pos
    rw [utf8Bytes_cons, List.length_append, length_utf8EncodeChar, List.length_cons]
    omega

theorem length_utf8Bytes_le (cs : List Char) : (utf8Bytes cs).length ≤ 4 * cs.length := by
  induction cs with
  | nil => exact le_rfl
  | cons c cs ih =>
    have hfour := c.utf8Size_le_four
    rw [utf8Bytes_cons, List.length_append, length_utf8EncodeChar, List.length_cons]
    omega

theorem decode_utf8EncodeChar (c : Char) (rest : List UInt8) :
    (ByteArray.mk (utf8EncodeChar c ++ rest).toArray).utf8DecodeChar? 0 = some c := by
  rw [mk_toArray, List.toByteArray_append]
  exact ByteArray.utf8DecodeChar?_utf8EncodeChar_append

/-- No character is the beginning of another one. -/
theorem decode_take_utf8EncodeChar {c : Char} {k : Nat} (hk : k < c.utf8Size) :
    (ByteArray.mk ((utf8EncodeChar c).take k).toArray).utf8DecodeChar? 0 = none := by
  rw [Option.eq_none_iff_forall_ne_some]
  intro c' hc'
  rw [mk_toArray] at hc'
  have hsize := ByteArray.le_size_of_utf8DecodeChar?_eq_some hc'
  have hwhole : (ByteArray.mk (utf8EncodeChar c).toArray).utf8DecodeChar? 0 = some c' := by
    rw [mk_toArray, ← List.take_append_drop k (utf8EncodeChar c), List.toByteArray_append]
    exact ByteArray.utf8DecodeChar?_append_eq_some hc' _
  have hself := decode_utf8EncodeChar c []
  rw [List.append_nil, hwhole] at hself
  cases hself
  rw [List.size_toByteArray, List.length_take] at hsize
  omega

theorem lossyChars_utf8 (cs : List Char) (n : Nat) (rest : List UInt8) :
    lossyChars (cs.length + n) (utf8Bytes cs ++ rest) = cs ++ lossyChars n rest := by
  induction cs with
  | nil => rw [List.length_nil, Nat.zero_add]; rfl
  | cons c cs ih =>
    have hne : utf8EncodeChar c ++ (utf8Bytes cs ++ rest) ≠ [] := fun h => by
      have hlen := congrArg List.length h
      have hpos := c.utf8Size_pos
      rw [List.length_append, length_utf8EncodeChar, List.length_nil] at hlen
      omega
    rw [utf8Bytes_cons, List.append_assoc, List.length_cons, Nat.succ_add, lossyChars.eq_3 _ _ hne,
      decode_utf8EncodeChar]
    dsimp only
    rw [List.drop_left' (length_utf8EncodeChar c), ih, List.cons_append]

/-- Which second bytes fit, by the numbers. -/
theorem secondFits_ofNat {a b : Nat} (ha : a < 256) (hb : b < 256) :
    secondFits (UInt8.ofNat a) (UInt8.ofNat b) = true ↔
      if a = 0xE0 then 0xA0 ≤ b ∧ b ≤ 0xBF
      else if a = 0xED then 0x80 ≤ b ∧ b ≤ 0x9F
      else if a = 0xF0 then 0x90 ≤ b ∧ b ≤ 0xBF
      else if a = 0xF4 then 0x80 ≤ b ∧ b ≤ 0x8F
      else (0xE1 ≤ a ∧ a ≤ 0xF3) ∧ 0x80 ≤ b ∧ b ≤ 0xBF := by
  have hnat : ∀ n, n < 256 → (UInt8.ofNat n).toNat = n := fun n hn => UInt8.toNat_ofNat_of_lt' hn
  simp only [secondFits, isContinuation, ← UInt8.toNat_inj, hnat a ha, UInt8.reduceToNat]
  split_ifs <;> simp [UInt8.le_iff_toNat_le, Nat.mod_eq_of_lt ha, Nat.mod_eq_of_lt hb]

/-- What is left of a cut character is replaced as a whole. -/
theorem brokenLen_take {c : Char} {k : Nat} (hpos : 0 < k) (hk : k < c.utf8Size) :
    brokenLen ((utf8EncodeChar c).take k) = k := by
  have hvalid : c.val.toNat < 0xD800 ∨ 0xDFFF < c.val.toNat ∧ c.val.toNat < 0x110000 := c.valid
  rw [← length_utf8EncodeChar] at hk
  unfold utf8EncodeChar at hk ⊢
  dsimp only at hk ⊢
  generalize c.val.toNat = v at hvalid hk ⊢
  split_ifs at hk ⊢ with h₁ h₂ h₃
  · -- one byte: nothing to cut
    exact absurd hk (by simp only [List.length_singleton]; omega)
  · obtain rfl : k = 1 := by
      simp only [List.length_cons, List.length_nil] at hk
      omega
    rfl
  · have hfits := (secondFits_ofNat (a := v / 4096 % 16 + 0xE0) (b := v / 64 % 64 + 0x80)
      (by omega) (by omega)).mpr (by split_ifs <;> omega)
    obtain rfl | rfl : k = 1 ∨ k = 2 := by
      simp only [List.length_cons, List.length_nil] at hk
      omega
    · rfl
    · exact if_pos hfits
  · have hfits := (secondFits_ofNat (a := v / 262144 % 8 + 0xF0) (b := v / 4096 % 64 + 0x80)
      (by omega) (by omega)).mpr (by split_ifs <;> omega)
    obtain rfl | rfl | rfl : k = 1 ∨ k = 2 ∨ k = 3 := by
      simp only [List.length_cons, List.length_nil] at hk
      omega
    · rfl
    · exact if_pos hfits
    · have hthird : (0xF0 ≤ UInt8.ofNat (v / 262144 % 8 + 0xF0) &&
          isContinuation (UInt8.ofNat (v / 64 % 64 + 0x80))) = true := by
        simp [isContinuation, UInt8.le_iff_toNat_le]
        omega
      exact (if_pos hfits).trans (if_pos hthird)

theorem lossyChars_take {c : Char} {k n : Nat} (hpos : 0 < k) (hk : k < c.utf8Size) :
    lossyChars (n + 1) ((utf8EncodeChar c).take k) = [REPLACEMENT] := by
  have hlen : ((utf8EncodeChar c).take k).length = k := by
    rw [List.length_take, length_utf8EncodeChar]
    omega
  have hne : (utf8EncodeChar c).take k ≠ [] := List.ne_nil_of_length_pos (by omega)
  rw [lossyChars.eq_3 _ _ hne, decode_take_utf8EncodeChar hk]
  dsimp only
  rw [brokenLen_take hpos hk, List.drop_eq_nil_of_le hlen.le]
  cases n <;> rfl

theorem lossyChars_nil (n : Nat) : lossyChars n [] = [] := by cases n <;> rfl

/-- Valid text is no exception. -/
theorem fromUtf8Lossy_eq (bytes : List UInt8) :
    fromUtf8Lossy bytes = String.ofList (lossyChars bytes.length bytes) := by
  unfold fromUtf8Lossy
  cases hs : String.fromUTF8? ⟨bytes.toArray⟩ with
  | none => rfl
  | some s =>
    obtain ⟨hvalid, hs⟩ := Option.dite_none_right_eq_some.mp hs
    have hbytes : bytes = utf8Bytes s.toList := by
      have hs' := congrArg (fun t : String => t.toUTF8.data.toList) (Option.some.inj hs)
      rw [← String.ofList_toList (s := s)] at hs'
      exact hs'.trans (toUTF8_ofList _)
    have hlen := length_le_utf8Bytes s.toList
    have hchars := lossyChars_utf8 s.toList ((utf8Bytes s.toList).length - s.toList.length) []
    rw [List.append_nil, Nat.add_sub_cancel' hlen, lossyChars_nil, List.append_nil] at hchars
    show s = _
    rw [hbytes, hchars, String.ofList_toList]

/-- Which character a cut goes through, and where. -/
theorem exists_cut {cs : List Char} {n : Nat} (h : n < (utf8Bytes cs).length) :
    ∃ front c back k, cs = front ++ c :: back ∧ n = (utf8Bytes front).length + k ∧
      k < c.utf8Size := by
  induction cs generalizing n with
  | nil => exact absurd h (Nat.not_lt_zero n)
  | cons c cs ih =>
    have hlen (cs : List Char) : (utf8Bytes (c :: cs)).length =
        c.utf8Size + (utf8Bytes cs).length := by
      rw [utf8Bytes_cons, List.length_append, length_utf8EncodeChar]
    rw [hlen] at h
    by_cases hfirst : n < c.utf8Size
    · exact ⟨[], c, cs, n, rfl, (Nat.zero_add n).symm, hfirst⟩
    · obtain ⟨front, c', back, k, rfl, hn, hk⟩ := ih (n := n - c.utf8Size) (by omega)
      exact ⟨c :: front, c', back, k, rfl, by rw [hlen]; omega, hk⟩

theorem fromUtf8Lossy_cut (front : List Char) {c : Char} {k : Nat} (hk : k < c.utf8Size) :
    fromUtf8Lossy (utf8Bytes front ++ (utf8EncodeChar c).take k) =
      String.ofList (front ++ if k = 0 then [] else [REPLACEMENT]) := by
  have hlen : (utf8Bytes front ++ (utf8EncodeChar c).take k).length =
      (utf8Bytes front).length + k := by
    rw [List.length_append, List.length_take, length_utf8EncodeChar]
    omega
  have hfront := length_le_utf8Bytes front
  have hfuel : (utf8Bytes front).length + k =
      front.length + ((utf8Bytes front).length - front.length + k) := by omega
  rw [fromUtf8Lossy_eq, hlen, hfuel, lossyChars_utf8]
  split_ifs with h0
  · rw [h0, List.take_zero, lossyChars_nil]
  · obtain ⟨k', rfl⟩ := Nat.exists_eq_succ_of_ne_zero h0
    rw [Nat.add_succ, lossyChars_take (Nat.succ_pos k') hk]

theorem fromUtf8Lossy_take_iff {cs : List Char} {n : Nat} (h : n < (utf8Bytes cs).length) :
    fromUtf8Lossy ((utf8Bytes cs).take n) = String.ofList cs ↔
      ∃ front, cs = front ++ [REPLACEMENT] ∧ (utf8Bytes front).length < n := by
  obtain ⟨front, c, back, k, rfl, rfl, hk⟩ := exists_cut h
  have htake : (utf8Bytes (front ++ c :: back)).take ((utf8Bytes front).length + k) =
      utf8Bytes front ++ (utf8EncodeChar c).take k := by
    rw [utf8Bytes_append, utf8Bytes_cons, List.take_length_add_append,
      List.take_append_of_le_length (by rw [length_utf8EncodeChar]; exact hk.le)]
  rw [htake, fromUtf8Lossy_cut front hk, String.ofList_inj, List.append_cancel_left_eq]
  constructor
  · intro hsame
    split_ifs at hsame with h0
    cases hsame
    exact ⟨front, rfl, by omega⟩
  · rintro ⟨front', hcs, hlt⟩
    rcases List.eq_nil_or_concat' back with rfl | ⟨back', c', rfl⟩
    · obtain ⟨rfl, hc⟩ := List.append_inj' hcs rfl
      rw [if_neg (by omega), hc]
    · -- the last character starts behind the cut
      rw [← List.cons_append, ← List.append_assoc] at hcs
      obtain ⟨rfl, -⟩ := List.append_inj' hcs rfl
      rw [utf8Bytes_append, utf8Bytes_cons, List.length_append, List.length_append,
        length_utf8EncodeChar] at hlt
      omega

end LossyUtf8
