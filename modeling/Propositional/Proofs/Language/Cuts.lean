import Propositional.Proofs.Language.Layout

/-!
# Cuts at byte offsets

A cursor has the characters that are left of its text. Here the same looks are taken at a whole text from a byte offset
on, so what is left must be cut off each time, and a cut outside the text or inside a character is refused
(`Cut.before?`, `Cut.after?`). Where the text can be cut at the offset of the cursor, none of the cuts that the next
token needs is refused, and the same is found (`Cut.next?_eq`).
-/

namespace Propositional

/-! ## Bytes -/

/-- The bytes of a text in UTF-8. -/
def bytes (text : String) : List UInt8 := text.toByteArray.data.toList

theorem bytes_append (s t : String) : bytes (s ++ t) = bytes s ++ bytes t := by
  simp [bytes]

theorem length_bytes (s : String) : (bytes s).length = s.utf8ByteSize := by
  simp [bytes]

/-- A character begins with a byte of the ASCII alphabet only if it is that character. -/
theorem exists_bytes_cons (c : Char) (cs : List Char) : ∃ b bs, bytes (.ofList (c :: cs)) = b :: bs ∧
    (b.toNat < 128 ∨ c.toNat < 128 → b.toNat = c.toNat) := by
  have hor (b b' : UInt8) (hb' : 128 ≤ b'.toNat) : 128 ≤ (b ||| b').toNat := by
    rw [UInt8.toNat_or]
    exact Nat.le_trans hb' Nat.right_le_or
  have hcons : bytes (.ofList (c :: cs)) = String.utf8EncodeChar c ++ bytes (.ofList cs) := by
    simp [bytes, List.utf8Encode]
  rw [hcons]
  by_cases hc : c.toNat < 128
  · rw [String.utf8EncodeChar_eq_singleton (Char.utf8Size_eq_one_iff.mpr (Nat.le_of_lt_succ hc))]
    exact ⟨_, _, rfl, fun _ => Nat.mod_eq_of_lt (Nat.lt_trans hc (by decide))⟩
  · have hone : c.utf8Size ≠ 1 := fun h => hc (Nat.lt_succ_of_le (Char.utf8Size_eq_one_iff.mp h))
    suffices hfirst : ∃ b bs, String.utf8EncodeChar c = b :: bs ∧ 128 ≤ b.toNat by
      obtain ⟨b, bs, heq, hb⟩ := hfirst
      exact ⟨b, _, by rw [heq]; rfl, by omega⟩
    obtain h | h | h | h := c.utf8Size_eq
    · exact (hone h).elim
    · exact ⟨_, _, String.utf8EncodeChar_eq_cons_cons h, hor _ _ (by decide)⟩
    · exact ⟨_, _, String.utf8EncodeChar_eq_cons_cons_cons h, hor _ _ (by decide)⟩
    · exact ⟨_, _, String.utf8EncodeChar_eq_cons_cons_cons_cons h, hor _ _ (by decide)⟩

/-- Whether the byte is a small letter of the ASCII alphabet. -/
def isLowerByte (b : UInt8) : Bool := 'a'.toUInt8 ≤ b && b ≤ 'z'.toUInt8

/-- Whether the byte may stand behind a name. -/
def endsName (b : UInt8) : Bool := b = ' '.toUInt8 || b = ')'.toUInt8

theorem isLowerByte_eq {b : UInt8} {c : Char} (h : b.toNat < 128 ∨ c.toNat < 128 → b.toNat = c.toNat) :
    isLowerByte b = c.isLower := by
  have hb : isLowerByte b = true ↔ 97 ≤ b.toNat ∧ b.toNat ≤ 122 := by
    simp only [isLowerByte, Bool.and_eq_true, decide_eq_true_eq, UInt8.le_iff_toNat_le]
    exact .rfl
  have hc : c.isLower = true ↔ 97 ≤ c.toNat ∧ c.toNat ≤ 122 := isLower_iff c
  rw [Bool.eq_iff_iff, hb, hc]
  omega

theorem endsName_iff {b : UInt8} {c : Char} (h : b.toNat < 128 ∨ c.toNat < 128 → b.toNat = c.toNat) :
    endsName b = true ↔ c = ' ' ∨ c = ')' := by
  have hb : endsName b = true ↔ b.toNat = 32 ∨ b.toNat = 41 := by
    simp only [endsName, Bool.or_eq_true, decide_eq_true_eq, ← UInt8.toNat_inj]
    exact .rfl
  have hc : c = ' ' ∨ c = ')' ↔ c.toNat = 32 ∨ c.toNat = 41 := by
    simp only [← Char.toNat_inj]
    exact .rfl
  rw [hb, hc]
  omega

theorem isLowerByte_head? {cs : List Char} (h : ∀ c ∈ cs.head?, c.isLower = false) :
    ∀ b ∈ (bytes (.ofList cs)).head?, isLowerByte b = false := by
  intro b hb
  cases cs with
  | nil => simp [bytes] at hb
  | cons c cs =>
      obtain ⟨b', bs, hcons, hb'⟩ := exists_bytes_cons c cs
      rw [hcons] at hb
      cases hb
      rw [isLowerByte_eq hb', h c rfl]

theorem all_endsName_iff (cs : List Char) : (bytes (.ofList cs)).head?.all endsName = true ↔ Kind.EndsName cs := by
  cases cs with
  | nil => simp [bytes, Kind.EndsName]
  | cons c cs =>
      obtain ⟨b, bs, hcons, hb⟩ := exists_bytes_cons c cs
      rw [hcons, List.head?_cons, Option.all_some, endsName_iff hb]
      simp [Kind.EndsName]

/-- A text of one-byte characters has these as its bytes. -/
theorem bytes_of_utf8Size {cs : List Char} (h : ∀ c ∈ cs, c.utf8Size = 1) :
    bytes (.ofList cs) = cs.map Char.toUInt8 := by
  have hbytes : bytes (.ofList cs) = cs.flatMap String.utf8EncodeChar := by simp [bytes, List.utf8Encode]
  rw [hbytes, List.map_eq_flatMap]
  refine List.flatMap_congr fun c hc => String.utf8EncodeChar_eq_singleton (h c hc)

theorem toNat_toUInt8 {c : Char} (h : c.utf8Size = 1) : c.toUInt8.toNat = c.toNat ∧ c.toNat < 128 := by
  have hc : c.toNat ≤ 127 := Char.utf8Size_eq_one_iff.mp h
  exact ⟨Nat.mod_eq_of_lt (Nat.lt_of_le_of_lt hc (by decide)), Nat.lt_succ_of_le hc⟩

theorem isLowerByte_of_isLower {cs : List Char} (h : ∀ c ∈ cs, c.isLower) :
    ∀ b ∈ cs.map Char.toUInt8, isLowerByte b := by
  intro b hb
  obtain ⟨c, hc, rfl⟩ := List.mem_map.mp hb
  rw [isLowerByte_eq fun _ => (toNat_toUInt8 (utf8Size_of_isLower (h c hc))).1, h c hc]

/-! ## Cuts -/

namespace Cut

variable {text : String} {offset : Nat} {front rest : List Char}

/-- The text in front of a byte offset, unless that lies outside the text or inside a character. -/
def before? (text : String) (offset : Nat) : Option String :=
  if h : (⟨offset⟩ : String.Pos.Raw).IsValid text then some (text.sliceTo (text.pos _ h)).copy else none

/-- The text from a byte offset on, unless that lies outside the text or inside a character. -/
def after? (text : String) (offset : Nat) : Option String :=
  if h : (⟨offset⟩ : String.Pos.Raw).IsValid text then some (text.sliceFrom (text.pos _ h)).copy else none

theorem isValid_append (front rest : String) : (⟨front.utf8ByteSize⟩ : String.Pos.Raw).IsValid (front ++ rest) :=
  String.Pos.Raw.isValid_iff_exists_append.mpr ⟨front, rest, rfl, rfl⟩

theorem before?_append (front rest : String) : before? (front ++ rest) front.utf8ByteSize = some front := by
  rw [before?, dif_pos (isValid_append front rest), Option.some.injEq, String.copy_sliceTo_eq_iff_exists_splits]
  exact ⟨rest, rfl, rfl⟩

theorem after?_append (front rest : String) : after? (front ++ rest) front.utf8ByteSize = some rest := by
  rw [after?, dif_pos (isValid_append front rest), Option.some.injEq, String.copy_sliceFrom_eq_iff_exists_splits]
  exact ⟨front, rfl, rfl⟩

/-- A cut inside a character is refused. -/
example : after? "aé)" 2 = none := by decide +kernel

theorem exists_of_after? {rest : String} (h : after? text offset = some rest) :
    ∃ front : String, text = front ++ rest ∧ front.utf8ByteSize = offset := by
  unfold after? at h
  split at h
  case isFalse => cases h
  case isTrue hvalid =>
    rw [Option.some.injEq, String.copy_sliceFrom_eq_iff_exists_splits] at h
    obtain ⟨front, hsplits⟩ := h
    exact ⟨front, hsplits.eq_append, (congrArg String.Pos.Raw.byteIdx hsplits.offset_eq_rawEndPos).symm⟩

/-- What is left can be cut further. -/
theorem after?_of_append (h : after? text offset = some (.ofList (front ++ rest))) :
    after? text (offset + String.utf8Len front) = some (.ofList rest) := by
  obtain ⟨front', rfl, rfl⟩ := exists_of_after? h
  have hcut := after?_append (front' ++ .ofList front) (.ofList rest)
  rwa [String.append_assoc, ← String.ofList_append, String.utf8ByteSize_append, String.utf8ByteSize_ofList] at hcut

/-! ## The scan -/

/-- The offset behind the spaces. What is left of the text is cut off anew for each of them. -/
def skipSpaces? (text : String) (offset : Nat) : Option Nat :=
  match _h : after? text offset with
  | none => none
  | some rest => if rest.toList.head? = some ' ' then skipSpaces? text (offset + 1) else some offset
termination_by text.utf8ByteSize - offset
decreasing_by
  rename_i hspace
  obtain ⟨front, rfl, rfl⟩ := exists_of_after? _h
  have hrest : rest.utf8ByteSize ≠ 0 := by
    rw [Ne, String.utf8ByteSize_eq_zero_iff]
    rintro rfl
    cases hspace
  rw [String.utf8ByteSize_append]
  omega

/-- Finds the operator at the offset, provided that its keyword and a space follow. -/
def keyword? (text : String) (offset : Nat) (op : Operator) : Option Scanned := do
  let rest ← after? text offset
  if op.keyword.toList.isPrefixOf rest.toList then
    let behind ← after? rest op.keyword.utf8ByteSize
    if behind.toList.head? = some ' ' then return .token (.startingAt (.operator op) offset)
    else return .failed ⟨offset⟩
  else return .failed ⟨offset⟩

/-- Finds the name at the offset, unless it touches something else than a right parenthesis. -/
def name? (text : String) (offset : Nat) : Option Scanned := do
  let rest ← after? text offset
  let n := ((bytes rest).takeWhile isLowerByte).length
  if (bytes rest)[n]?.all endsName then
    let name ← before? rest n
    return .token (.startingAt (.var name) offset)
  else return .failed ⟨offset + n⟩

/-- Finds the token that begins at the offset. -/
def look? (text : String) (offset : Nat) : Option Scanned := do
  let rest ← after? text offset
  match rest.toList with
  | [] => return .finished
  | '(' :: _ => return .token (.startingAt .leftParen offset)
  | ')' :: _ => return .token (.startingAt .rightParen offset)
  | 'N' :: _ => keyword? text offset .not
  | 'A' :: _ => keyword? text offset (.binary .and)
  | 'O' :: _ => keyword? text offset (.binary .or)
  | '-' :: _ => keyword? text offset (.binary .implies)
  | x :: _ => if x.isLower then name? text offset else return .failed ⟨offset⟩

/-- Skips spaces and finds the next token, with the offset at which it ends; without a token the offset is that behind
the spaces. -/
def next? (text : String) (offset : Nat) : Option (Scanned × Nat) := do
  let offset ← skipSpaces? text offset
  match ← look? text offset with
  | .token t => return (.token t, t.span.stop)
  | found => return (found, offset)

/-! ## No cut is refused -/

section

variable {cs : List Char}

theorem skipSpaces?_of_after? {rest : String} (h : after? text offset = some rest) : skipSpaces? text offset =
    if rest.toList.head? = some ' ' then skipSpaces? text (offset + 1) else some offset := by
  rw [skipSpaces?]
  split
  case h_1 hnone => cases hnone.symm.trans h
  case h_2 hsome => cases hsome.symm.trans h; rfl

theorem skipSpaces?_of_spaces {n : Nat} (h : after? text offset = some (.ofList (List.replicate n ' ' ++ cs)))
    (hcs : cs.head? ≠ some ' ') :
    skipSpaces? text offset = some (offset + n) ∧ after? text (offset + n) = some (.ofList cs) := by
  induction n generalizing offset with
  | zero =>
      rw [List.replicate_zero, List.nil_append] at h
      rw [skipSpaces?_of_after? h, String.toList_ofList, if_neg hcs]
      exact ⟨rfl, h⟩
  | succ n ih =>
      rw [List.replicate_succ, List.cons_append] at h
      have hcut : after? text offset = some (.ofList ([' '] ++ (List.replicate n ' ' ++ cs))) := h
      have hspace : after? text (offset + 1) = some (.ofList (List.replicate n ' ' ++ cs)) := after?_of_append hcut
      rw [skipSpaces?_of_after? h, String.toList_ofList, List.head?_cons, if_pos rfl, Nat.add_comm n, ← Nat.add_assoc]
      exact ih hspace

variable (h : after? text offset = some (.ofList cs))
include h

theorem skipSpaces?_eq : skipSpaces? text offset = some (⟨offset, cs⟩ : Cursor).skipSpaces.offset ∧
    after? text (⟨offset, cs⟩ : Cursor).skipSpaces.offset = some (.ofList (⟨offset, cs⟩ : Cursor).skipSpaces.rest) := by
  obtain ⟨n, rest, rfl, hrest⟩ := Cursor.exists_spaces cs
  rw [Cursor.skipSpaces_spaces n hrest]
  exact skipSpaces?_of_spaces h hrest

theorem keyword?_eq (op : Operator) : keyword? text offset op = some ((⟨offset, cs⟩ : Cursor).keyword op) := by
  simp only [keyword?, h, Option.bind_eq_bind, Option.bind_some, String.toList_ofList, Option.pure_def, Cursor.keyword,
    List.isPrefixOf_iff_prefix]
  by_cases hkeyword : op.keyword.toList <+: cs
  · obtain ⟨behind, rfl⟩ := hkeyword
    have hspace : op.keyword.toList ++ [' '] <+: op.keyword.toList ++ behind ↔ behind.head? = some ' ' := by
      rw [List.prefix_append_right_inj]
      cases behind <;> simp [eq_comm]
    rw [if_pos (List.prefix_append _ _), String.ofList_append, String.ofList_toList, after?_append, Option.bind_some,
      String.toList_ofList]
    simp only [hspace]
    split <;> rfl
  · have hspace : ¬op.keyword.toList ++ [' '] <+: cs := fun hwhole =>
      hkeyword ((List.prefix_append _ _).trans hwhole)
    rw [if_neg hkeyword, if_neg hspace]

theorem name?_eq : name? text offset = some (⟨offset, cs⟩ : Cursor).name := by
  obtain ⟨run, rest, rfl, hrun, hrest⟩ := exists_run_append Char.isLower cs
  have hsize : ∀ c ∈ run, c.utf8Size = 1 := fun c hc => utf8Size_of_isLower (hrun c hc)
  have hbytes : bytes (.ofList (run ++ rest)) = run.map Char.toUInt8 ++ bytes (.ofList rest) := by
    rw [String.ofList_append, bytes_append, bytes_of_utf8Size hsize]
  have hget : (bytes (.ofList (run ++ rest)))[run.length]? = (bytes (.ofList rest)).head? := by
    rw [hbytes, List.getElem?_append_right (by simp), List.length_map, Nat.sub_self, List.head?_eq_getElem?]
  have hcut : before? (.ofList (run ++ rest)) run.length = some (.ofList run) := by
    have happend := before?_append (.ofList run) (.ofList rest)
    rwa [← String.ofList_append, String.utf8ByteSize_ofList, utf8Len_of_utf8Size hsize] at happend
  have hletters : ((bytes (.ofList (run ++ rest))).takeWhile isLowerByte).length = run.length := by
    rw [hbytes, takeWhile_run_append (isLowerByte_of_isLower hrun) (isLowerByte_head? hrest), List.length_map]
  simp only [name?, h, Option.bind_eq_bind, Option.bind_some, Option.pure_def, hletters, hget, hcut]
  by_cases hends : Kind.EndsName rest
  · rw [if_pos ((all_endsName_iff rest).mpr hends), Cursor.name_of_endsName hrun hrest hends]
  · rw [if_neg (mt (all_endsName_iff rest).mp hends), Cursor.name_of_not_endsName hrun hrest hends]

theorem look?_eq : look? text offset = some (⟨offset, cs⟩ : Cursor).look := by
  simp only [look?, h, Option.bind_eq_bind, Option.bind_some, Option.pure_def, String.toList_ofList]
  split
  case h_1 | h_2 | h_3 => rfl
  case h_4 | h_5 | h_6 | h_7 => exact keyword?_eq h _
  case h_8 =>
    simp only [Cursor.look]
    split
    case isTrue => exact name?_eq h
    case isFalse => rfl

end

/-- Where the text can be cut, the next token is found without an impossible cut. -/
theorem next?_eq {c : Cursor} (h : after? text c.offset = some (.ofList c.rest)) :
    next? text c.offset = some (c.next.1, c.next.2.offset) := by
  obtain ⟨hspaces, hcut⟩ : skipSpaces? text c.offset = some c.skipSpaces.offset ∧
    after? text c.skipSpaces.offset = some (.ofList c.skipSpaces.rest) := skipSpaces?_eq h
  simp only [next?, hspaces, look?_eq hcut, Option.bind_eq_bind, Option.bind_some, Cursor.next]
  generalize c.skipSpaces = d
  rw [Cursor.take]
  cases hlook : d.look with
  | finished | failed e => rfl
  | token t =>
      obtain ⟨k, _, _, hk, _, rfl⟩ := Cursor.exists_of_look hlook
      simp only [Cursor.advance, Token.startingAt, Token.text, Kind.utf8ByteSize_text hk, Option.pure_def]

end Cut

end Propositional
