import Propositional.Proofs.Language.Calls
import Propositional.Proofs.Language.Passages

/-!
# Errors of a scan

A scan stops where the rest of the text is blocked (`Blocked`): no token begins there, or a name does that touches what
follows it. The offset of the error is where the blocking character stands, so the text in front of it is scanned
without an error, and in the second case the name is then a token (`Token.scan_failure`).
-/

namespace Propositional

/-- No token can be found at the beginning of the text, because of the character behind so many others. -/
inductive Blocked : List Char → Nat → Prop where
  | vacant {x : Char} {cs : List Char} : x ≠ ' ' → x.isLower = false → x ≠ '(' → x ≠ ')' →
      (∀ op : Operator, ¬op.keyword.toList ++ [' '] <+: x :: cs) → Blocked (x :: cs) 0
  | glued {name : String} {x : Char} {cs : List Char} : IsName name → x.isLower = false → x ≠ ' ' → x ≠ ')' →
      Blocked (name.toList ++ x :: cs) name.length

theorem Blocked.head?_ne {cs : List Char} {n : Nat} (h : Blocked cs n) : cs.head? ≠ some ' ' := by
  cases h with
  | vacant hspace _ _ _ _ => simpa using hspace
  | glued hname _ _ _ =>
      obtain ⟨c, tail, htail, hc⟩ := hname.exists_cons
      rw [htail, List.cons_append, List.head?_cons]
      rintro ⟨⟩
      cases hc

namespace Cursor

variable {offset n : Nat} {rest cs : List Char} {x : Char} {e : LexicalError} {c : Cursor} {ts : List Token}

/-! ## One look -/

theorem eq_of_look_failed (hx : x.isLower = false) (h : (⟨offset, x :: cs⟩ : Cursor).look = .failed e) :
    e = ⟨offset⟩ := by
  simp only [look, keyword] at h
  split at h
  case h_1 | h_2 | h_3 => cases h
  case h_4 | h_5 | h_6 | h_7 =>
    split at h
    case isTrue => cases h
    case isFalse => cases h; rfl
  case h_8 hrest =>
    cases hrest
    rw [if_neg (by simp [hx])] at h
    cases h
    rfl

theorem name_of_glued {name : String} (hname : IsName name) (hx : x.isLower = false) (hspace : x ≠ ' ')
    (hparen : x ≠ ')') :
    (⟨offset, name.toList ++ x :: cs⟩ : Cursor).name = .failed ⟨offset + name.length⟩ := by
  have hhead : ∀ c ∈ (x :: cs).head?, c.isLower = false := by simpa using hx
  have hends : ¬Kind.EndsName (x :: cs) := by simp [Kind.EndsName, hspace, hparen]
  rw [name_of_not_endsName hname.isLower hhead hends, String.length_toList]

theorem blocked_of_name (hx : x.isLower) (h : (⟨offset, x :: cs⟩ : Cursor).name = .failed e) :
    ∃ n, Blocked (x :: cs) n ∧ e = ⟨offset + n⟩ := by
  have hname := isName_takeWhile hx cs
  obtain ⟨run, rest, hrest, hrun, hhead⟩ := exists_run_append Char.isLower (x :: cs)
  rw [hrest, takeWhile_run_append hrun hhead] at hname
  by_cases hends : Kind.EndsName rest
  · rw [hrest, name_of_endsName hrun hhead hends] at h
    cases h
  · rw [hrest, name_of_not_endsName hrun hhead hends] at h
    cases h
    cases rest with
    | nil => exact (hends (.inl rfl)).elim
    | cons y after =>
        refine ⟨run.length, ?_, rfl⟩
        have hblocked : Blocked ((String.ofList run).toList ++ y :: after) (String.ofList run).length :=
          .glued hname (hhead y rfl) (fun hy => hends (hy ▸ .inr (.inl rfl))) (fun hy => hends (hy ▸ .inr (.inr rfl)))
        rwa [String.toList_ofList, String.length_ofList, ← hrest] at hblocked

theorem blocked_of_look (hspace : rest.head? ≠ some ' ') (h : (⟨offset, rest⟩ : Cursor).look = .failed e) :
    ∃ n, Blocked rest n ∧ e = ⟨offset + n⟩ := by
  cases rest with
  | nil => cases h
  | cons x cs =>
      cases hx : x.isLower with
      | true =>
          rw [look_of_isLower hx] at h
          exact blocked_of_name hx h
      | false =>
          -- A parenthesis, or a keyword with its space, would have been found.
          have hnone {k : Kind} {cs' : List Char} (hk : k.Proper) (hfollow : k.MayPrecede cs') :
              x :: cs ≠ k.text.toList ++ cs' := by
            intro hcs
            rw [hcs, look_of_spelled hk hfollow] at h
            cases h
          refine ⟨0, .vacant (by simpa using hspace) hx ?_ ?_ ?_, eq_of_look_failed hx h⟩
          · rintro rfl
            exact hnone (k := .leftParen) trivial trivial rfl
          · rintro rfl
            exact hnone (k := .rightParen) trivial trivial rfl
          · rintro op ⟨after, hafter⟩
            rw [List.append_assoc] at hafter
            have hfollow : (Kind.operator op).MayPrecede (' ' :: after) := rfl
            exact hnone (k := .operator op) trivial hfollow hafter.symm

theorem look_of_blocked (h : Blocked rest n) : (⟨offset, rest⟩ : Cursor).look = .failed ⟨offset + n⟩ := by
  cases h with
  | @glued name x cs hname hx hspace hparen =>
      have hfails : (⟨offset, name.toList ++ x :: cs⟩ : Cursor).name = .failed ⟨offset + name.length⟩ :=
        name_of_glued hname hx hspace hparen
      obtain ⟨c, tail, htail, hc⟩ := hname.exists_cons
      rw [htail, List.cons_append] at hfails ⊢
      rw [look_of_isLower hc, hfails]
  | @vacant x cs hspace hx hleft hright hkeyword =>
      cases hlook : (⟨offset, x :: cs⟩ : Cursor).look with
      | finished => cases eq_nil_of_look hlook
      | failed e => rw [eq_of_look_failed hx hlook, Nat.add_zero]
      | token t =>
          obtain ⟨k, rest, hrest, hk, hfollow, _⟩ := exists_of_look hlook
          cases k with
          | leftParen => cases hrest; exact (hleft rfl).elim
          | rightParen => cases hrest; exact (hright rfl).elim
          | operator op =>
              obtain ⟨after, rfl⟩ := List.head?_eq_some_iff.mp hfollow
              exact (hkeyword op ⟨after, by rw [hrest]; simp [Kind.text]⟩).elim
          | var name =>
              obtain ⟨c, tail, htail, hc⟩ := hk.exists_cons
              rw [Kind.text, htail] at hrest
              cases hrest
              rw [hx] at hc
              cases hc

/-! ## All tokens -/

theorem scan_of_blocked (h : Blocked rest n) : (⟨offset, rest⟩ : Cursor).scan = ⟨[], some ⟨offset + n⟩⟩ := by
  have hskip : (⟨offset, rest⟩ : Cursor).skipSpaces = ⟨offset, rest⟩ := skipSpaces_spaces 0 h.head?_ne
  have hnext : (⟨offset, rest⟩ : Cursor).next = (.failed ⟨offset + n⟩, ⟨offset, rest⟩) := by
    rw [next, hskip, take, look_of_blocked h]
  rw [scan_eq, hnext]

theorem blocked_of_next {c' : Cursor} (h : c.next = (.failed e, c')) :
    ∃ offset rest n, Passes c [] ⟨offset, rest⟩ ∧ Blocked rest n ∧ e = ⟨offset + n⟩ := by
  obtain ⟨offset, cs⟩ := c
  obtain ⟨m, rest, rfl, hhead⟩ := exists_spaces cs
  rw [next, skipSpaces_spaces m hhead, take] at h
  split at h
  case h_1 => cases h
  case h_2 hlook =>
    simp only [Prod.mk.injEq] at h
    obtain ⟨n, hblocked, he⟩ := blocked_of_look hhead h.1
    exact ⟨offset + m, rest, n, passes_spaces m, hblocked, he⟩

/-- A scan ends with an error exactly if it comes to a place where the rest is blocked. -/
theorem scan_eq_failure_iff : c.scan = ⟨ts, some e⟩ ↔
    ∃ offset rest n, Passes c ts ⟨offset, rest⟩ ∧ Blocked rest n ∧ e = ⟨offset + n⟩ := by
  constructor
  · intro h
    induction c using scan.induct generalizing ts with
    | case1 c t c' hnext ih =>
        rw [scan_of_next hnext, Scan.cons, Scan.mk.injEq] at h
        obtain ⟨rfl, hf⟩ := h
        have hrest : c'.scan = ⟨c'.scan.tokens, some e⟩ := by rw [← hf]
        obtain ⟨offset, rest, n, hpasses, hblocked, he⟩ := ih hrest
        exact ⟨offset, rest, n, (passes_of_next hnext).trans hpasses, hblocked, he⟩
    | case2 c c' hnext =>
        rw [scan_eq, hnext] at h
        cases h
    | case3 c e' c' hnext =>
        rw [scan_eq, hnext] at h
        cases h
        exact blocked_of_next hnext
  · rintro ⟨offset, rest, n, hpasses, hblocked, rfl⟩
    rw [hpasses.scan, scan_of_blocked hblocked, Scan.after, List.append_nil]

end Cursor

theorem Scan.result_eq_error_iff {s : Scan} {e : LexicalError} : s.result = .error e ↔ ∃ ts, s = ⟨ts, some e⟩ := by
  obtain ⟨tokens, failure⟩ := s
  cases failure <;> simp [result]

theorem Token.scan_eq_error_iff {text : String} {e : LexicalError} :
    (scan text).result = .error e ↔ ∃ ts, (Cursor.start text).scan = ⟨ts, some e⟩ := by
  rw [result_scan, Scan.result_eq_error_iff]

/-! ## Where the error is put -/

section

variable (text : String) (e : LexicalError) (ts : List Token) (x : Char) (cs : List Char)

/-- The error is put behind a name that touches the character there. An iteration reports it instead of that name. -/
structure Touching : Prop where
  not_letter : ¬('a' ≤ x ∧ x ≤ 'z')
  ne_rightParen : x ≠ ')'
  name : ∃ before name start, ts = before ++ [⟨.var name, start, e.offset⟩] ∧
    (Scanner.start text).Yields (before.map .token ++ [.failed e])

/-- The error is put where no token begins. An iteration reports it behind all tokens. -/
structure Tokenless : Prop where
  not_letter : ¬('a' ≤ x ∧ x ≤ 'z')
  ne_leftParen : x ≠ '('
  ne_rightParen : x ≠ ')'
  not_keyword : ∀ op : Operator, ¬op.keyword.toList ++ [' '] <+: x :: cs
  yields : (Scanner.start text).Yields (ts.map .token ++ [.failed e])

variable {text e ts x cs}

theorem Tokenless.not_touching (h : Tokenless text e ts x cs) : ¬Touching text e ts x := by
  rintro ⟨_, _, before, name, start, rfl, hyields⟩
  have heq := hyields.eq_append h.yields (by simp)
  simp at heq

theorem utf8ByteSize_lt {before : String} (h : text = before ++ .ofList (x :: cs)) :
    before.utf8ByteSize < text.utf8ByteSize := by
  have hx := Char.utf8Size_pos x
  rw [h, String.utf8ByteSize_append, String.utf8ByteSize_ofList, String.utf8Len_cons]
  omega

namespace Cursor

variable {offset : Nat} {part after : List Char} {ts' : List Token}

theorem utf8Len_of_spells (h : Spells offset part ts) : String.utf8Len part = part.length := by
  obtain ⟨front, rfl, _, hbytes, _⟩ := (passes_of_spells h).exists_front
  rwa [List.append_nil]

/-- Behind a passage, a part of the rest is scanned as well that may be the end of a text. -/
theorem exists_before (h : Passes (start text) ts ⟨offset, part ++ after⟩) (hpart : Spells offset part ts')
    (hfollow : ∀ k : Kind, k.MayPrecede (part ++ after) → k.MayPrecede part) :
    ∃ before : String, text = before ++ .ofList after ∧ before.utf8ByteSize = offset + part.length ∧
      before.length = offset + part.length ∧ (Token.scan before).result = .ok (ts ++ ts') := by
  obtain ⟨front, htext, rfl, hbytes, hreplace⟩ := h.exists_front
  have hspells := (hreplace part hfollow).spells hpart
  refine ⟨.ofList (front ++ part), ?_, ?_, ?_, Token.scan_eq_ok_iff.mpr ?_⟩
  · rw [← String.ofList_append, List.append_assoc, ← htext, String.ofList_toList]
  · rw [String.utf8ByteSize_ofList, String.utf8Len_append, hbytes, utf8Len_of_spells hpart, Nat.zero_add]
  · rw [String.length_ofList, List.length_append, Nat.zero_add]
  · rwa [String.toList_ofList]

end Cursor

end

namespace Token

/-- A text that is not split into tokens is split up to the offset of the error, which counts bytes and characters
alike. No space stands there, and the error is put down either to the last name in front of it or to the lack of a token
behind it, but not to both. -/
theorem scan_failure {text : String} {e : LexicalError} (h : (scan text).result = .error e) :
    ∃ (before : String) (x : Char) (cs : List Char) (ts : List Token), text = before ++ .ofList (x :: cs) ∧
      before.utf8ByteSize = e.offset ∧ before.length = e.offset ∧ e.offset < text.utf8ByteSize ∧
      (scan before).result = .ok ts ∧ x ≠ ' ' ∧
      (Touching text e ts x ∨ Tokenless text e ts x cs) ∧ ¬(Touching text e ts x ∧ Tokenless text e ts x cs) := by
  have hnot {x : Char} {cs : List Char} {ts : List Token} :
      ¬(Touching text e ts x ∧ Tokenless text e ts x cs) := fun hboth => hboth.2.not_touching hboth.1
  have hletter {x : Char} (hx : x.isLower = false) : ¬('a' ≤ x ∧ x ≤ 'z') := by simp [← isLower_iff, hx]
  obtain ⟨ts, hscan⟩ := scan_eq_error_iff.mp h
  have hyields := Scanner.yields_of_scan hscan
  obtain ⟨offset, rest, n, hpasses, hblocked, rfl⟩ := Cursor.scan_eq_failure_iff.mp hscan
  cases hblocked with
  | @vacant x cs hspace hx hleft hright hkeyword =>
      have hfollow (k : Kind) (hk : k.MayPrecede (x :: cs)) : k.MayPrecede [] := hk.nil (by simpa using hspace)
      obtain ⟨before, htext, hbytes, hlength, hbefore⟩ := Cursor.exists_before hpasses (.nil offset) hfollow
      rw [List.append_nil] at hbefore
      refine ⟨before, x, cs, ts, htext, hbytes, hlength, hbytes ▸ utf8ByteSize_lt htext, hbefore, hspace, .inr ?_, hnot⟩
      exact ⟨hletter hx, hleft, hright, hkeyword, hyields⟩
  | @glued name x cs hname hx hspace hright =>
      -- The name that touches the character is a token of the text in front of it.
      have hpart : Spells offset (name.toList ++ []) [.startingAt (.var name) offset] :=
        .token (k := .var name) hname (.inl rfl) (.nil _)
      rw [List.append_nil] at hpart
      have hfollow (k : Kind) (hk : k.MayPrecede (name.toList ++ x :: cs)) : k.MayPrecede name.toList := by
        obtain ⟨c, tail, htail, _⟩ := hname.exists_cons
        exact hk.of_head? (by rw [htail]; rfl)
      obtain ⟨before, htext, hbytes, hlength, hbefore⟩ := Cursor.exists_before hpasses hpart hfollow
      rw [String.length_toList] at hbytes hlength
      refine ⟨before, x, cs, _, htext, hbytes, hlength, hbytes ▸ utf8ByteSize_lt htext, hbefore, hspace, .inl ?_, hnot⟩
      refine ⟨hletter hx, hright, ts, name, offset, ?_, hyields⟩
      rw [startingAt, Kind.utf8ByteSize_text (k := .var name) hname]
      rfl

/-- The name `d` touches a character of two bytes behind a conjunction in an open parenthesis. -/
theorem scan_failure_accent :
    let text := "ab (c AND dé"
    let e : LexicalError := ⟨11⟩
    (scan text).result = .error e ∧
      ∃ (before : String) (x : Char) (cs : List Char) (ts : List Token), text = before ++ .ofList (x :: cs) ∧
        before.utf8ByteSize = e.offset ∧ before.length = e.offset ∧ e.offset < text.utf8ByteSize ∧
        (scan before).result = .ok ts ∧ x ≠ ' ' ∧
        (Touching text e ts x ∨ Tokenless text e ts x cs) ∧ ¬(Touching text e ts x ∧ Tokenless text e ts x cs) := by
  intro text e
  have h : (scan text).result = .error e := by decide +kernel
  exact ⟨h, scan_failure h⟩

end Token

end Propositional
