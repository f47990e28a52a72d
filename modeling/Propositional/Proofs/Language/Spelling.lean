import Propositional.Language.Scanner
import Propositional.Proofs.Runs

/-!
# How tokens are spelled

The texts that are split into given tokens, character by character (`Spells`): spaces, and the texts of the
tokens, each of which restricts what may follow it. A text is split into tokens without an error exactly if
these tokens are spelled by it (`Token.scan_eq_ok_iff`).
-/

namespace Propositional

/-- A run of one or more small letters of the ASCII alphabet, as every name in a text is. -/
def IsName (name : String) : Prop := name ≠ "" ∧ ∀ c ∈ name.toList, 'a' ≤ c ∧ c ≤ 'z'

theorem isLower_iff (c : Char) : c.isLower ↔ 'a' ≤ c ∧ c ≤ 'z' := by
  show (decide (c.val ≥ 'a'.val) && decide (c.val ≤ 'z'.val)) = true ↔ _
  simp only [Bool.and_eq_true, decide_eq_true_eq, Char.le_def, ge_iff_le]

theorem isName_takeWhile {c : Char} (hc : c.isLower) (cs : List Char) :
    IsName (.ofList ((c :: cs).takeWhile Char.isLower)) := by
  constructor
  · simp [hc]
  · intro d hd
    rw [String.toList_ofList] at hd
    exact (isLower_iff d).mp (List.mem_takeWhile_imp hd)

theorem IsName.exists_cons {name : String} (h : IsName name) : ∃ c cs, name.toList = c :: cs ∧ c.isLower := by
  obtain ⟨c, cs, hname⟩ := List.exists_cons_of_ne_nil (mt String.toList_eq_nil_iff.mp h.1)
  exact ⟨c, cs, hname, (isLower_iff c).mpr (h.2 c (by simp [hname]))⟩

theorem IsName.isLower {name : String} (h : IsName name) : ∀ c ∈ name.toList, c.isLower :=
  fun c hc => (isLower_iff c).mpr (h.2 c hc)

namespace Kind

/-- A variable of a text has a name that can be written. -/
def Proper : Kind → Prop
  | .var name => IsName name
  | _ => True

/-- The first character of a token's text is no space, and it tells a right parenthesis from all other tokens. -/
theorem Proper.exists_text_eq_cons {k : Kind} (hk : k.Proper) :
    ∃ c cs, k.text.toList = c :: cs ∧ c ≠ ' ' ∧ (c = ')' ↔ k = .rightParen) := by
  cases k with
  | leftParen | rightParen => exact ⟨_, _, rfl, by decide, by decide⟩
  | operator op =>
      cases op with
      | not => exact ⟨_, _, rfl, by decide, by decide⟩
      | binary c => cases c <;> exact ⟨_, _, rfl, by decide, by decide⟩
  | var name =>
      obtain ⟨c, cs, hname, hc⟩ := hk.exists_cons
      have hne (d : Char) (hd : d.isLower = false) : c ≠ d := by
        rintro rfl
        rw [hd] at hc
        cases hc
      exact ⟨c, cs, hname, hne ' ' rfl, by simp [hne ')' rfl]⟩

theorem Proper.length_pos {k : Kind} (hk : k.Proper) : 0 < k.text.length := by
  obtain ⟨c, cs, htext, _⟩ := hk.exists_text_eq_cons
  rw [← String.length_toList, htext]
  exact Nat.succ_pos _

/-- What may follow a name: it must not touch anything but a right parenthesis. -/
def EndsName (cs : List Char) : Prop := cs.head? = none ∨ cs.head? = some ' ' ∨ cs.head? = some ')'

/-- What may follow a token; only a space may follow an operator, also at the end of the text. -/
def MayPrecede : Kind → List Char → Prop
  | .operator _, cs => cs.head? = some ' '
  | .var _, cs => EndsName cs
  | _, _ => True

end Kind

/-- The text from an offset on spells the tokens. -/
inductive Spells : Nat → List Char → List Token → Prop where
  | nil (offset) : Spells offset [] []
  | space {offset cs ts} : Spells (offset + 1) cs ts → Spells offset (' ' :: cs) ts
  | token {offset cs ts} {k : Kind} : k.Proper → k.MayPrecede cs →
      Spells (offset + k.text.length) cs ts → Spells offset (k.text.toList ++ cs) (.startingAt k offset :: ts)

theorem Spells.spaces {offset : Nat} {cs : List Char} {ts : List Token} (n : Nat)
    (h : Spells (offset + n) cs ts) : Spells offset (List.replicate n ' ' ++ cs) ts := by
  induction n generalizing offset with
  | zero => exact h
  | succ n ih =>
      rw [List.replicate_succ, List.cons_append]
      exact .space (ih (by rwa [Nat.add_assoc, Nat.add_comm 1 n]))

theorem Spells.proper {offset : Nat} {cs : List Char} {ts : List Token} (h : Spells offset cs ts) :
    ∀ t ∈ ts, t.kind.Proper := by
  induction h with
  | nil _ => simp
  | space _ ih => exact ih
  | token hk _ _ ih => exact List.forall_mem_cons.mpr ⟨hk, ih⟩

/-! ## One token -/

namespace Cursor

variable {offset : Nat} {rest : List Char}

theorem keyword_eq_token_iff {op : Operator} {t : Token} : (⟨offset, rest⟩ : Cursor).keyword op = .token t ↔
    ∃ rest', rest = op.keyword.toList ++ rest' ∧ rest'.head? = some ' ' ∧
      t = .startingAt (.operator op) offset := by
  simp only [keyword]
  split
  case isTrue h =>
    obtain ⟨rest', rfl⟩ := List.isPrefixOf_iff_prefix.mp h
    constructor
    · intro ht
      cases ht
      exact ⟨' ' :: rest', by simp, rfl, rfl⟩
    · rintro ⟨_, _, _, rfl⟩
      rfl
  case isFalse h =>
    constructor
    · intro ht
      cases ht
    · rintro ⟨rest', rfl, hhead, _⟩
      refine (h (List.isPrefixOf_iff_prefix.mpr ?_)).elim
      obtain ⟨rest, rfl⟩ := List.head?_eq_some_iff.mp hhead
      exact ⟨rest, by simp⟩

theorem name_eq_token_iff {t : Token} : (⟨offset, rest⟩ : Cursor).name = .token t ↔
    (Kind.var (.ofList (rest.takeWhile Char.isLower))).MayPrecede (rest.dropWhile Char.isLower) ∧
      t = .startingAt (.var (.ofList (rest.takeWhile Char.isLower))) offset := by
  simp only [name, letters, Kind.MayPrecede, Kind.EndsName]
  split
  case h_1 h => simp [h, eq_comm]
  case h_2 h => simp [h, eq_comm]
  case h_3 h => simp [h, eq_comm]
  case h_4 hnil hspace hparen =>
    constructor
    · intro ht
      cases ht
    · rintro ⟨hhead, _⟩
      cases h : rest.dropWhile Char.isLower with
      | nil => exact (hnil h).elim
      | cons c cs =>
          rw [h] at hhead hspace hparen
          simp only [List.head?_cons, reduceCtorEq, Option.some.injEq, false_or] at hhead
          obtain rfl | rfl := hhead
          · exact (hspace cs rfl).elim
          · exact (hparen cs rfl).elim

theorem exists_of_look {t : Token} (h : (⟨offset, rest⟩ : Cursor).look = .token t) :
    ∃ k rest', rest = k.text.toList ++ rest' ∧ k.Proper ∧ k.MayPrecede rest' ∧
      t = .startingAt k offset := by
  have hkeyword {op : Operator} (h : (⟨offset, rest⟩ : Cursor).keyword op = .token t) :
      ∃ k rest', rest = k.text.toList ++ rest' ∧ k.Proper ∧ k.MayPrecede rest' ∧
        t = .startingAt k offset := by
    obtain ⟨rest', hrest, hhead, ht⟩ := keyword_eq_token_iff.mp h
    exact ⟨.operator op, rest', hrest, trivial, hhead, ht⟩
  simp only [look] at h
  split at h
  case h_1 => cases h
  case h_2 tail => cases h; exact ⟨.leftParen, tail, rfl, trivial, trivial, rfl⟩
  case h_3 tail => cases h; exact ⟨.rightParen, tail, rfl, trivial, trivial, rfl⟩
  case h_4 | h_5 | h_6 | h_7 => exact hkeyword h
  case h_8 x tail _ _ _ _ _ _ =>
    split at h
    case isFalse => cases h
    case isTrue hx =>
      obtain ⟨hfollow, ht⟩ := name_eq_token_iff.mp h
      refine ⟨.var _, _, ?_, isName_takeWhile hx tail, hfollow, ht⟩
      simp only [Kind.text, String.toList_ofList, List.takeWhile_append_dropWhile]

theorem look_of_isLower {c : Char} {cs : List Char} (hc : c.isLower) :
    (⟨offset, c :: cs⟩ : Cursor).look = (⟨offset, c :: cs⟩ : Cursor).name := by
  simp only [look]
  split
  case h_1 h => cases h
  case h_2 h | h_3 h | h_4 h | h_5 h | h_6 h | h_7 h => cases h; cases hc
  case h_8 h => cases h; rw [if_pos hc]

section

variable {run : List Char} (hrun : ∀ c ∈ run, c.isLower) (hrest : ∀ c ∈ rest.head?, c.isLower = false)
include hrun hrest

theorem name_of_endsName (hends : Kind.EndsName rest) :
    (⟨offset, run ++ rest⟩ : Cursor).name = .token (.startingAt (.var (.ofList run)) offset) := by
  rw [name_eq_token_iff, takeWhile_run_append hrun hrest, dropWhile_run_append hrun hrest]
  exact ⟨hends, rfl⟩

theorem name_of_not_endsName (hends : ¬Kind.EndsName rest) :
    (⟨offset, run ++ rest⟩ : Cursor).name = .failed ⟨offset + run.length⟩ := by
  rw [name, letters, takeWhile_run_append hrun hrest, dropWhile_run_append hrun hrest]
  split
  case h_1 | h_2 | h_3 => exact (hends (by simp [Kind.EndsName])).elim
  case h_4 => rfl

end

theorem name_of_isName {name : String} (hname : IsName name) (hrest : (Kind.var name).MayPrecede rest) :
    (⟨offset, name.toList ++ rest⟩ : Cursor).name = .token (.startingAt (.var name) offset) := by
  have hhead : ∀ c ∈ rest.head?, c.isLower = false := by
    intro c hc
    obtain h | h | h := hrest <;> rw [Option.mem_def.mp hc] at h <;> cases h <;> rfl
  rw [name_of_endsName hname.isLower hhead hrest, String.ofList_toList]

theorem look_of_spelled {k : Kind} (hk : k.Proper) (hrest : k.MayPrecede rest) :
    (⟨offset, k.text.toList ++ rest⟩ : Cursor).look = .token (.startingAt k offset) := by
  cases k with
  | leftParen => rfl
  | rightParen => rfl
  | operator op =>
      have h : (⟨offset, op.keyword.toList ++ rest⟩ : Cursor).keyword op =
          .token (.startingAt (.operator op) offset) := keyword_eq_token_iff.mpr ⟨rest, rfl, hrest, rfl⟩
      cases op with
      | not => exact h
      | binary c => cases c <;> exact h
  | var name =>
      have h : (⟨offset, name.toList ++ rest⟩ : Cursor).name = _ := name_of_isName hk hrest
      obtain ⟨c, cs, hcs, hc⟩ := hk.exists_cons
      show (⟨offset, name.toList ++ rest⟩ : Cursor).look = _
      rw [hcs, List.cons_append] at h ⊢
      rw [look_of_isLower hc, h]

/-! ## Spaces before a token -/

theorem skipSpaces_space : (⟨offset, ' ' :: rest⟩ : Cursor).skipSpaces =
    (⟨offset + 1, rest⟩ : Cursor).skipSpaces := by
  simp only [skipSpaces, advance, List.takeWhile_cons_of_pos, decide_true, List.length_cons,
    List.drop_succ_cons, Nat.add_assoc, Nat.add_comm 1]

theorem skipSpaces_spaces (n : Nat) (h : rest.head? ≠ some ' ') :
    (⟨offset, List.replicate n ' ' ++ rest⟩ : Cursor).skipSpaces = ⟨offset + n, rest⟩ := by
  induction n generalizing offset with
  | zero =>
      cases rest with
      | nil => rfl
      | cons c cs =>
          have hc : c ≠ ' ' := by simpa using h
          simp [skipSpaces, advance, hc]
  | succ n ih =>
      rw [List.replicate_succ, List.cons_append, skipSpaces_space, ih, Nat.add_assoc, Nat.add_comm 1 n]

theorem exists_spaces (cs : List Char) :
    ∃ n rest, cs = List.replicate n ' ' ++ rest ∧ rest.head? ≠ some ' ' := by
  obtain ⟨run, rest, rfl, hrun, hrest⟩ := exists_run_append (· = ' ') cs
  refine ⟨run.length, rest, ?_, ?_⟩
  · rw [← List.eq_replicate_of_mem fun c hc => by simpa using hrun c hc]
  · intro h
    simpa using hrest _ h

theorem head?_text {k : Kind} (hk : k.Proper) : (k.text.toList ++ rest).head? ≠ some ' ' := by
  obtain ⟨c, cs, htext, hspace, _⟩ := hk.exists_text_eq_cons
  simpa [htext] using hspace

theorem next_of_spelled {k : Kind} (hk : k.Proper) (hrest : k.MayPrecede rest) :
    (⟨offset, k.text.toList ++ rest⟩ : Cursor).next =
      (.token (.startingAt k offset), ⟨offset + k.text.length, rest⟩) := by
  have hskip : (⟨offset, k.text.toList ++ rest⟩ : Cursor).skipSpaces = ⟨offset, k.text.toList ++ rest⟩ :=
    skipSpaces_spaces 0 (head?_text hk)
  rw [next, hskip, take, look_of_spelled hk hrest]
  have hlen : k.text.length = k.text.toList.length := String.length_toList.symm
  simp only [advance, Token.text, Token.startingAt, hlen, List.drop_left]

theorem exists_of_next {t : Token} {c' : Cursor} (h : (⟨offset, rest⟩ : Cursor).next = (.token t, c')) :
    ∃ n k rest', rest = List.replicate n ' ' ++ (k.text.toList ++ rest') ∧ k.Proper ∧
      k.MayPrecede rest' ∧ t = .startingAt k (offset + n) ∧ c' = ⟨offset + n + k.text.length, rest'⟩ := by
  obtain ⟨n, rest, rfl, hhead⟩ := exists_spaces rest
  rw [next, skipSpaces_spaces n hhead, take] at h
  split at h
  case h_1 hlook =>
    cases h
    obtain ⟨k, rest', rfl, hk, hrest, rfl⟩ := exists_of_look hlook
    refine ⟨n, k, rest', rfl, hk, hrest, rfl, ?_⟩
    have hlen : k.text.length = k.text.toList.length := String.length_toList.symm
    simp only [advance, Token.text, Token.startingAt, hlen, List.drop_left]
  case h_2 hlook =>
    simp only [Prod.mk.injEq] at h
    exact (hlook t h.1).elim

theorem eq_nil_of_look (h : (⟨offset, rest⟩ : Cursor).look = .finished) : rest = [] := by
  simp only [look, keyword, name] at h
  split at h
  case h_1 => rfl
  case h_2 | h_3 => cases h
  case h_4 | h_5 | h_6 | h_7 => split at h <;> cases h
  case h_8 =>
    split at h
    case isTrue => split at h <;> cases h
    case isFalse => cases h

theorem eq_spaces_of_next {c' : Cursor} (h : (⟨offset, rest⟩ : Cursor).next = (.finished, c')) :
    ∃ n, rest = List.replicate n ' ' := by
  obtain ⟨n, rest, rfl, hhead⟩ := exists_spaces rest
  rw [next, skipSpaces_spaces n hhead, take] at h
  split at h
  case h_1 => cases h
  case h_2 =>
    simp only [Prod.mk.injEq] at h
    rw [eq_nil_of_look h.1, List.append_nil]
    exact ⟨n, rfl⟩

/-! ## All tokens -/

theorem scan_eq (c : Cursor) : c.scan =
    match c.next with
    | (.token t, c') => .cons t c'.scan
    | (.finished, _) => ⟨[], none⟩
    | (.failed e, _) => ⟨[], some e⟩ := by
  rw [scan]
  split
  case h_1 h => rw [h]
  case h_2 h => rw [h]
  case h_3 h => rw [h]

theorem scan_of_next {c c' : Cursor} {t : Token} (h : c.next = (.token t, c')) :
    c.scan = .cons t c'.scan := by
  rw [scan_eq, h]

theorem scan_space : (⟨offset, ' ' :: rest⟩ : Cursor).scan = (⟨offset + 1, rest⟩ : Cursor).scan := by
  have h : (⟨offset, ' ' :: rest⟩ : Cursor).next = (⟨offset + 1, rest⟩ : Cursor).next := by
    rw [next, next, skipSpaces_space]
  rw [scan_eq, scan_eq, h]

theorem scan_of_spells {ts : List Token} (h : Spells offset rest ts) :
    (⟨offset, rest⟩ : Cursor).scan = ⟨ts, none⟩ := by
  induction h with
  | nil _ => rw [scan]; rfl
  | space _ ih => rw [scan_space, ih]
  | token hk hrest _ ih => rw [scan_of_next (next_of_spelled hk hrest), ih, Scan.cons]

theorem spells_of_scan {c : Cursor} {ts : List Token} (h : c.scan = ⟨ts, none⟩) :
    Spells c.offset c.rest ts := by
  induction c using scan.induct generalizing ts with
  | case1 c t c' hnext ih =>
      obtain ⟨n, k, rest', hrest, hk, hfollow, rfl, rfl⟩ := exists_of_next hnext
      rw [scan_of_next hnext, Scan.cons, Scan.mk.injEq] at h
      obtain ⟨rfl, hf⟩ := h
      rw [hrest]
      refine .spaces n (.token hk hfollow (ih ?_))
      rw [← hf]
  | case2 c c' hnext =>
      rw [scan_eq, hnext] at h
      cases h
      obtain ⟨n, hn⟩ := eq_spaces_of_next hnext
      rw [hn, ← List.append_nil (List.replicate n ' ')]
      exact .spaces n (.nil _)
  | case3 c e c' hnext =>
      rw [scan_eq, hnext] at h
      cases h

end Cursor

theorem Scan.result_eq_ok_iff {s : Scan} {ts : List Token} : s.result = .ok ts ↔ s = ⟨ts, none⟩ := by
  obtain ⟨tokens, failure⟩ := s
  cases failure <;> simp [result]

/-- A text is split into tokens exactly if it spells them. -/
theorem Token.scan_eq_ok_iff {text : String} {ts : List Token} :
    (scan text).result = .ok ts ↔ Spells 0 text.toList ts := by
  simp only [scan, Logged.result_bind_eq_ok_iff, Logged.result_record, Logged.result_ofExcept,
    Logged.result_pure, Except.ok.injEq, Scan.result_eq_ok_iff]
  constructor
  · rintro ⟨_, -, _, h, _, -, rfl⟩
    exact Cursor.spells_of_scan h
  · intro h
    exact ⟨(), trivial, ts, Cursor.scan_of_spells h, (), trivial, rfl⟩

end Propositional
