import Propositional.Proofs.Language.LexicalErrors

/-!
# Texts put together

A scan keeps nothing but its offset, so a text is scanned behind another one as it is scanned alone, with all offsets
shifted (`Cursor.scan_shift`). A space between the two texts is enough to keep them apart (`Token.scan_concatenation`).
Tokens that are written with single spaces between them are therefore found again, but for an operator at the end,
which lacks the space that must follow it (`Token.scan_join`).
-/

namespace Propositional

theorem Kind.eq_operator {k : Kind} {op : Operator} (h : k.operator? = some op) : k = .operator op := by
  cases k with
  | operator op => cases h; rfl
  | var name | leftParen | rightParen => cases h

/-! ## Shifted offsets -/

def LexicalError.shift (n : Nat) (e : LexicalError) : LexicalError := ⟨n + e.offset⟩

/-- The same token, so many bytes behind. -/
def Token.shift (n : Nat) (t : Token) : Token := ⟨t.kind, n + t.span.start, n + t.span.stop⟩

def Scan.shift (n : Nat) (s : Scan) : Scan := ⟨s.tokens.map (.shift n), s.failure.map (.shift n)⟩

theorem Token.shift_startingAt (n : Nat) (k : Kind) (offset : Nat) :
    (startingAt k offset).shift n = .startingAt k (n + offset) := by
  simp only [shift, startingAt, Nat.add_assoc]

namespace Cursor

def shift (n : Nat) (c : Cursor) : Cursor := ⟨n + c.offset, c.rest⟩

variable {c c' : Cursor} {ts : List Token}

theorem Passes.shift (h : Passes c ts c') (n : Nat) : Passes (c.shift n) (ts.map (.shift n)) (c'.shift n) := by
  induction h with
  | refl _ => exact .refl _
  | space _ ih => exact .space ih
  | @token offset rest _ _ k hk hrest _ ih =>
      rw [List.map_cons, Token.shift_startingAt]
      simp only [Cursor.shift, ← Nat.add_assoc] at ih ⊢
      exact .token hk hrest ih

theorem scan_shift (c : Cursor) (n : Nat) : (c.shift n).scan = c.scan.shift n := by
  cases hscan : c.scan with
  | mk ts failure =>
      cases failure with
      | none =>
          have hspells := ((passes_of_spells (spells_of_scan hscan)).shift n).spells (.nil _)
          rw [List.append_nil] at hspells
          exact scan_of_spells hspells
      | some e =>
          obtain ⟨offset, rest, k, hpasses, hblocked, rfl⟩ := scan_eq_failure_iff.mp hscan
          refine scan_eq_failure_iff.mpr ⟨n + offset, rest, k, hpasses.shift n, hblocked, ?_⟩
          rw [LexicalError.shift, Nat.add_assoc]

/-- Behind a text that is split into tokens and a space, the scan goes on as at the beginning. -/
theorem scan_append_space {s : String} (h : Spells 0 s.toList ts) (t : String) :
    (start (s ++ " " ++ t)).scan = ((start t).scan.shift (s.utf8ByteSize + 1)).after ts := by
  obtain ⟨front, hfront, _, hbytes, hreplace⟩ := (passes_of_spells h).exists_front
  obtain rfl : s.toList = front := by rwa [List.append_nil] at hfront
  have hsize : s.utf8ByteSize = s.toList.length := by
    rw [← hbytes, ← String.utf8ByteSize_ofList, String.ofList_toList]
  have hpasses := (hreplace (' ' :: t.toList) fun k _ => k.mayPrecede_space _).trans (.space (.refl _))
  have hstart : start (s ++ " " ++ t) = ⟨0, s.toList ++ ' ' :: t.toList⟩ := by simp [start]
  have hend : (⟨0 + s.toList.length + 1, t.toList⟩ : Cursor) = (start t).shift (s.utf8ByteSize + 1) := by
    rw [hsize, Nat.zero_add]
    rfl
  rw [hend, List.append_nil] at hpasses
  rw [hstart, hpasses.scan, scan_shift]

end Cursor

namespace Token

/-- A text behind a text that is split into tokens and a space is split as it is alone, or has its error at the same
place, only that it begins later. -/
theorem scan_concatenation {s : String} {ts : List Token} (h : (scan s).result = .ok ts) (t : String) :
    (∀ us, (scan t).result = .ok us →
      (scan (s ++ " " ++ t)).result = .ok (ts ++ us.map (.shift (s.utf8ByteSize + 1)))) ∧
    ∀ e, (scan t).result = .error e →
      (scan (s ++ " " ++ t)).result = .error ⟨s.utf8ByteSize + 1 + e.offset⟩ := by
  rw [result_scan t, result_scan (s ++ " " ++ t), Cursor.scan_append_space (scan_eq_ok_iff.mp h)]
  constructor
  · intro us hus
    rw [Scan.result_eq_ok_iff.mp hus]
    rfl
  · intro e he
    obtain ⟨us, hus⟩ := Scan.result_eq_error_iff.mp he
    rw [hus]
    rfl

/-- The second text has an error behind its parenthesis. -/
theorem scan_concatenation_accent :
    let s := "a NOT "
    let t := "(é"
    let ts : List Token := [.startingAt (.var "a") 0, .startingAt (.operator .not) 2]
    (scan s).result = .ok ts ∧
      (∀ us, (scan t).result = .ok us →
        (scan (s ++ " " ++ t)).result = .ok (ts ++ us.map (.shift (s.utf8ByteSize + 1)))) ∧
      ∀ e, (scan t).result = .error e →
        (scan (s ++ " " ++ t)).result = .error ⟨s.utf8ByteSize + 1 + e.offset⟩ := by
  intro s t ts
  have h : (scan s).result = .ok ts := by decide +kernel
  exact ⟨h, scan_concatenation h t⟩

/-! ## Single spaces between tokens -/

/-- The texts of the tokens with a space behind each of them. -/
def spaced : List Token → String
  | [] => ""
  | t :: ts => t.text ++ " " ++ spaced ts

theorem join_append_singleton (ts : List Token) (t : Token) : join (ts ++ [t]) = spaced ts ++ t.text := by
  induction ts with
  | nil => simp [join, spaced]
  | cons u ts ih =>
      rw [join] at ih
      rw [join, List.cons_append, List.map_cons, String.intercalate_cons_of_ne_nil (by simp), ih, spaced,
        ← String.append_assoc]

theorem toList_spaced_cons (t : Token) (ts : List Token) (rest : List Char) :
    (spaced (t :: ts)).toList ++ rest = t.kind.text.toList ++ ' ' :: ((spaced ts).toList ++ rest) := by
  simp [spaced, text]

theorem passes_spaced {ts : List Token} (hts : ∀ t ∈ ts, t.kind.Proper) (offset : Nat) (rest : List Char) :
    ∃ ts', Cursor.Passes ⟨offset, (spaced ts).toList ++ rest⟩ ts' ⟨offset + (spaced ts).utf8ByteSize, rest⟩ ∧
      ts'.map kind = ts.map kind := by
  induction ts generalizing offset with
  | nil => exact ⟨[], .refl _, rfl⟩
  | cons t ts ih =>
      obtain ⟨ht, hts⟩ := List.forall_mem_cons.mp hts
      obtain ⟨ts', hpasses, hkinds⟩ := ih hts (offset + t.kind.text.length + 1)
      have hsize : offset + t.kind.text.length + 1 + (spaced ts).utf8ByteSize =
          offset + (spaced (t :: ts)).utf8ByteSize := by
        simp only [spaced, String.utf8ByteSize_append, text, Kind.utf8ByteSize_text ht, Nat.add_assoc]
        rfl
      rw [hsize] at hpasses
      refine ⟨.startingAt t.kind offset :: ts', ?_, congrArg (t.kind :: ·) hkinds⟩
      rw [toList_spaced_cons]
      exact .token ht (t.kind.mayPrecede_space _) (.space hpasses)

theorem scan_join_append {ts : List Token} {t : Token} (hts : ∀ u ∈ ts ++ [t], u.kind.Proper) {after : String}
    (hfollow : t.kind.MayPrecede after.toList) (hafter : ∀ offset, Spells offset after.toList []) :
    ∃ ts', (scan (join (ts ++ [t]) ++ after)).result = .ok ts' ∧ ts'.map kind = (ts ++ [t]).map kind := by
  obtain ⟨hts, ht⟩ := List.forall_mem_append.mp hts
  obtain ⟨ts', hpasses, hkinds⟩ := passes_spaced hts 0 (t.text.toList ++ after.toList)
  have hspells := hpasses.spells (.token (ht t (by simp)) hfollow (hafter _))
  have htext : (join (ts ++ [t]) ++ after).toList = (spaced ts).toList ++ (t.text.toList ++ after.toList) := by
    rw [join_append_singleton, String.toList_append, String.toList_append, List.append_assoc]
  rw [← htext] at hspells
  refine ⟨_, scan_eq_ok_iff.mpr hspells, ?_⟩
  rw [List.map_append, List.map_append, hkinds]
  rfl

end Token

/-! ## A keyword at the end -/

/-- A keyword at the end of a text lacks the space that must follow it. -/
theorem Cursor.look_keyword (op : Operator) (offset : Nat) :
    (⟨offset, op.keyword.toList⟩ : Cursor).look = .failed ⟨offset⟩ := by
  cases op with
  | not => rfl
  | binary c => cases c <;> rfl

theorem Cursor.Passes.scan_keyword {c : Cursor} {ts : List Token} {offset : Nat} {op : Operator}
    (h : c.Passes ts ⟨offset, op.keyword.toList⟩) : c.scan = ⟨ts, some ⟨offset⟩⟩ := by
  have hspace : (op.keyword.toList ++ []).head? ≠ some ' ' := head?_text (k := .operator op) trivial
  rw [List.append_nil] at hspace
  obtain ⟨n, hblocked, he⟩ := blocked_of_look hspace (look_keyword op offset)
  exact scan_eq_failure_iff.mpr ⟨offset, op.keyword.toList, n, h, hblocked, he⟩

namespace Token

theorem scan_join_operator {ts : List Token} {t : Token} {op : Operator} (hts : ∀ u ∈ ts, u.kind.Proper)
    (hop : t.kind.operator? = some op) :
    (scan (join (ts ++ [t]))).result = .error ⟨(spaced ts).utf8ByteSize⟩ := by
  obtain ⟨ts', hpasses, _⟩ := passes_spaced hts 0 op.keyword.toList
  have hstart : Cursor.start (join (ts ++ [t])) = ⟨0, (spaced ts).toList ++ op.keyword.toList⟩ := by
    rw [Cursor.start, join_append_singleton, String.toList_append, text, Kind.eq_operator hop]
    rfl
  rw [result_scan, hstart, hpasses.scan_keyword, Nat.zero_add]
  rfl

/-- Tokens that are written with single spaces between them are found again. Only an operator at the end is not found
and makes an error instead, unless one more space follows it. -/
theorem scan_join {ts : List Token} (hts : ∀ t ∈ ts, t.kind.Proper) :
    ((∀ t ∈ ts.getLast?, t.kind.operator? = none) →
      ∃ ts', (scan (join ts)).result = .ok ts' ∧ ts'.map kind = ts.map kind) ∧
    (∀ t ∈ ts.getLast?, t.kind.operator?.isSome →
      ∃ front, join ts = front ++ t.text ∧ (scan (join ts)).result = .error ⟨front.utf8ByteSize⟩) ∧
    ∃ ts', (scan (join ts ++ " ")).result = .ok ts' ∧ ts'.map kind = ts.map kind := by
  rcases ts.eq_nil_or_concat' with rfl | ⟨before, t, rfl⟩
  · exact ⟨fun _ => ⟨[], scan_eq_ok_iff.mpr (.nil 0), rfl⟩, by simp,
      ⟨[], scan_eq_ok_iff.mpr (.space (.nil 1)), rfl⟩⟩
  · have hlast : (before ++ [t]).getLast? = some t := List.getLast?_concat
    simp only [hlast, Option.mem_some_iff, forall_eq']
    refine ⟨fun hop => ?_, fun hop => ?_, ?_⟩
    · have hfollow : t.kind.MayPrecede "".toList := Kind.mayPrecede_nil hop
      have hjoin := scan_join_append hts hfollow .nil
      rwa [String.append_empty] at hjoin
    · obtain ⟨op, hop⟩ := Option.isSome_iff_exists.mp hop
      exact ⟨spaced before, join_append_singleton before t, scan_join_operator (fun u hu => hts u (by simp [hu])) hop⟩
    · exact scan_join_append hts (t.kind.mayPrecede_space _) fun offset => .space (.nil _)

/-- The tokens are those of no formula, and their spans are those of no text. -/
theorem scan_join_nonsense :
    let ts : List Token := [⟨.rightParen, 3, 1⟩, ⟨.var "ab", 0, 0⟩, ⟨.var "c", 7, 8⟩, ⟨.operator .not, 2, 2⟩]
    (∀ t ∈ ts, t.kind.Proper) ∧
      ((∀ t ∈ ts.getLast?, t.kind.operator? = none) →
        ∃ ts', (scan (join ts)).result = .ok ts' ∧ ts'.map kind = ts.map kind) ∧
      (∀ t ∈ ts.getLast?, t.kind.operator?.isSome →
        ∃ front, join ts = front ++ t.text ∧ (scan (join ts)).result = .error ⟨front.utf8ByteSize⟩) ∧
      ∃ ts', (scan (join ts ++ " ")).result = .ok ts' ∧ ts'.map kind = ts.map kind := by
  intro ts
  have h : ∀ t ∈ ts, t.kind.Proper := by simp [ts, Kind.Proper, IsName]
  exact ⟨h, scan_join h⟩

end Token

end Propositional
