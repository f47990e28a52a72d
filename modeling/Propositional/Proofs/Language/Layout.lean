import Mathlib.Data.String.Basic
import Propositional.Proofs.Language.Spelling

/-!
# Layouts of a text

A text that is split into tokens is a sequence of gaps, which are runs of spaces, with a token between any two of
them. `Layout.Admissible` says which gaps must not be empty. A text is split exactly if it has an admissible
layout, which is then the only one, and the spans are the places of the tokens in it
(`Token.scan_eq_ok_iff_layout`).
-/

namespace Propositional

/-- A gap of so many spaces, and the tokens behind it with a gap after each. -/
inductive Layout where
  | last (gap : Nat)
  | token (gap : Nat) (kind : Kind) (rest : Layout)

namespace Layout

def gap : Layout → Nat
  | .last n => n
  | .token n _ _ => n

def first? : Layout → Option Kind
  | .last _ => none
  | .token _ k _ => some k

def spaces (n : Nat) : String := .ofList (List.replicate n ' ')

def text : Layout → String
  | .last n => spaces n
  | .token n k rest => spaces n ++ k.text ++ rest.text

/-- The tokens at their places, when the text begins at the offset. -/
def tokensFrom (offset : Nat) : Layout → List Token
  | .last _ => []
  | .token n k rest => .startingAt k (offset + n) :: rest.tokensFrom (offset + n + k.text.utf8ByteSize)

def tokens (l : Layout) : List Token := l.tokensFrom 0

/-- Whether the layout may follow a token. A gap must follow an operator, also at the end of the text. It must
follow a variable, unless that is the last token or the next one is a right parenthesis. -/
def MayFollow (l : Layout) : Kind → Prop
  | .operator _ => 0 < l.gap
  | .var _ => 0 < l.gap ∨ l.first? = none ∨ l.first? = some .rightParen
  | .leftParen | .rightParen => True

/-- All names can be written, and there is a gap wherever one is needed. -/
def Admissible : Layout → Prop
  | .last _ => True
  | .token _ k rest => k.Proper ∧ rest.MayFollow k ∧ rest.Admissible

end Layout

/-! ## The text of one token -/

theorem utf8Size_of_isLower {c : Char} (h : c.isLower) : c.utf8Size = 1 :=
  Char.utf8Size_eq_one_iff.mpr (Nat.le_trans ((isLower_iff c).mp h).2 (by decide))

theorem utf8Len_of_utf8Size {cs : List Char} (h : ∀ c ∈ cs, c.utf8Size = 1) : String.utf8Len cs = cs.length := by
  induction cs with
  | nil => rfl
  | cons c cs ih =>
      have ⟨hc, hcs⟩ := List.forall_mem_cons.mp h
      rw [String.utf8Len_cons, ih hcs, hc, List.length_cons]

theorem length_le_utf8Len (cs : List Char) : cs.length ≤ String.utf8Len cs := by
  induction cs with
  | nil => exact Nat.le_refl 0
  | cons c cs ih =>
      rw [List.length_cons, String.utf8Len_cons]
      exact Nat.add_le_add ih c.utf8Size_pos

theorem utf8Size_of_utf8Len {cs : List Char} (h : String.utf8Len cs = cs.length) : ∀ c ∈ cs, c.utf8Size = 1 := by
  induction cs with
  | nil => simp
  | cons c cs ih =>
      have hle := length_le_utf8Len cs
      have hpos := c.utf8Size_pos
      rw [String.utf8Len_cons, List.length_cons] at h
      exact List.forall_mem_cons.mpr ⟨by omega, ih (by omega)⟩

theorem utf8ByteSize_of_utf8Size {s : String} (h : ∀ c ∈ s.toList, c.utf8Size = 1) :
    s.utf8ByteSize = s.length := by
  rw [← String.ofList_toList (s := s), String.utf8ByteSize_ofList, utf8Len_of_utf8Size h, String.length_ofList]

namespace Kind

variable {k : Kind}

theorem utf8ByteSize_text (hk : k.Proper) : k.text.utf8ByteSize = k.text.length := by
  cases k with
  | leftParen | rightParen => rfl
  | operator op =>
      cases op with
      | not => rfl
      | binary c => cases c <;> rfl
  | var name => exact utf8ByteSize_of_utf8Size fun c hc => utf8Size_of_isLower (hk.isLower c hc)

end Kind

namespace Layout

variable {l l' : Layout} {offset : Nat} {cs : List Char} {ts : List Token}

/-! ## What follows a token -/

theorem toList_spaces (n : Nat) : (spaces n).toList = List.replicate n ' ' := String.toList_ofList

theorem toList_text_last (n : Nat) : (last n).text.toList = List.replicate n ' ' := toList_spaces n

theorem toList_text_token (n : Nat) (k : Kind) (l : Layout) :
    (token n k l).text.toList = List.replicate n ' ' ++ (k.text.toList ++ l.text.toList) := by
  simp [text, toList_spaces]

/-- The characters of the text allow what the gaps and kinds allow. -/
theorem mayPrecede_iff (h : l.Admissible) (k : Kind) : k.MayPrecede l.text.toList ↔ l.MayFollow k := by
  have hhead : (l.text.toList.head? = some ' ' ↔ 0 < l.gap) ∧
      (Kind.EndsName l.text.toList ↔ 0 < l.gap ∨ l.first? = none ∨ l.first? = some .rightParen) := by
    cases l with
    | last n =>
        rw [toList_text_last]
        cases n <;> simp [Kind.EndsName, gap, first?, List.replicate_succ]
    | token n k' rest =>
        rw [toList_text_token]
        cases n with
        | zero =>
            obtain ⟨c, cs, htext, hspace, hparen⟩ := h.1.exists_text_eq_cons
            simp [Kind.EndsName, gap, first?, htext, hspace, hparen]
        | succ n => simp [Kind.EndsName, gap, List.replicate_succ]
  cases k with
  | leftParen | rightParen => rfl
  | operator op => exact hhead.1
  | var name => exact hhead.2

/-! ## Layouts and spellings -/

theorem spells (h : l.Admissible) (offset : Nat) : Spells offset l.text.toList (l.tokensFrom offset) := by
  induction l generalizing offset with
  | last n =>
      rw [toList_text_last, ← List.append_nil (List.replicate n ' ')]
      exact .spaces n (.nil _)
  | token n k rest ih =>
      obtain ⟨hk, hrest, h⟩ := h
      rw [toList_text_token, tokensFrom, Kind.utf8ByteSize_text hk]
      exact .spaces n (.token hk ((mayPrecede_iff h k).mpr hrest) (ih h _))

def widen : Layout → Layout
  | last n => last (n + 1)
  | token n k rest => token (n + 1) k rest

theorem toList_text_widen (l : Layout) : l.widen.text.toList = ' ' :: l.text.toList := by
  cases l with
  | last n => rw [widen, toList_text_last, toList_text_last, List.replicate_succ]
  | token n k rest => rw [widen, toList_text_token, toList_text_token, List.replicate_succ, List.cons_append]

theorem tokensFrom_widen (l : Layout) (offset : Nat) : l.widen.tokensFrom offset = l.tokensFrom (offset + 1) := by
  cases l with
  | last n => rfl
  | token n k rest => simp only [widen, tokensFrom, Nat.add_right_comm offset 1, Nat.add_assoc]

theorem Admissible.widen (h : l.Admissible) : l.widen.Admissible := by
  cases l with
  | last n => exact trivial
  | token n k rest => exact h

theorem exists_of_spells (h : Spells offset cs ts) :
    ∃ l : Layout, l.Admissible ∧ l.text.toList = cs ∧ l.tokensFrom offset = ts := by
  induction h with
  | nil _ => exact ⟨last 0, trivial, rfl, rfl⟩
  | space _ ih =>
      obtain ⟨l, hl, rfl, rfl⟩ := ih
      exact ⟨l.widen, hl.widen, toList_text_widen l, tokensFrom_widen l _⟩
  | @token offset _ _ k hk hcs _ ih =>
      obtain ⟨l, hl, rfl, rfl⟩ := ih
      refine ⟨token 0 k l, ⟨hk, (mayPrecede_iff hl k).mp hcs, hl⟩, toList_text_token 0 k l, ?_⟩
      rw [tokensFrom, Nat.add_zero, Kind.utf8ByteSize_text hk]

/-! ## The gaps are the spaces between the tokens -/

theorem length_spaces (n : Nat) : (spaces n).length = n := by
  rw [spaces, String.length_ofList, List.length_replicate]

theorem utf8ByteSize_spaces (n : Nat) : (spaces n).utf8ByteSize = n := by
  rw [utf8ByteSize_of_utf8Size, length_spaces]
  intro c hc
  rw [toList_spaces] at hc
  rw [List.eq_of_mem_replicate hc]
  rfl

theorem spaces_inj {m n : Nat} (h : spaces m = spaces n) : m = n := by
  rw [← length_spaces m, h, length_spaces]

-- The spans fix all gaps but the last one, and the length of the text fixes that.
theorem eq_of_tokensFrom_eq (htext : l.text = l'.text) (htokens : l.tokensFrom offset = l'.tokensFrom offset) :
    l = l' := by
  induction l generalizing l' offset with
  | last n =>
      cases l' with
      | last n' => rw [spaces_inj htext]
      | token n' k' rest' => cases htokens
  | token n k rest ih =>
      cases l' with
      | last n' => cases htokens
      | token n' k' rest' =>
          obtain ⟨hhead, htail⟩ := List.cons.inj htokens
          have hk : k = k' := congrArg Token.kind hhead
          have hstart : offset + n = offset + n' := congrArg (fun t => t.span.start) hhead
          obtain rfl := Nat.add_left_cancel hstart
          subst hk
          rw [text, text, String.append_right_inj] at htext
          rw [ih htext htail]

/-- The part of the text that a span marks is the text of its token. -/
theorem exists_of_mem_tokensFrom {t : Token} (h : t ∈ l.tokensFrom offset) : ∃ before after,
    l.text = before ++ t.text ++ after ∧ offset + before.utf8ByteSize = t.span.start ∧
      offset + (before ++ t.text).utf8ByteSize = t.span.stop := by
  induction l generalizing offset with
  | last n => cases h
  | token n k rest ih =>
      rcases List.mem_cons.mp h with rfl | h
      · refine ⟨spaces n, rest.text, rfl, ?_, ?_⟩
        · rw [utf8ByteSize_spaces]
          rfl
        · rw [String.utf8ByteSize_append, utf8ByteSize_spaces, ← Nat.add_assoc]
          rfl
      · obtain ⟨before, after, htext, hstart, hstop⟩ := ih h
        refine ⟨spaces n ++ k.text ++ before, after, ?_, ?_, ?_⟩
        · simp only [text, htext, String.append_assoc]
        · simp only [String.utf8ByteSize_append, utf8ByteSize_spaces, ← Nat.add_assoc] at hstart ⊢
          exact hstart
        · simp only [String.utf8ByteSize_append, utf8ByteSize_spaces, ← Nat.add_assoc] at hstop ⊢
          exact hstop

end Layout

namespace Token

theorem scan_eq_ok_iff_exists_layout {text : String} {ts : List Token} : (scan text).result = .ok ts ↔
    ∃ l : Layout, l.Admissible ∧ l.text = text ∧ l.tokens = ts := by
  rw [scan_eq_ok_iff]
  constructor
  · intro h
    obtain ⟨l, hl, htext, htokens⟩ := Layout.exists_of_spells h
    exact ⟨l, hl, String.toList_inj.mp htext, htokens⟩
  · rintro ⟨l, hl, rfl, rfl⟩
    exact l.spells hl 0

/-- A text is split into tokens exactly if it has an admissible layout with these tokens at their places. No text
has two admissible layouts, and every span marks the text of its token. -/
theorem scan_eq_ok_iff_layout (text : String) :
    (∀ ts, (scan text).result = .ok ts ↔ ∃ l : Layout, l.Admissible ∧ l.text = text ∧ l.tokens = ts) ∧
    (∀ l l' : Layout, l.Admissible → l'.Admissible → l.text = text → l'.text = text → l = l') ∧
    ∀ ts, (scan text).result = .ok ts → ∀ t ∈ ts, ∃ before after, text = before ++ t.text ++ after ∧
      before.utf8ByteSize = t.span.start ∧ (before ++ t.text).utf8ByteSize = t.span.stop := by
  refine ⟨fun ts => scan_eq_ok_iff_exists_layout, ?_, ?_⟩
  · intro l l' hl hl' htext htext'
    have h := scan_eq_ok_iff_exists_layout.mpr ⟨l, hl, htext, rfl⟩
    have h' := scan_eq_ok_iff_exists_layout.mpr ⟨l', hl', htext', rfl⟩
    rw [h] at h'
    exact Layout.eq_of_tokensFrom_eq (htext.trans htext'.symm) (Except.ok.inj h')
  · intro ts h t ht
    obtain ⟨l, hl, rfl, rfl⟩ := scan_eq_ok_iff_exists_layout.mp h
    obtain ⟨before, after, htext, hstart, hstop⟩ := Layout.exists_of_mem_tokensFrom ht
    rw [Nat.zero_add] at hstart hstop
    exact ⟨before, after, htext, hstart, hstop⟩

end Token

end Propositional
