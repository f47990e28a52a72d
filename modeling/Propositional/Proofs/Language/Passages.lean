import Propositional.Proofs.Language.Layout

/-!
# Passages

A scan passes over a part of the text and goes on in the rest (`Cursor.Passes`). What is found on the way depends on
the rest only through what may follow a token, so the same part can be passed with another text behind it
(`Passes.exists_front`).
-/

namespace Propositional

namespace Kind

variable {k : Kind} {front rest rest' : List Char}

theorem MayPrecede.of_head? (h : k.MayPrecede rest) (hhead : rest.head? = rest'.head?) : k.MayPrecede rest' := by
  cases k with
  | operator op | var name =>
      simp only [MayPrecede, EndsName] at h ⊢
      rwa [← hhead]
  | leftParen | rightParen => exact trivial

theorem MayPrecede.replace (h : k.MayPrecede (front ++ rest)) (hrest : k.MayPrecede rest → k.MayPrecede rest') :
    k.MayPrecede (front ++ rest') := by
  cases front with
  | nil => exact hrest h
  | cons c front => exact h.of_head? rfl

theorem mayPrecede_space (k : Kind) (cs : List Char) : k.MayPrecede (' ' :: cs) := by
  cases k with
  | operator op => exact rfl
  | var name => exact .inr (.inl rfl)
  | leftParen | rightParen => exact trivial

/-- Only an operator needs what follows it to be there. -/
theorem mayPrecede_nil (h : k.operator? = none) : k.MayPrecede [] := by
  cases k with
  | operator op => cases h
  | var name => exact .inl rfl
  | leftParen | rightParen => exact trivial

theorem MayPrecede.nil (h : k.MayPrecede rest) (hrest : rest.head? ≠ some ' ') : k.MayPrecede [] := by
  cases k with
  | operator op => exact (hrest h).elim
  | var _ | leftParen | rightParen => exact mayPrecede_nil rfl

end Kind

/-- The same scan with more tokens in front. -/
def Scan.after (ts : List Token) (s : Scan) : Scan := ⟨ts ++ s.tokens, s.failure⟩

namespace Cursor

/-- The tokens are found on the way from the first cursor to the second one. -/
inductive Passes : Cursor → List Token → Cursor → Prop where
  | refl (c) : Passes c [] c
  | space {offset rest ts c} : Passes ⟨offset + 1, rest⟩ ts c → Passes ⟨offset, ' ' :: rest⟩ ts c
  | token {offset rest ts c} {k : Kind} : k.Proper → k.MayPrecede rest →
      Passes ⟨offset + k.text.length, rest⟩ ts c →
      Passes ⟨offset, k.text.toList ++ rest⟩ (.startingAt k offset :: ts) c

variable {c c' c'' : Cursor} {ts ts' : List Token} {offset offset' : Nat} {cs rest : List Char}

theorem Passes.trans (h : Passes c ts c') (h' : Passes c' ts' c'') : Passes c (ts ++ ts') c'' := by
  induction h with
  | refl _ => exact h'
  | space _ ih => exact .space (ih h')
  | token hk hrest _ ih => exact .token hk hrest (ih h')

theorem passes_spaces (n : Nat) : Passes ⟨offset, List.replicate n ' ' ++ rest⟩ [] ⟨offset + n, rest⟩ := by
  induction n generalizing offset with
  | zero => exact .refl _
  | succ n ih =>
      rw [List.replicate_succ, List.cons_append, Nat.add_comm n 1, ← Nat.add_assoc]
      exact .space ih

theorem passes_text {k : Kind} (hk : k.Proper) (hrest : k.MayPrecede rest) :
    Passes ⟨offset, k.text.toList ++ rest⟩ [.startingAt k offset] ⟨offset + k.text.length, rest⟩ :=
  .token hk hrest (.refl _)

theorem passes_of_next {t : Token} (h : c.next = (.token t, c')) : Passes c [t] c' := by
  obtain ⟨offset, cs⟩ := c
  obtain ⟨n, k, rest, rfl, hk, hrest, rfl, rfl⟩ := exists_of_next h
  exact (passes_spaces n).trans (passes_text hk hrest)

theorem exists_passes_next (c : Cursor) : ∃ ts, Passes c ts c.next.2 := by
  obtain ⟨found, c', hnext⟩ : ∃ found c', c.next = (found, c') := ⟨_, _, rfl⟩
  rw [hnext]
  by_cases hfound : ∃ t, found = .token t
  · obtain ⟨t, rfl⟩ := hfound
    exact ⟨[t], passes_of_next hnext⟩
  · -- Without a token only the spaces are skipped.
    obtain ⟨offset, cs⟩ := c
    obtain ⟨n, rest, rfl, hrest⟩ := exists_spaces cs
    rw [next, skipSpaces_spaces n hrest, take] at hnext
    split at hnext
    case h_1 =>
      cases hnext
      exact (hfound ⟨_, rfl⟩).elim
    case h_2 =>
      cases hnext
      exact ⟨[], passes_spaces n⟩

/-- A scan goes on behind a passage as it does from there. -/
theorem Passes.scan (h : Passes c ts c') : c.scan = c'.scan.after ts := by
  induction h with
  | refl _ => rfl
  | space _ ih => rw [scan_space, ih]
  | token hk hrest _ ih =>
      rw [scan_of_next (next_of_spelled hk hrest), ih]
      rfl

/-- Every token that is found takes the cursor on. -/
theorem Passes.offset_add_length_le (h : Passes c ts c') : c.offset + ts.length ≤ c'.offset := by
  induction h with
  | refl _ => exact Nat.le_refl _
  | space _ ih =>
      simp only at ih ⊢
      omega
  | @token offset _ _ _ k hk _ _ ih =>
      have hpos := hk.length_pos
      simp only [List.length_cons] at ih ⊢
      omega

/-! ## Passages to the end of the text -/

theorem passes_of_spells (h : Spells offset cs ts) : Passes ⟨offset, cs⟩ ts ⟨offset + cs.length, []⟩ := by
  induction h with
  | nil _ => exact .refl _
  | space _ ih =>
      rw [List.length_cons, Nat.add_comm _ 1, ← Nat.add_assoc]
      exact .space ih
  | token hk hrest _ ih =>
      rw [List.length_append, String.length_toList, ← Nat.add_assoc]
      exact .token hk hrest ih

theorem Passes.spells (h : Passes c ts c') (h' : Spells c'.offset c'.rest ts') :
    Spells c.offset c.rest (ts ++ ts') := by
  induction h with
  | refl _ => exact h'
  | space _ ih => exact .space (ih h')
  | token hk hrest _ ih => exact .token hk hrest (ih h')

/-! ## The part that is passed -/

/-- The part that is passed has as many bytes as characters, and the same tokens are found in it when another rest
follows, provided that no token minds. -/
theorem Passes.exists_front (h : Passes ⟨offset, cs⟩ ts ⟨offset', rest⟩) : ∃ front, cs = front ++ rest ∧
    offset' = offset + front.length ∧ String.utf8Len front = front.length ∧
      ∀ rest', (∀ k : Kind, k.MayPrecede rest → k.MayPrecede rest') →
        Passes ⟨offset, front ++ rest'⟩ ts ⟨offset', rest'⟩ := by
  generalize hstart : (⟨offset, cs⟩ : Cursor) = c, hend : (⟨offset', rest⟩ : Cursor) = c' at h
  induction h generalizing offset cs with
  | refl _ =>
      subst hend
      cases hstart
      exact ⟨[], rfl, rfl, rfl, fun rest' _ => .refl _⟩
  | space _ ih =>
      cases hstart
      obtain ⟨front, rfl, rfl, hbytes, hreplace⟩ := ih rfl hend
      refine ⟨' ' :: front, rfl, ?_, ?_, fun rest' hrest' => .space (hreplace rest' hrest')⟩
      · rw [List.length_cons, Nat.add_comm front.length, Nat.add_assoc]
      · rw [String.utf8Len_cons, hbytes, List.length_cons]
        rfl
  | @token _ _ _ _ k hk hfollow _ ih =>
      cases hstart
      obtain ⟨front, rfl, rfl, hbytes, hreplace⟩ := ih rfl hend
      refine ⟨k.text.toList ++ front, (List.append_assoc _ _ _).symm, ?_, ?_, fun rest' hrest' => ?_⟩
      · rw [List.length_append, String.length_toList, Nat.add_assoc]
      · rw [String.utf8Len_append, hbytes, List.length_append, String.length_toList, ← Kind.utf8ByteSize_text hk,
          ← String.utf8ByteSize_ofList, String.ofList_toList]
      · rw [List.append_assoc]
        exact .token hk (hfollow.replace (hrest' k)) (hreplace rest' hrest')

end Cursor

end Propositional
