import Propositional.Proofs.Language.Emission
import Propositional.Proofs.Language.Spelling

/-!
# Spacing

Texts that are split into tokens of the same kinds differ in their spaces only (`Spells.filter_ne_space`), and they are
read alike (`Formula.read_alike`): as the same formula, or with errors that say the same about the tokens at the same
position. The two lists of tokens are compared through the positions that are emitted and reported, which depend on
the kinds alone.
-/

namespace Propositional

/-! ## Results about two lists of tokens -/

section

variable (ts ts' : List Token)

/-- Both errors miss the same side, and they point at the tokens of the two lists at the same position. -/
inductive Unbalanced.Alike : Unbalanced → Unbalanced → Prop where
  | missingLeft {i : Nat} {t t' : Token} : IsFirstOverclosing (ts.map Token.kind) i → ts[i]? = some t →
      ts'[i]? = some t' → Alike (.missingLeft t.span.start) (.missingLeft t'.span.start)
  | missingRight {i : Nat} {t t' : Token} : IsLastUnclosed (ts.map Token.kind) i → ts[i]? = some t →
      ts'[i]? = some t' → Alike (.missingRight t.span.start) (.missingRight t'.span.start)

/-- Both lists are put into postorder by the same positions, or both are refused alike. -/
inductive Token.OrderedAlike : Except Unbalanced (List Token) → Except Unbalanced (List Token) → Prop where
  | ok {positions : List Nat} {ordered ordered' : List Token} : IsEmission (ts.map kind) positions →
      positions.map (ts[·]?) = ordered.map some → positions.map (ts'[·]?) = ordered'.map some →
      OrderedAlike (.ok ordered) (.ok ordered')
  | error {e e' : Unbalanced} : e.Alike ts ts' e' → OrderedAlike (.error e) (.error e')

/-- Both lists are read as the same formula or refused for the same shape, or their parentheses are refused alike. -/
inductive Formula.ReadAlike : Except ReadError (Formula String) → Except ReadError (Formula String) → Prop where
  | ok (f : Formula String) : ReadAlike (.ok f) (.ok f)
  | shape (e : ShapeError) : ReadAlike (.error (.shape e)) (.error (.shape e))
  | unbalanced {e e' : Unbalanced} : e.Alike ts ts' e' → ReadAlike (.error (.unbalanced e)) (.error (.unbalanced e'))

end

/-! ## Tokens of the same kinds -/

namespace Token

variable {ts ts' ordered : List Token} {positions : List Nat}

theorem map_kind_of_positions (h : positions.map (ts[·]?) = ordered.map some) :
    (ordered.map kind).map some = positions.map ((ts.map kind)[·]?) := by
  have hkinds := congrArg (List.map (Option.map kind)) h
  rw [List.map_map, List.map_map] at hkinds
  simp only [List.getElem?_map, List.map_map]
  exact hkinds.symm

theorem orderedAlike (h : ts.map kind = ts'.map kind) :
    OrderedAlike ts ts' (reorder ts).result (reorder ts').result := by
  rcases balanced_or_exists (ts.map kind) with hb | hover | ⟨hover, hunclosed⟩
  · obtain ⟨positions, hpositions, hall⟩ := exists_positions hb
    obtain ⟨ordered, hordered, htokens⟩ := hall ts rfl
    obtain ⟨ordered', hordered', htokens'⟩ := hall ts' h.symm
    rw [hordered, hordered']
    exact .ok hpositions htokens htokens'
  · obtain ⟨i, hi, hall⟩ := exists_missingLeft hover
    obtain ⟨t, ht, herror⟩ := hall ts rfl
    obtain ⟨t', ht', herror'⟩ := hall ts' h.symm
    rw [herror, herror']
    exact .error (.missingLeft hi ht ht')
  · obtain ⟨i, hi, hall⟩ := exists_missingRight hover hunclosed
    obtain ⟨t, ht, herror⟩ := hall ts rfl
    obtain ⟨t', ht', herror'⟩ := hall ts' h.symm
    rw [herror, herror']
    exact .error (.missingRight hi ht ht')

end Token

/-! ## Texts without their spaces -/

theorem Kind.Proper.filter_text {k : Kind} (hk : k.Proper) : k.text.toList.filter (· ≠ ' ') = k.text.toList := by
  cases k with
  | leftParen | rightParen => rfl
  | operator op =>
      cases op with
      | not => rfl
      | binary c => cases c <;> rfl
  | var name =>
      refine List.filter_eq_self.mpr fun c hc => decide_eq_true ?_
      rintro rfl
      exact absurd (hk.2 _ hc) (by decide)

/-- Without its spaces, a text is the texts of its tokens. -/
theorem Spells.filter_ne_space {offset : Nat} {cs : List Char} {ts : List Token} (h : Spells offset cs ts) :
    cs.filter (· ≠ ' ') = (ts.map Token.kind).flatMap fun k => k.text.toList := by
  induction h with
  | nil _ => rfl
  | space _ ih => rwa [List.filter_cons_of_neg (by decide)]
  | token hk _ _ ih =>
      rw [List.filter_append, hk.filter_text, ih, List.map_cons, List.flatMap_cons]
      rfl

/-! ## Reading -/

namespace Formula

open Token

variable {ts ts' : List Token}

theorem ofTokens_alike (h : ts.map kind = ts'.map kind) : ReadAlike ts ts' (ofTokens ts) (ofTokens ts') := by
  have halike := orderedAlike h
  unfold ofTokens
  generalize (reorder ts).result = r, (reorder ts').result = r' at halike
  cases halike with
  | error he => exact .unbalanced he
  | @ok positions ordered ordered' _ htokens htokens' =>
      have hkinds : ordered.map kind = ordered'.map kind := by
        refine (List.map_inj_right fun _ _ => Option.some.inj).mp ?_
        rw [map_kind_of_positions htokens, map_kind_of_positions htokens', h]
      show ReadAlike ts ts' ((ofPostorder (ordered.map kind)).mapError .shape)
        ((ofPostorder (ordered'.map kind)).mapError .shape)
      rw [hkinds]
      cases ofPostorder (ordered'.map kind) with
      | ok f => exact .ok f
      | error e => exact .shape e

theorem result_read_of_scan {text : String} (h : (scan text).result = .ok ts) :
    (read text).result = ofTokens ts := by
  rw [result_read, h]
  rfl

/-- What is done with tokens depends on their kinds alone, and where they stand only tells how a parenthesis without a
partner is reported. So texts of the same kinds, which differ in their spaces, are read alike. -/
theorem read_alike (h : ts.map kind = ts'.map kind) :
    OrderedAlike ts ts' (reorder ts).result (reorder ts').result ∧
    ofPostorder (ts.map kind) = ofPostorder (ts'.map kind) ∧
    ∀ text text', (scan text).result = .ok ts → (scan text').result = .ok ts' →
      text.toList.filter (· ≠ ' ') = text'.toList.filter (· ≠ ' ') ∧
        ReadAlike ts ts' (read text).result (read text').result := by
  refine ⟨orderedAlike h, by rw [h], fun text text' hscan hscan' => ⟨?_, ?_⟩⟩
  · rw [(scan_eq_ok_iff.mp hscan).filter_ne_space, (scan_eq_ok_iff.mp hscan').filter_ne_space, h]
  · rw [result_read_of_scan hscan, result_read_of_scan hscan']
    exact ofTokens_alike h

/-- The parenthesis that is never closed stands at another offset when there are more spaces. -/
theorem read_alike_unclosed :
    let ts : List Token := [.startingAt (.operator .not) 0, .startingAt .leftParen 4, .startingAt (.var "a") 5]
    let ts' : List Token := [.startingAt (.operator .not) 2, .startingAt .leftParen 7, .startingAt (.var "a") 9]
    ts.map kind = ts'.map kind ∧
      OrderedAlike ts ts' (reorder ts).result (reorder ts').result ∧
      ofPostorder (ts.map kind) = ofPostorder (ts'.map kind) ∧
      "NOT (a".toList.filter (· ≠ ' ') = "  NOT  ( a".toList.filter (· ≠ ' ') ∧
      ReadAlike ts ts' (read "NOT (a").result (read "  NOT  ( a").result := by
  intro ts ts'
  have hkinds : ts.map kind = ts'.map kind := rfl
  have hscan : (scan "NOT (a").result = .ok ts := by decide +kernel
  have hscan' : (scan "  NOT  ( a").result = .ok ts' := by decide +kernel
  obtain ⟨hordered, hbuilt, hread⟩ := read_alike hkinds
  exact ⟨hkinds, hordered, hbuilt, hread _ _ hscan hscan'⟩

end Formula

end Propositional
