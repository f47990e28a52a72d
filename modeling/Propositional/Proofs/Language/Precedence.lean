import Propositional.Proofs.Language.Grammar
import Propositional.Proofs.Language.Operands

/-!
# Priorities and grouping

A list that the grammar with priorities derives is put into postorder and read as the formula of its
derivation. Each rank of the grammar adds its formula to whatever operands are finished before it, so the
stacks may hold anything when a phrase begins.
-/

namespace Propositional

/-- Reading the list adds the formula to any finished operands. A chain may go on, so its stretches and
connectives are the beginning of a group. -/
def Rank.Adds : Rank → List Kind → Formula String → Prop
  | .term, ks, f => ∀ operands, Part.stretch.Resolves operands ks (f :: operands)
  | .chain, ks, f => ∀ operands ks' operands', Part.rest.Resolves (f :: operands) ks' operands' →
      Part.group.Resolves operands (ks ++ ks') operands'
  | .expression, ks, f => ∀ operands, Part.group.Resolves operands ks (f :: operands)

theorem Rank.Derives.adds {rank : Rank} {ks : List Kind} {f : Formula String} (h : rank.Derives ks f) :
    rank.Adds ks f := by
  induction h with
  | var name => exact fun operands => .var (.nil _)
  | not _ ih => exact fun operands => .not (ih operands)
  | parens _ ih => exact fun operands => .parens (ih operands) (.nil _)
  | single _ ih => exact fun operands _ _ hrest => .group (ih operands) hrest
  | more hc _ _ ih ih' =>
      intro operands ks'' operands' hrest
      have hmore := Part.Resolves.more hc (ih' (_ :: operands)) hrest
      have := ih operands _ _ hmore
      simpa only [List.append_assoc, List.cons_append] using this
  | last _ ih =>
      intro operands
      have := ih operands [] _ (.stop _)
      rwa [List.append_nil] at this
  | implies _ _ ih ih' =>
      intro operands
      exact ih operands _ _ (.implies (ih' (_ :: operands)))

namespace Token

/-- Tokens that are an expression with priorities are put into postorder, and the formula built from that is
the one of the derivation. -/
theorem ofPostorder_reorder_of_derives {ts : List Token} {f : Formula String}
    (h : Rank.expression.Derives (ts.map kind) f) : ∃ ordered, (reorder ts).result = .ok ordered ∧
      Formula.ofPostorder (ordered.map kind) = .ok f :=
  Reordering.leaves_iff.mp (Reordering.leaves_of_resolves (h.adds []))

/-- The text `a AND NOT b -> (c -> d OR e)` mixes all priorities. -/
theorem ofPostorder_reorder_of_mixed_priorities :
    let ts : List Token := [.startingAt (.var "a") 0, .startingAt (.operator (.binary .and)) 2,
      .startingAt (.operator .not) 6, .startingAt (.var "b") 10,
      .startingAt (.operator (.binary .implies)) 12, .startingAt .leftParen 15, .startingAt (.var "c") 16,
      .startingAt (.operator (.binary .implies)) 18, .startingAt (.var "d") 21,
      .startingAt (.operator (.binary .or)) 23, .startingAt (.var "e") 26, .startingAt .rightParen 27]
    let f : Formula String := .binary .implies (.binary .and (.var "a") (.not (.var "b")))
      (.binary .implies (.var "c") (.binary .or (.var "d") (.var "e")))
    Rank.expression.Derives (ts.map kind) f ∧ ∃ ordered, (reorder ts).result = .ok ordered ∧
      Formula.ofPostorder (ordered.map kind) = .ok f := by
  intro ts f
  have hleft := Rank.Derives.more (show Connective.and ≠ .implies by decide) (.single (.var "a"))
    (.not (.var "b"))
  have hinner := Rank.Derives.more (show Connective.or ≠ .implies by decide) (.single (.var "d")) (.var "e")
  have hright := Rank.Derives.parens (.implies (.single (.var "c")) (.last hinner))
  have h : Rank.expression.Derives (ts.map kind) f := Rank.Derives.implies hleft (.last (.single hright))
  exact ⟨h, ofPostorder_reorder_of_derives h⟩

end Token

end Propositional
