import Mathlib.Data.List.Chain
import Propositional.Language.Postorder

/-!
# Grammars of formulas

Which lists of kinds are formulas (`Phrase.Derives`), and which formula each of them is (`Rank.Derives`). The
first grammar knows no priorities; the second one has a rank for each of them and gives the tree.

In a list of the first grammar any two neighbours fit together (`WellPlaced`). This alone tells the formulas
from other lists once it is known that the parentheses are balanced.
-/

namespace Propositional

/-! ## Formulas without priorities -/

/-- The phrases of the grammar without priorities. -/
inductive Phrase where
  | term
  | expression
  deriving DecidableEq

/-- An expression is a sequence of terms with a connective between any two of them. A term is a variable, a
negated term or an expression in parentheses. -/
inductive Phrase.Derives : Phrase → List Kind → Prop where
  | var (name : String) : Derives .term [.var name]
  | not {ks} : Derives .term ks → Derives .term (.operator .not :: ks)
  | parens {ks} : Derives .expression ks → Derives .term (.leftParen :: ks ++ [.rightParen])
  | single {ks} : Derives .term ks → Derives .expression ks
  | more {ks ks'} (c : Connective) : Derives .expression ks → Derives .term ks' →
      Derives .expression (ks ++ .operator (.binary c) :: ks')

theorem Phrase.Derives.append {ks ks' : List Kind} (c : Connective) (h : Derives .expression ks)
    (h' : Derives .expression ks') : Derives .expression (ks ++ .operator (.binary c) :: ks') := by
  generalize hp : Phrase.expression = p at h'
  induction h' with
  | var _ | not _ _ | parens _ _ => cases hp
  | single ht _ => exact .more c h ht
  | more d _ ht ih _ =>
      have := Derives.more d (ih hp) ht
      simpa only [List.append_assoc, List.cons_append] using this

/-! ## Formulas with priorities -/

/-- The ranks of formulas, from the tightest to the loosest. -/
inductive Rank where
  | term
  | chain
  | expression
  deriving DecidableEq

/-- The lists of each rank, with the formula that each of them is. Conjunctions and disjunctions make chains
and group to the left; implications are looser and group to the right. Parentheses leave no trace in the
formula. -/
inductive Rank.Derives : Rank → List Kind → Formula String → Prop where
  | var (name : String) : Derives .term [.var name] (.var name)
  | not {ks f} : Derives .term ks f → Derives .term (.operator .not :: ks) (.not f)
  | parens {ks f} : Derives .expression ks f → Derives .term (.leftParen :: ks ++ [.rightParen]) f
  | single {ks f} : Derives .term ks f → Derives .chain ks f
  | more {ks ks' f g} {c : Connective} (hc : c ≠ .implies) : Derives .chain ks f →
      Derives .term ks' g → Derives .chain (ks ++ .operator (.binary c) :: ks') (.binary c f g)
  | last {ks f} : Derives .chain ks f → Derives .expression ks f
  | implies {ks ks' f g} : Derives .chain ks f → Derives .expression ks' g →
      Derives .expression (ks ++ .operator (.binary .implies) :: ks') (.binary .implies f g)

theorem Rank.Derives.exists_append {ks ks' : List Kind} {f g : Formula String} (c : Connective)
    (h : Derives .expression ks f) (h' : Derives .term ks' g) :
    ∃ f', Derives .expression (ks ++ .operator (.binary c) :: ks') f' := by
  generalize hr : Rank.expression = r at h
  induction h with
  | var _ | not _ _ | parens _ _ | single _ _ | more _ _ _ _ _ => cases hr
  | last hchain _ =>
      by_cases hc : c = .implies
      · subst hc
        exact ⟨_, .implies hchain (.last (.single h'))⟩
      · exact ⟨_, .last (.more hc hchain h')⟩
  | implies hchain _ _ ih =>
      obtain ⟨f', hf'⟩ := ih hr
      have := Rank.Derives.implies hchain hf'
      exact ⟨_, by simpa only [List.append_assoc, List.cons_append] using this⟩

/-- The loosest rank of a phrase. -/
def Phrase.rank : Phrase → Rank
  | .term => .term
  | .expression => .expression

/-- Priorities leave no formula out. -/
theorem Phrase.Derives.exists_rank {p : Phrase} {ks : List Kind} (h : p.Derives ks) :
    ∃ f, p.rank.Derives ks f := by
  induction h with
  | var name => exact ⟨_, .var name⟩
  | not _ ih =>
      obtain ⟨f, hf⟩ := ih
      exact ⟨_, .not hf⟩
  | parens _ ih =>
      obtain ⟨f, hf⟩ := ih
      exact ⟨f, .parens hf⟩
  | single _ ih =>
      obtain ⟨f, hf⟩ := ih
      exact ⟨f, .last (.single hf)⟩
  | more c _ _ ih ih' =>
      obtain ⟨f, hf⟩ := ih
      obtain ⟨g, hg⟩ := ih'
      exact hf.exists_append c hg

/-! ## Neighbours -/

namespace Kind

/-- Whether an operand can begin here. -/
def opens : Kind → Bool
  | .var _ | .operator .not | .leftParen => true
  | .operator (.binary _) | .rightParen => false

/-- Whether an operand can end here. -/
def closes : Kind → Bool
  | .var _ | .rightParen => true
  | .operator _ | .leftParen => false

/-- Whether the second kind may stand directly behind the first: a new operand begins exactly where none has
just ended. -/
def Fits (k k' : Kind) : Prop := k'.opens = !k.closes

instance (k k' : Kind) : Decidable (Fits k k') := inferInstanceAs (Decidable (_ = _))

end Kind

open Kind in
/-- In parentheses, any two neighbours of the list fit together. -/
def WellPlaced (ks : List Kind) : Prop := (leftParen :: (ks ++ [rightParen])).IsChain Fits

instance (ks : List Kind) : Decidable (WellPlaced ks) := inferInstanceAs (Decidable (List.IsChain _ _))

namespace WellPlaced

variable {ks ks' : List Kind}

/-- Any two kinds that leave an operand open on both sides can stand for the parentheses. -/
theorem isChain_iff (k k' : Kind) (hk : k.closes = false) (hk' : k'.opens = false) :
    (k :: (ks ++ [k'])).IsChain Kind.Fits ↔ WellPlaced ks := by
  have hl (x : Kind) : Kind.Fits k x ↔ Kind.Fits .leftParen x := by
    rw [Kind.Fits, Kind.Fits, hk]; rfl
  have hr (x : Kind) : Kind.Fits x k' ↔ Kind.Fits x .rightParen := by
    rw [Kind.Fits, Kind.Fits, hk']; rfl
  simp only [WellPlaced, List.isChain_cons, List.isChain_append]
  cases ks <;> simp [hl, hr]

theorem not_nil : ¬WellPlaced [] := by decide

theorem var (name : String) : WellPlaced [.var name] := by
  simp [WellPlaced, Kind.Fits, Kind.opens, Kind.closes]

theorem not_iff : WellPlaced (.operator .not :: ks) ↔ WellPlaced ks := by
  have h : (Kind.operator .not :: (ks ++ [.rightParen])).IsChain Kind.Fits ↔ WellPlaced ks :=
    isChain_iff _ _ rfl rfl
  rw [← h, WellPlaced, List.cons_append, List.isChain_cons_cons]
  simp [Kind.Fits, Kind.opens, Kind.closes]

theorem connective_iff (c : Connective) :
    WellPlaced (ks ++ .operator (.binary c) :: ks') ↔ WellPlaced ks ∧ WellPlaced ks' := by
  have hl : (Kind.leftParen :: (ks ++ [.operator (.binary c)])).IsChain Kind.Fits ↔ WellPlaced ks :=
    isChain_iff _ _ rfl rfl
  have hr : (Kind.operator (.binary c) :: (ks' ++ [.rightParen])).IsChain Kind.Fits ↔ WellPlaced ks' :=
    isChain_iff _ _ rfl rfl
  rw [← hl, ← hr, WellPlaced, List.append_assoc, List.cons_append, ← List.cons_append,
    List.isChain_split, List.cons_append]

theorem parens_iff : WellPlaced (.leftParen :: ks ++ .rightParen :: ks') ↔
    WellPlaced ks ∧ (Kind.rightParen :: (ks' ++ [.rightParen])).IsChain Kind.Fits := by
  rw [WellPlaced, List.cons_append, List.cons_append, List.isChain_cons_cons, List.append_assoc,
    List.cons_append, ← List.cons_append, List.isChain_split, List.cons_append]
  simp [WellPlaced, Kind.Fits, Kind.opens, Kind.closes]

end WellPlaced

/-- In a formula all neighbours fit together. -/
theorem Phrase.Derives.wellPlaced {p : Phrase} {ks : List Kind} (h : p.Derives ks) : WellPlaced ks := by
  induction h with
  | var name => exact WellPlaced.var name
  | not _ ih => exact WellPlaced.not_iff.mpr ih
  | parens _ ih => exact WellPlaced.parens_iff.mpr ⟨ih, by decide⟩
  | single _ ih => exact ih
  | more c _ _ ih ih' => exact (WellPlaced.connective_iff c).mpr ⟨ih, ih'⟩

end Propositional
