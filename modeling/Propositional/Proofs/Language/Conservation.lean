import Propositional.Proofs.Language.Acceptance

/-!
# No token is lost

Reordering emits every token but the parentheses, each once (`Token.perm_of_reorder`), and the formula built from
the emitted tokens has them as its postorder (`Formula.Builds.listing_eq`). So a formula that is read from a text
has one node for each of these tokens.
-/

namespace Propositional

/-! ## Tokens on the stack of pending operators -/

def Token.withoutParens (ts : List Token) : List Token := ts.filter fun t => !t.kind.isParen

theorem Token.withoutParens_of_isParen {t : Token} (ht : t.kind.isParen = true) : withoutParens [t] = [] := by
  simp [withoutParens, ht]

theorem Token.withoutParens_of_not_isParen {t : Token} (ht : t.kind.isParen = false) : withoutParens [t] = [t] := by
  simp [withoutParens, ht]

namespace Pending

variable {stack stack' top : List Pending} {t : Token} {ts : List Token} {moves : List Move}

/-- The waiting tokens that will be emitted, the top one first. -/
def emittable (stack : List Pending) : List Token := Token.withoutParens (stack.map token)

theorem emittable_append (stack stack' : List Pending) :
    emittable (stack ++ stack') = emittable stack ++ emittable stack' := by
  simp [emittable, Token.withoutParens]

theorem emittable_paren (span : Span) (stack : List Pending) :
    emittable (.paren span :: stack) = emittable stack := rfl

theorem emittable_operator (op : Operator) (span : Span) (stack : List Pending) :
    emittable (.operator op span :: stack) = ⟨.operator op, span⟩ :: emittable stack := rfl

theorem token_operator {op : Operator} (hk : t.kind = .operator op) : (operator op t.span).token = t := by
  rw [token, ← hk]

theorem map_token_emit (cause : Cause) (htop : ∀ p ∈ top, p.isOperator) :
    (Move.emit cause top).map Move.token = emittable top := by
  have hall : ∀ t ∈ top.map token, (!t.kind.isParen) = true := by
    intro t ht
    obtain ⟨p, hp, rfl⟩ := List.mem_map.mp ht
    cases p with
    | paren _ => cases htop _ hp
    | operator _ _ => rfl
  rw [emittable, Token.withoutParens, List.filter_eq_self.mpr hall]
  simp [Move.emit]

/-- What a step emits and what waits after it are what waited before it and the new token. -/
theorem Takes.perm (h : Takes stack t moves stack') :
    (moves.map Move.token ++ emittable stack').Perm (emittable stack ++ Token.withoutParens [t]) := by
  cases h with
  | var _ hk =>
      rw [Token.withoutParens_of_not_isParen (by rw [hk]; rfl)]
      exact List.perm_append_comm
  | leftParen _ hk =>
      rw [Token.withoutParens_of_isParen (by rw [hk]; rfl), List.append_nil]
      exact .refl _
  | rightParen _ _ hk htop =>
      rw [Token.withoutParens_of_isParen (by rw [hk]; rfl), List.append_nil, map_token_emit _ htop,
        emittable_append, emittable_paren]
  | not _ hk =>
      rw [Token.withoutParens_of_not_isParen (by rw [hk]; rfl), ← token_operator hk, emittable_operator]
      exact (List.perm_append_singleton _ _).symm
  | @connective _ _ top _ hk htop _ =>
      have hop : ∀ p ∈ top, p.isOperator := fun p hp => isOperator_of_isTight (htop p hp)
      rw [Token.withoutParens_of_not_isParen (by rw [hk]; rfl), ← token_operator hk, map_token_emit _ hop,
        emittable_operator, emittable_append, List.append_assoc]
      exact (List.perm_append_singleton _ _).symm.append_left _

theorem Steps.perm (h : Steps stack ts moves stack') :
    (moves.map Move.token ++ emittable stack').Perm (emittable stack ++ Token.withoutParens ts) := by
  induction h with
  | nil stack =>
      rw [Token.withoutParens, List.filter_nil, List.append_nil]
      exact .refl _
  | @cons stack stack' stack'' t ts moves moves' hstep _ ih =>
      have hts : Token.withoutParens (t :: ts) = Token.withoutParens [t] ++ Token.withoutParens ts :=
        List.filter_append [t] ts
      have hfirst := (step_eq_ok_iff.mp hstep).perm.append_right (Token.withoutParens ts)
      rw [List.append_assoc, List.append_assoc] at hfirst
      rw [List.map_append, List.append_assoc, hts]
      exact (ih.append_left _).trans hfirst

end Pending

/-- The tokens in postorder are those of the text without the parentheses, each as often as it was there. -/
theorem Token.perm_of_reorder {ts ordered : List Token} (h : (reorder ts).result = .ok ordered) :
    ordered.Perm (withoutParens ts) := by
  obtain ⟨moves, top, hsteps, htop, rfl⟩ := result_reorder_eq_ok_iff.mp h
  rw [List.map_append, Pending.map_token_emit _ htop]
  exact hsteps.perm

theorem Token.mem_of_reorder_iff {ts ordered : List Token} {t : Token} (h : (reorder ts).result = .ok ordered) :
    t ∈ ordered ↔ t ∈ ts ∧ t.kind.isParen = false := by
  rw [(perm_of_reorder h).mem_iff, withoutParens, List.mem_filter, Bool.not_eq_true']

theorem Token.map_kind_withoutParens (ts : List Token) :
    (withoutParens ts).map kind = (ts.map kind).filter fun k => !k.isParen := by
  rw [List.filter_map]
  rfl

/-! ## Tokens as nodes -/

namespace Formula

/-- The postorders of finished operands, that of the last operand at the end. -/
def listing (operands : List (Formula String)) : List Kind := operands.reverse.flatMap postorder

theorem listing_cons (f : Formula String) (operands : List (Formula String)) :
    listing (f :: operands) = listing operands ++ f.postorder := by
  simp [listing]

theorem listing_push {operands operands' : List (Formula String)} {k : Kind}
    (h : push operands k = .ok operands') : listing operands' = listing operands ++ [k] := by
  cases k with
  | var name =>
      cases h
      exact listing_cons _ _
  | leftParen | rightParen => cases h
  | operator op =>
      cases op with
      | not =>
          cases operands with
          | nil => cases h
          | cons f below =>
              cases h
              rw [listing_cons, listing_cons, postorder, List.append_assoc]
      | binary c =>
          obtain ⟨l, r, below, rfl, rfl⟩ := push_binary_eq_ok_iff.mp h
          simp only [listing_cons, postorder, List.append_assoc]

/-- The finished operands list exactly the kinds that they were built from. -/
theorem Builds.listing_eq {operands operands' : List (Formula String)} {ks : List Kind}
    (h : Builds operands ks operands') : listing operands' = listing operands ++ ks := by
  induction ks generalizing operands with
  | nil => rw [builds_nil_iff.mp h, List.append_nil]
  | cons k ks ih =>
      obtain ⟨between, hk, hks⟩ := builds_cons_iff.mp h
      rw [ih hks, listing_push hk, List.append_assoc, List.singleton_append]

theorem postorder_of_ofPostorder {ks : List Kind} {f : Formula String} (h : ofPostorder ks = .ok f) :
    f.postorder = ks := by
  have hlist := (ofPostorder_eq_ok_iff.mp h).listing_eq
  simpa [listing] using hlist

/-- A formula that is read has one node for each token of the text that is no parenthesis. -/
theorem postorder_perm_of_read {text : String} {f : Formula String} {ts : List Token}
    (h : (read text).result = .ok f) (hts : (Token.scan text).result = .ok ts) :
    f.postorder.Perm ((Token.withoutParens ts).map Token.kind) := by
  obtain ⟨ordered, hordered, hf⟩ :=
    Reordering.leaves_iff.mp (Reordering.leaves_of_resolves (resolves_of_read h hts))
  rw [postorder_of_ofPostorder hf]
  exact (Token.perm_of_reorder hordered).map _

/-! ## The number of nodes -/

variable {α : Type}

def size : Formula α → Nat
  | .var _ => 1
  | .not f => f.size + 1
  | .binary _ l r => l.size + r.size + 1

def countOperator (op : Operator) : Formula α → Nat
  | .var _ => 0
  | .not f => f.countOperator op + if .not = op then 1 else 0
  | .binary c l r => l.countOperator op + r.countOperator op + if .binary c = op then 1 else 0

theorem length_postorder (f : Formula String) : f.postorder.length = f.size := by
  induction f with
  | var name => rfl
  | not f ih => rw [postorder, List.length_append, ih]; rfl
  | binary c l r ihl ihr => rw [postorder, List.length_append, List.length_append, ihl, ihr]; rfl

theorem count_postorder (op : Operator) (f : Formula String) :
    f.postorder.count (.operator op) = f.countOperator op := by
  induction f with
  | var name => rfl
  | not f ih =>
      rw [postorder, List.count_append, ih, countOperator, List.count_singleton]
      simp only [beq_iff_eq, Kind.operator.injEq]
  | binary c l r ihl ihr =>
      rw [postorder, List.count_append, List.count_append, ihl, ihr, countOperator, List.count_singleton]
      simp only [beq_iff_eq, Kind.operator.injEq]

theorem size_of_read {text : String} {f : Formula String} {ts : List Token}
    (h : (read text).result = .ok f) (hts : (Token.scan text).result = .ok ts) :
    f.size = (Token.withoutParens ts).length := by
  rw [← length_postorder, (postorder_perm_of_read h hts).length_eq, List.length_map]

theorem countOperator_of_read {text : String} {f : Formula String} {ts : List Token} (op : Operator)
    (h : (read text).result = .ok f) (hts : (Token.scan text).result = .ok ts) :
    f.countOperator op = (ts.map Token.kind).count (.operator op) := by
  rw [← count_postorder, (postorder_perm_of_read h hts).count_eq, Token.map_kind_withoutParens, List.count_filter rfl]

end Formula

end Propositional
