import Propositional.Journal

/-!
# Putting tokens into postorder

Tokens in the order of a text are rearranged so that every operator follows its operands. Operators and open
parentheses wait on a stack until they are complete; parentheses are dropped.

The moves of a reordering are kept with their causes, so that what it emits, what it writes into the journal
and why each operator left the stack can be read off one and the same run.
-/

namespace Propositional

/-- A parenthesis without a partner, at the offset where it starts. -/
inductive Unbalanced where
  /-- A right parenthesis has no left one before it. -/
  | missingLeft (offset : Nat)
  /-- A left parenthesis is never closed. -/
  | missingRight (offset : Nat)
  deriving DecidableEq

def Unbalanced.message : Unbalanced → String
  | .missingLeft offset => s!"Left parenthesis not found at {offset}"
  | .missingRight offset => s!"Unexpected left parenthesis at {offset}"

/-- What waits on the stack: an open parenthesis, or an operator whose operands are not complete. -/
inductive Pending where
  | paren (span : Span)
  | operator (op : Operator) (span : Span)
  deriving DecidableEq

namespace Pending

/-- The token that was put on the stack. -/
def token : Pending → Token
  | .paren span => ⟨.leftParen, span⟩
  | .operator op span => ⟨.operator op, span⟩

/-- Whether an operator waits, and not a parenthesis. -/
def isOperator : Pending → Bool
  | .paren _ => false
  | .operator _ _ => true

/-- Whether an operator waits that yields to the connective. -/
def yieldsTo (incoming : Connective) : Pending → Bool
  | .paren _ => false
  | .operator op _ => op.binding.yieldsTo (Operator.binary incoming).binding

end Pending

/-- Why a token is emitted. -/
inductive Cause where
  /-- It is a variable. -/
  | operand
  /-- A connective arrived to which the operator on the stack yields. -/
  | swept (incoming : Connective)
  /-- The parenthesis around the operator was closed. -/
  | closed
  /-- The tokens ended. -/
  | drained
  deriving DecidableEq

/-- A token that leaves for the output, and why. -/
structure Move where
  token : Token
  cause : Cause
  deriving DecidableEq

/-- The entry that a move makes. -/
def Move.entry? (m : Move) : Option Entry :=
  match m.cause with
  | .swept incoming => some (.completed m.token incoming)
  | _ => none

/-- The tokens of some stack entries leave for one cause, the top entry first. -/
def Move.emit (cause : Cause) (popped : List Pending) : List Move := popped.map fun p => ⟨p.token, cause⟩

/-! ## One token -/

/-- What one token does to the stack, whose top comes first: the moves that it causes and the stack after
them. -/
def Pending.step (stack : List Pending) (t : Token) : List Move × Except Unbalanced (List Pending) :=
  match t.kind with
  | .var _ => ([⟨t, .operand⟩], .ok stack)
  | .leftParen => ([], .ok (.paren t.span :: stack))
  | .rightParen =>
      (Move.emit .closed (stack.takeWhile isOperator),
        match stack.dropWhile isOperator with
        | [] => .error (.missingLeft t.span.start)
        | _ :: below => .ok below)
  | .operator .not => ([], .ok (.operator .not t.span :: stack))
  | .operator (.binary c) =>
      (Move.emit (.swept c) (stack.takeWhile (yieldsTo c)),
        .ok (.operator (.binary c) t.span :: stack.dropWhile (yieldsTo c)))

/-! ## All tokens -/

/-- The moves made in order, up to the end of the tokens or to the first unbalanced parenthesis. -/
structure Reordering where
  moves : List Move
  failure : Option Unbalanced
  deriving DecidableEq

namespace Reordering

/-- The same reordering with more moves in front. -/
def after (moves : List Move) (r : Reordering) : Reordering := ⟨moves ++ r.moves, r.failure⟩

/-- Empties the stack at the end of the tokens. -/
def drain (stack : List Pending) : Reordering :=
  ⟨Move.emit .drained (stack.takeWhile Pending.isOperator),
    (stack.dropWhile Pending.isOperator).head?.map fun p => .missingRight p.token.span.start⟩

/-- The reordering of the tokens that are left, with the given stack. -/
def run (stack : List Pending) : List Token → Reordering
  | [] => drain stack
  | t :: ts =>
      match Pending.step stack t with
      | (moves, .ok stack) => (run stack ts).after moves
      | (moves, .error e) => ⟨moves, some e⟩

/-- The emitted tokens, provided that all parentheses are balanced. -/
def result (r : Reordering) : Except Unbalanced (List Token) :=
  match r.failure with
  | none => .ok (r.moves.map Move.token)
  | some e => .error e

end Reordering

/-- Puts tokens into postorder. -/
def Token.reorder (tokens : List Token) : Logged Unbalanced (List Token) := do
  let r := Reordering.run [] tokens
  Logged.record (r.moves.filterMap Move.entry?)
  let ordered ← Logged.ofExcept r.result
  Logged.record [.ordered ordered]
  return ordered

end Propositional
