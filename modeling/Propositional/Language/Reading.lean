import Propositional.Language.Postorder
import Propositional.Language.Reordering
import Propositional.Language.Scanner

/-!
# Reading a formula

A text is split into tokens, the tokens are put into postorder, and the formula is built from that. The first
of these stages to fail decides the error.
-/

namespace Propositional

/-- Why a text is no formula. -/
inductive ReadError where
  | lexical (e : LexicalError)
  | unbalanced (e : Unbalanced)
  | shape (e : ShapeError)
  deriving DecidableEq

def ReadError.message : ReadError → String
  | .lexical e => e.message
  | .unbalanced e => e.message
  | .shape e => e.message

/-- Reads a text as a formula. -/
def Formula.read (text : String) : Logged ReadError (Formula String) := do
  let tokens ← (Token.scan text).mapError .lexical
  let ordered ← (Token.reorder tokens).mapError .unbalanced
  let f ← (Logged.ofExcept (ofPostorder (ordered.map Token.kind))).mapError .shape
  Logged.record [.read text f]
  return f

end Propositional
