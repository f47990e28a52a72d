import Propositional.Language.Operator

/-!
# Tokens

The words of a formula text. A token is a kind, which says what the word means, and the span of the text
that it covers.
-/

namespace Propositional

/-- The half-open range of offsets from `start` up to `stop`. -/
structure Span where
  start : Nat
  stop : Nat
  deriving DecidableEq

/-- What a token stands for. -/
inductive Kind where
  | var (name : String)
  | operator (op : Operator)
  | leftParen
  | rightParen
  deriving DecidableEq

namespace Kind

/-- The text of a token of this kind. -/
def text : Kind → String
  | .var name => name
  | .operator op => op.keyword
  | .leftParen => "("
  | .rightParen => ")"

/-- The operator, unless the kind is a variable or a parenthesis. -/
def operator? : Kind → Option Operator
  | .operator op => some op
  | _ => none

/-- Whether the kind is one of the two parentheses. -/
def isParen : Kind → Bool
  | .leftParen | .rightParen => true
  | _ => false

/-- The kind with the given text; a text that is no keyword and no parenthesis names a variable. -/
def ofText : String → Kind
  | "NOT" => .operator .not
  | "AND" => .operator (.binary .and)
  | "OR" => .operator (.binary .or)
  | "->" => .operator (.binary .implies)
  | "(" => .leftParen
  | ")" => .rightParen
  | name => .var name

theorem text_ofText (s : String) : (ofText s).text = s := by
  unfold ofText
  split <;> rfl

end Kind

/-- A kind together with the place where it stands. -/
structure Token where
  kind : Kind
  span : Span
  deriving DecidableEq

namespace Token

/-- The token of the given kind at `start`; its span is as long as its text in UTF-8. -/
def startingAt (kind : Kind) (start : Nat) : Token :=
  ⟨kind, start, start + kind.text.utf8ByteSize⟩

/-- The text of the token. -/
def text (t : Token) : String := t.kind.text

/-- The texts of the tokens, separated by single spaces. -/
def join (tokens : List Token) : String := " ".intercalate (tokens.map text)

end Token

end Propositional
