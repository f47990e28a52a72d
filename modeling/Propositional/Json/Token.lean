import Propositional.Json.Value
import Propositional.Language.Token

/-!
# Tokens and bindings as JSON

Writing always uses objects for records and bare names for variants without content. Reading accepts every
layout of `Propositional.Json.Value`.
-/

namespace Propositional

/-! ## Tokens -/

namespace Span

def toJson (s : Span) : Json := .object [("start", .natural s.start), ("end", .natural s.stop)]

def ofJson? (j : Json) : Option Span :=
  match j.record? ["start", "end"] with
  | some [start, stop] => return ⟨← start.word?, ← stop.word?⟩
  | _ => none

end Span

namespace Kind

def toJson : Kind → Json
  | .var name => .object [("Variable", .string name)]
  | .operator .not => .string "Negation"
  | .operator (.binary .and) => .string "Conjunction"
  | .operator (.binary .or) => .string "Disjunction"
  | .operator (.binary .implies) => .string "Implication"
  | .leftParen => .string "LeftParen"
  | .rightParen => .string "RightParen"

def ofJson? (j : Json) : Option Kind :=
  match j.variant? with
  | some ("Variable", .string name) => some (.var name)
  | some ("Negation", .null) => some (.operator .not)
  | some ("Conjunction", .null) => some (.operator (.binary .and))
  | some ("Disjunction", .null) => some (.operator (.binary .or))
  | some ("Implication", .null) => some (.operator (.binary .implies))
  | some ("LeftParen", .null) => some .leftParen
  | some ("RightParen", .null) => some .rightParen
  | _ => none

end Kind

namespace Token

def toJson (t : Token) : Json := .object [("kind", t.kind.toJson), ("span", t.span.toJson)]

def ofJson? (j : Json) : Option Token :=
  match j.record? ["kind", "span"] with
  | some [kind, span] => return ⟨← Kind.ofJson? kind, ← Span.ofJson? span⟩
  | _ => none

end Token

/-! ## Bindings -/

namespace Associativity

def toJson : Associativity → Json
  | .left => .string "Left"
  | .right => .string "Right"

def ofJson? (j : Json) : Option Associativity :=
  match j.variant? with
  | some ("Left", .null) => some .left
  | some ("Right", .null) => some .right
  | _ => none

end Associativity

namespace Binding

def toJson : Binding → Json
  | .unary p => .object [("Unary", .object [("priority", .natural p.toNat)])]
  | .binary a p => .object [("Binary",
      .object [("associativity", a.toJson), ("priority", .natural p.toNat)])]

def ofJson? (j : Json) : Option Binding :=
  match j.variant? with
  | some ("Unary", content) =>
      match content.fields? ["priority"] with
      | some [p] => return .unary (← p.byte?)
      | _ => none
  | some ("Binary", content) =>
      match content.fields? ["associativity", "priority"] with
      | some [a, p] => return .binary (← Associativity.ofJson? a) (← p.byte?)
      | _ => none
  | _ => none

end Binding

end Propositional
