import Propositional.Journal

/-!
# Scanning a text into tokens

Tokens are separated by spaces, and a parenthesis needs none. A keyword must be followed by a space, also at
the end of the text. A name is a run of small letters; a space, a right parenthesis or the end of the text
must follow it. Every character passed by the scanner is an ASCII character, so an offset counts characters
and UTF-8 bytes alike.

The text is scanned as a whole by `Token.scan`, or token by token by a `Scanner`.
-/

namespace Propositional

/-- No token stands at the offset. -/
structure LexicalError where
  offset : Nat
  deriving DecidableEq

def LexicalError.message (e : LexicalError) : String := s!"Unexpected token at {e.offset}"

/-- What one look at the text finds. -/
inductive Scanned where
  | token (t : Token)
  | finished
  | failed (e : LexicalError)
  deriving DecidableEq

/-- The entry that a look at the text makes: only a token is worth one. -/
def Scanned.entries : Scanned → List Entry
  | .token t => [.token t]
  | _ => []

/-- A place in a text: its offset and the text from there on. -/
structure Cursor where
  offset : Nat
  rest : List Char
  deriving DecidableEq

namespace Cursor

/-- The beginning of a text. -/
def start (text : String) : Cursor := ⟨0, text.toList⟩

/-- The cursor after `n` characters. -/
def advance (c : Cursor) (n : Nat) : Cursor := ⟨c.offset + n, c.rest.drop n⟩

/-- The cursor after the spaces that stand here. -/
def skipSpaces (c : Cursor) : Cursor := c.advance (c.rest.takeWhile (· = ' ')).length

/-- Finds the operator here, provided that its keyword and a space follow. -/
def keyword (c : Cursor) (op : Operator) : Scanned :=
  if (op.keyword.toList ++ [' ']).isPrefixOf c.rest then .token (.startingAt (.operator op) c.offset)
  else .failed ⟨c.offset⟩

/-- The run of small letters here. -/
def letters (c : Cursor) : List Char := c.rest.takeWhile Char.isLower

/-- Finds the name made of all small letters here, unless it touches something else than a right
parenthesis. -/
def name (c : Cursor) : Scanned :=
  match c.rest.dropWhile Char.isLower with
  | [] | ' ' :: _ | ')' :: _ => .token (.startingAt (.var (.ofList c.letters)) c.offset)
  | _ => .failed ⟨c.offset + c.letters.length⟩

/-- Finds the token that begins here. -/
def look (c : Cursor) : Scanned :=
  match c.rest with
  | [] => .finished
  | '(' :: _ => .token (.startingAt .leftParen c.offset)
  | ')' :: _ => .token (.startingAt .rightParen c.offset)
  | 'N' :: _ => c.keyword .not
  | 'A' :: _ => c.keyword (.binary .and)
  | 'O' :: _ => c.keyword (.binary .or)
  | '-' :: _ => c.keyword (.binary .implies)
  | x :: _ => if x.isLower then c.name else .failed ⟨c.offset⟩

/-- Finds the token that begins here and moves behind it; without a token the cursor stays. -/
def take (c : Cursor) : Scanned × Cursor :=
  match c.look with
  | .token t => (.token t, c.advance t.text.length)
  | s => (s, c)

/-- Skips spaces and takes the next token. -/
def next (c : Cursor) : Scanned × Cursor := c.skipSpaces.take

/-! ## Every token makes the rest shorter -/

theorem length_rest_advance_le (c : Cursor) (n : Nat) : (c.advance n).rest.length ≤ c.rest.length := by
  simp [advance]

theorem length_rest_advance_lt {c : Cursor} {n : Nat} (hn : 0 < n) (hc : c.rest ≠ []) :
    (c.advance n).rest.length < c.rest.length := by
  have := List.length_pos_iff.mpr hc
  simp only [advance, List.length_drop]
  omega

theorem text_of_keyword {c : Cursor} {op : Operator} {t : Token} (h : c.keyword op = .token t) :
    t.text = op.keyword := by
  unfold keyword at h
  split at h
  case isTrue => cases h; rfl
  case isFalse => cases h

theorem text_of_name {c : Cursor} {t : Token} (h : c.name = .token t) : t.text = .ofList c.letters := by
  unfold name at h
  split at h <;> cases h <;> rfl

/-- A token has a text, and it is found only where a text is left. -/
theorem look_token {c : Cursor} {t : Token} (h : c.look = .token t) :
    0 < t.text.length ∧ c.rest ≠ [] := by
  unfold look at h
  split at h
  case h_1 => cases h
  case h_2 hr => cases h; exact ⟨show 0 < "(".length by decide, by simp [hr]⟩
  case h_3 hr => cases h; exact ⟨show 0 < ")".length by decide, by simp [hr]⟩
  case h_4 hr => rw [text_of_keyword h]; exact ⟨Operator.length_keyword_pos _, by simp [hr]⟩
  case h_5 hr => rw [text_of_keyword h]; exact ⟨Operator.length_keyword_pos _, by simp [hr]⟩
  case h_6 hr => rw [text_of_keyword h]; exact ⟨Operator.length_keyword_pos _, by simp [hr]⟩
  case h_7 hr => rw [text_of_keyword h]; exact ⟨Operator.length_keyword_pos _, by simp [hr]⟩
  case h_8 hr =>
    split at h
    case isTrue hx =>
      rw [text_of_name h, letters, hr, List.takeWhile_cons_of_pos hx, String.length_ofList]
      exact ⟨Nat.succ_pos _, List.cons_ne_nil _ _⟩
    case isFalse => cases h

theorem length_rest_next_lt {c c' : Cursor} {t : Token} (h : c.next = (.token t, c')) :
    c'.rest.length < c.rest.length := by
  unfold next take at h
  split at h
  case h_1 hl =>
    cases h
    have ⟨ht, hr⟩ := look_token hl
    exact Nat.lt_of_lt_of_le (length_rest_advance_lt ht hr) (length_rest_advance_le _ _)
  case h_2 => simp_all

end Cursor

/-! ## Whole texts -/

/-- The tokens of a text up to its end or to the first error. -/
structure Scan where
  tokens : List Token
  failure : Option LexicalError
  deriving DecidableEq

namespace Scan

/-- The same scan with one more token in front. -/
def cons (t : Token) (s : Scan) : Scan := ⟨t :: s.tokens, s.failure⟩

/-- All tokens, provided that the end of the text was reached. -/
def result (s : Scan) : Except LexicalError (List Token) :=
  match s.failure with
  | none => .ok s.tokens
  | some e => .error e

end Scan

/-- The tokens from here on. -/
def Cursor.scan (c : Cursor) : Scan :=
  match _h : c.next with
  | (.token t, c') => .cons t c'.scan
  | (.finished, _) => ⟨[], none⟩
  | (.failed e, _) => ⟨[], some e⟩
termination_by c.rest.length
decreasing_by exact Cursor.length_rest_next_lt _h

/-- Splits a whole text into tokens. -/
def Token.scan (text : String) : Logged LexicalError (List Token) := do
  let s := (Cursor.start text).scan
  Logged.record (s.tokens.map .token)
  let tokens ← Logged.ofExcept s.result
  Logged.record [.split tokens.length text]
  return tokens

/-! ## Token by token -/

/-- A scan in progress. Its two ways to ask for a token share the cursor; only `next` remembers that it has
reported an error. -/
structure Scanner where
  cursor : Cursor
  stopped : Bool
  deriving DecidableEq

/-- The two ways to ask a scanner for a token. -/
inductive Scanner.Call where
  | poll
  | next
  deriving DecidableEq

namespace Scanner

/-- A scan of a whole text, at its beginning. -/
def start (text : String) : Scanner := ⟨.start text, false⟩

/-- Takes the next token. An error is found again by every later call. -/
def poll (s : Scanner) : Scanned × Scanner :=
  let (found, c) := s.cursor.next
  (found, { s with cursor := c })

/-- Takes the next token as an iteration does: after its first error it is finished for good. -/
def next (s : Scanner) : Scanned × Scanner :=
  if s.stopped then (.finished, s)
  else
    match s.poll with
    | (.failed e, s) => (.failed e, { s with stopped := true })
    | r => r

/-- Makes one call. -/
def call (s : Scanner) : Call → Scanned × Scanner
  | .poll => s.poll
  | .next => s.next

/-- What a sequence of calls finds, one after the other. -/
def answers (s : Scanner) : List Call → List Scanned
  | [] => []
  | c :: cs => (s.call c).1 :: (s.call c).2.answers cs

end Scanner

end Propositional
