import Propositional.Json.Formula
import Propositional.Json.Limits
import Propositional.Json.Token
import Propositional.Proofs.Entries

/-!
# Layouts of JSON values

Which JSON values stand for a formula, a token, a binding or limits: the fields of an object may come in any order
and among others, a record may be an array of its fields, and a variant without content may be an object. Reading
undoes every layout, as long as the content of a variant is an object (`Json.layoutsRead_object`).
-/

namespace Propositional

namespace Json

variable {names : List String} {entries : List (String × Json)} {j : Json}

/-! ## Records and variants -/

/-- An object that has just the given entries for the names, in any order and among fields with other names. -/
def IsObjectAmong (names : List String) (entries : List (String × Json)) (j : Json) : Prop :=
  ∃ fields others, j = .object fields ∧ fields.Perm (entries ++ others) ∧ ∀ e ∈ others, e.1 ∉ names

/-- An object with these entries, in any order and among fields with other names. -/
def IsObject (entries : List (String × Json)) : Json → Prop := IsObjectAmong (entries.map Prod.fst) entries

/-- Such an object, or an array of the values in their order. -/
def IsRecord (entries : List (String × Json)) (j : Json) : Prop :=
  IsObject entries j ∨ j = .array (entries.map Prod.snd)

/-- A variant without content, which is written as its name, or an object that gives null to the name. -/
def IsBare (written j : Json) : Prop := ∃ name, written = .string name ∧ (j = written ∨ j = .object [(name, .null)])

theorem isObject_object (entries : List (String × Json)) : IsObject entries (.object entries) :=
  ⟨entries, [], rfl, by simp, by simp⟩

theorem isBare_string (name : String) : IsBare (.string name) (.string name) := ⟨name, rfl, .inl rfl⟩

/-- What is found under one of the names does not depend on the order of the fields, nor on the others. -/
theorem IsObjectAmong.exists_fields (h : IsObjectAmong names entries j) (hkeys : (entries.map Prod.fst).Nodup) :
    ∃ fields, j = .object fields ∧ ∀ name ∈ names, fields.lookup name = entries.lookup name := by
  obtain ⟨fields, others, rfl, hperm, hothers⟩ := h
  refine ⟨fields, rfl, fun name hname => Option.ext fun v => ?_⟩
  have hmem (v : Json) : (name, v) ∈ fields ↔ (name, v) ∈ entries := by
    have hnot : (name, v) ∉ others := fun h => hothers _ h hname
    simp [hperm.mem_iff, hnot]
  rw [lookup_eq_some_iff_mem hkeys, ← hmem v]
  refine ⟨mem_of_lookup, fun hv => lookup_of_mem_of_unique hv fun w hw => ?_⟩
  exact congrArg Prod.snd (List.inj_on_of_nodup_map hkeys ((hmem w).mp hw) ((hmem v).mp hv) rfl)

theorem IsObject.fields? (h : IsObject entries j) (hkeys : (entries.map Prod.fst).Nodup) :
    j.fields? (entries.map Prod.fst) = some (entries.map Prod.snd) := by
  obtain ⟨fields, rfl, hlookup⟩ := IsObjectAmong.exists_fields h hkeys
  refine mapM_keys fun e he => ?_
  rw [hlookup e.1 (List.mem_map_of_mem he), lookup_eq_some_iff_mem hkeys]
  exact he

theorem IsRecord.record? (h : IsRecord entries j) (hkeys : (entries.map Prod.fst).Nodup) :
    j.record? (entries.map Prod.fst) = some (entries.map Prod.snd) := by
  obtain h | rfl := h
  · have hfields := h.fields? hkeys
    obtain ⟨fields, _, rfl, _⟩ := h
    exact hfields
  · simp [Json.record?]

theorem IsBare.variant?_eq {written : Json} (h : IsBare written j) : j.variant? = written.variant? := by
  obtain ⟨name, rfl, rfl | rfl⟩ := h <;> rfl

theorem word?_natural {n : Nat} (h : n < UInt64.size) : (natural n).word? = some n := if_pos h

theorem byte?_natural (p : UInt8) : (natural p.toNat).byte? = some p := by
  rw [byte?, if_pos p.toNat_lt_size]
  exact congrArg some UInt8.ofNat_toNat

/-! ## What reading a layout means -/

/-- The written form is one of the layouts of the value, and each layout is read as the value. -/
structure ReadsBack {α : Type} (written : Json) (laidOut : Json → Prop) (read : Json → Option α) (x : α) :
    Prop where
  laidOut_written : laidOut written
  read_written : read written = some x
  read_laidOut : ∀ j, laidOut j → read j = some x

theorem ReadsBack.intro {α : Type} {written : Json} {laidOut : Json → Prop} {read : Json → Option α} {x : α}
    (hwritten : laidOut written) (hread : ∀ j, laidOut j → read j = some x) :
    ReadsBack written laidOut read x :=
  ⟨hwritten, hread _ hwritten, hread⟩

end Json

/-! ## Tokens -/

namespace Kind

inductive LaidOut : Kind → Json → Prop where
  | var (name : String) : LaidOut (.var name) (.object [("Variable", .string name)])
  | bare {k j} : Json.IsBare k.toJson j → LaidOut k j

theorem readsBack (k : Kind) : Json.ReadsBack k.toJson k.LaidOut ofJson? k := by
  refine .intro ?_ fun j h => ?_
  · cases k with
    | var name => exact .var name
    | leftParen | rightParen => exact .bare (Json.isBare_string _)
    | operator op =>
        cases op with
        | not => exact .bare (Json.isBare_string _)
        | binary c => cases c <;> exact .bare (Json.isBare_string _)
  · cases h with
    | var name => rfl
    | bare h =>
        rw [ofJson?, h.variant?_eq]
        cases k with
        | var name =>
            obtain ⟨_, heq, _⟩ := h
            cases heq
        | leftParen | rightParen => rfl
        | operator op =>
            cases op with
            | not => rfl
            | binary c => cases c <;> rfl

end Kind

namespace Span

/-- Both ends are numbers of at most 64 bits. -/
def InRange (s : Span) : Prop := s.start < UInt64.size ∧ s.stop < UInt64.size

def LaidOut (s : Span) : Json → Prop := Json.IsRecord [("start", .natural s.start), ("end", .natural s.stop)]

theorem readsBack {s : Span} (hs : s.InRange) : Json.ReadsBack s.toJson s.LaidOut ofJson? s := by
  refine .intro (.inl (Json.isObject_object _)) fun j h => ?_
  have hrecord : j.record? ["start", "end"] = some [.natural s.start, .natural s.stop] := h.record? (by simp)
  simp [ofJson?, hrecord, Json.word?_natural hs.1, Json.word?_natural hs.2]

end Span

namespace Token

def InRange (t : Token) : Prop := t.span.InRange

def LaidOut (t : Token) (j : Json) : Prop :=
  ∃ kind span, t.kind.LaidOut kind ∧ t.span.LaidOut span ∧ Json.IsRecord [("kind", kind), ("span", span)] j

theorem readsBack {t : Token} (ht : t.InRange) : Json.ReadsBack t.toJson t.LaidOut ofJson? t := by
  have hkind := t.kind.readsBack
  have hspan := Span.readsBack ht
  refine .intro ?_ ?_
  · exact ⟨_, _, hkind.laidOut_written, hspan.laidOut_written, .inl (Json.isObject_object _)⟩
  · rintro j ⟨kind, span, hk, hs, h⟩
    have hrecord : j.record? ["kind", "span"] = some [kind, span] := h.record? (by simp)
    simp [ofJson?, hrecord, hkind.read_laidOut _ hk, hspan.read_laidOut _ hs]

end Token

/-! ## Bindings -/

namespace Associativity

def LaidOut (a : Associativity) : Json → Prop := Json.IsBare a.toJson

theorem readsBack (a : Associativity) : Json.ReadsBack a.toJson a.LaidOut ofJson? a := by
  refine .intro ?_ fun j h => ?_
  · cases a <;> exact Json.isBare_string _
  · rw [ofJson?, Json.IsBare.variant?_eq h]
    cases a <;> rfl

end Associativity

namespace Binding

/-- `body` tells how the content of a variant is laid out. -/
inductive LaidOut (body : List (String × Json) → Json → Prop) : Binding → Json → Prop where
  | unary {p content} : body [("priority", .natural p.toNat)] content →
      LaidOut body (.unary p) (.object [("Unary", content)])
  | binary {a p side content} : a.LaidOut side →
      body [("associativity", side), ("priority", .natural p.toNat)] content →
      LaidOut body (.binary a p) (.object [("Binary", content)])

theorem readsBack (b : Binding) : Json.ReadsBack b.toJson (b.LaidOut Json.IsObject) ofJson? b := by
  refine .intro ?_ fun j h => ?_
  · cases b with
    | unary p => exact .unary (Json.isObject_object _)
    | binary a p => exact .binary a.readsBack.laidOut_written (Json.isObject_object _)
  · cases h with
    | @unary p content h =>
        have hfields : content.fields? ["priority"] = some [.natural p.toNat] := h.fields? (by simp)
        simp [ofJson?, Json.variant?, hfields, Json.byte?_natural]
    | @binary a p side content hside h =>
        have hfields : content.fields? ["associativity", "priority"] = some [side, .natural p.toNat] :=
          h.fields? (by simp)
        simp [ofJson?, Json.variant?, hfields, Json.byte?_natural, a.readsBack.read_laidOut _ hside]

theorem ofJson?_array (name : String) (items : List Json) :
    ofJson? (.object [(name, .array items)]) = none := by
  rw [ofJson?]
  split
  case h_1 content heq | h_2 content heq =>
    obtain ⟨rfl, rfl⟩ : name = _ ∧ Json.array items = content := by simpa [Json.variant?] using heq
    rfl
  case h_3 => rfl

end Binding

/-! ## Formulas -/

namespace Connective

def LaidOut (c : Connective) : Json → Prop := Json.IsBare c.toJson

theorem readsBack (c : Connective) : Json.ReadsBack c.toJson c.LaidOut ofJson? c := by
  refine .intro ?_ fun j h => ?_
  · cases c <;> exact Json.isBare_string _
  · rw [ofJson?, Json.IsBare.variant?_eq h]
    cases c <;> rfl

end Connective

namespace Formula

/-- As for bindings, `body` tells how the content of a variant is laid out. -/
inductive LaidOut (body : List (String × Json) → Json → Prop) : Formula String → Json → Prop where
  | var {name content} : body [("name", .string name)] content →
      LaidOut body (.var name) (.object [("Variable", content)])
  | not {f op operand content} : Json.IsBare (.string "Not") op → LaidOut body f operand →
      body [("op", op), ("operand", operand)] content → LaidOut body (.not f) (.object [("UnaryOp", content)])
  | binary {c l r op left right content} : c.LaidOut op → LaidOut body l left → LaidOut body r right →
      body [("op", op), ("left", left), ("right", right)] content →
      LaidOut body (.binary c l r) (.object [("BinaryOp", content)])

theorem laidOut_toJson (f : Formula String) : f.LaidOut Json.IsObject f.toJson := by
  induction f with
  | var name => exact .var (Json.isObject_object _)
  | not f ih => exact .not (Json.isBare_string _) ih (Json.isObject_object _)
  | binary c l r ihl ihr => exact .binary c.readsBack.laidOut_written ihl ihr (Json.isObject_object _)

variable {content : Json}

theorem ofJson?_var {name : String} (h : content.fields? ["name"] = some [.string name]) :
    ofJson? (.object [("Variable", content)]) = some (.var name) := by
  rw [ofJson?]
  simp [Json.variant?, h, Json.text?]

theorem ofJson?_not {op operand : Json} (h : content.fields? ["op", "operand"] = some [op, operand])
    (hop : op.variant? = some ("Not", .null)) :
    ofJson? (.object [("UnaryOp", content)]) = do return not (← ofJson? operand) := by
  rw [ofJson?]
  simp only [Json.variant?] at hop ⊢
  split
  case h_1 op' operand' heq =>
    obtain ⟨rfl, rfl⟩ : op = op' ∧ operand = operand' := by simpa [h] using heq
    simp [hop]
  case h_2 hne => exact (hne _ _ h).elim

theorem ofJson?_binary {c : Connective} {op left right : Json}
    (h : content.fields? ["op", "left", "right"] = some [op, left, right])
    (hop : Connective.ofJson? op = some c) :
    ofJson? (.object [("BinaryOp", content)]) = do return binary c (← ofJson? left) (← ofJson? right) := by
  rw [ofJson?]
  simp only [Json.variant?]
  split
  case h_1 op' left' right' heq =>
    obtain ⟨rfl, rfl, rfl⟩ : op = op' ∧ left = left' ∧ right = right' := by simpa [h] using heq
    simp [hop]
  case h_2 hne => exact (hne _ _ _ h).elim

theorem ofJson?_array (name : String) (items : List Json) :
    ofJson? (.object [(name, .array items)]) = none := by
  rw [ofJson?]
  split
  case h_1 content heq | h_2 content heq | h_3 content heq =>
    obtain ⟨rfl, rfl⟩ : name = _ ∧ Json.array items = content := by simpa [Json.variant?] using heq
    rfl
  case h_4 => rfl

-- The induction is on the layout, which has one constructor for each node of the formula.
theorem ofJson?_of_laidOut {f : Formula String} {j : Json} (h : f.LaidOut Json.IsObject j) : ofJson? j = some f := by
  induction h with
  | var h => exact ofJson?_var (h.fields? (by simp))
  | not hop _ h ih =>
      rw [ofJson?_not (h.fields? (by simp)) (Json.IsBare.variant?_eq hop), ih]
      rfl
  | @binary c _ _ _ _ _ _ hop _ _ h ihl ihr =>
      rw [ofJson?_binary (h.fields? (by simp)) (c.readsBack.read_laidOut _ hop), ihl, ihr]
      rfl

theorem readsBack (f : Formula String) : Json.ReadsBack f.toJson (f.LaidOut Json.IsObject) ofJson? f :=
  .intro f.laidOut_toJson fun _ => ofJson?_of_laidOut

end Formula

/-! ## Limits -/

namespace Limits

def InRange (limits : Limits) : Prop :=
  limits.maxVariables < UInt64.size ∧ limits.maxTableVariables < UInt64.size

/-- The fields of an object in which only some limits may be given. -/
def entries (search table : Option Nat) : List (String × Json) :=
  search.toList.map (fun n => ("max_variables", .natural n)) ++
    table.toList.map fun n => ("max_table_variables", .natural n)

/-- The layouts of limits: those that are not given are the standard ones. An array leaves out only its end. -/
def LaidOut (limits : Limits) (j : Json) : Prop :=
  ∃ search table : Option Nat,
    limits = ⟨search.getD standard.maxVariables, table.getD standard.maxTableVariables⟩ ∧
    (Json.IsObjectAmong ["max_variables", "max_table_variables"] (entries search table) j ∨
      (table.isSome → search.isSome) ∧ j = .array ((search.toList ++ table.toList).map .natural))

theorem nodup_entries (search table : Option Nat) : ((entries search table).map Prod.fst).Nodup := by
  cases search <;> cases table <;> simp [entries]

theorem wordOr?_natural {standard : Nat} {given : Option Nat} (h : given.getD standard < UInt64.size) :
    wordOr? standard (given.map .natural) = some (given.getD standard) := by
  cases given with
  | none => rfl
  | some n => exact Json.word?_natural h

theorem ofJson?_of_laidOut {limits : Limits} (hlimits : limits.InRange) {j : Json} (h : limits.LaidOut j) :
    ofJson? j = some limits := by
  obtain ⟨search, table, rfl, h⟩ := h
  have hparts : ofParts? (search.map .natural) (table.map .natural) =
      some ⟨search.getD standard.maxVariables, table.getD standard.maxTableVariables⟩ := by
    rw [ofParts?, wordOr?_natural hlimits.1, wordOr?_natural hlimits.2]
    rfl
  rw [← hparts]
  obtain h | ⟨hgiven, rfl⟩ := h
  · obtain ⟨fields, rfl, hlookup⟩ := h.exists_fields (nodup_entries search table)
    rw [ofJson?, hlookup _ (by simp), hlookup _ (by simp)]
    cases search <;> cases table <;> rfl
  · cases search with
    | some n => cases table <;> rfl
    | none =>
        cases table with
        | none => rfl
        | some n => cases hgiven rfl

theorem laidOut_toJson (limits : Limits) : limits.LaidOut limits.toJson := by
  refine ⟨some limits.maxVariables, some limits.maxTableVariables, rfl, .inl ⟨_, [], rfl, ?_, by simp⟩⟩
  rw [List.append_nil]
  exact List.Perm.refl _

theorem readsBack {limits : Limits} (hlimits : limits.InRange) :
    Json.ReadsBack limits.toJson limits.LaidOut ofJson? limits :=
  .intro limits.laidOut_toJson fun _ => ofJson?_of_laidOut hlimits

end Limits

/-! ## All types -/

namespace Json

/-- Every value reads back from its layouts, when `body` tells those of the content of a variant. -/
structure LayoutsRead (body : List (String × Json) → Json → Prop) : Prop where
  formula : ∀ f : Formula String, ReadsBack f.toJson (f.LaidOut body) Formula.ofJson? f
  token : ∀ t : Token, t.InRange → ReadsBack t.toJson t.LaidOut Token.ofJson? t
  kind : ∀ k : Kind, ReadsBack k.toJson k.LaidOut Kind.ofJson? k
  span : ∀ s : Span, s.InRange → ReadsBack s.toJson s.LaidOut Span.ofJson? s
  binding : ∀ b : Binding, ReadsBack b.toJson (b.LaidOut body) Binding.ofJson? b
  limits : ∀ l : Limits, l.InRange → ReadsBack l.toJson l.LaidOut Limits.ofJson? l

/-- Reading undoes every layout in which the content of a variant is an object, and refuses an array in its place. -/
theorem layoutsRead_object : LayoutsRead IsObject ∧ ∀ name items,
    Formula.ofJson? (object [(name, array items)]) = none ∧
      Binding.ofJson? (object [(name, array items)]) = none := by
  constructor
  · exact ⟨Formula.readsBack, fun _ => Token.readsBack, Kind.readsBack, fun _ => Span.readsBack,
      Binding.readsBack, fun _ => Limits.readsBack⟩
  · intro name items
    exact ⟨Formula.ofJson?_array name items, Binding.ofJson?_array name items⟩

/-- Fields out of order, one that is unknown, an object for the name of a connective, and limits without their end. -/
theorem layoutsRead_object_nested :
    let f : Formula String := .binary .implies (.not (.var "p q")) (.var "")
    let left := object [("UnaryOp",
      object [("operand", object [("Variable", object [("name", string "p q")])]), ("op", string "Not")])]
    let right := object [("Variable", object [("name", string "")])]
    let j := object [("BinaryOp",
      object [("right", right), ("note", natural 1), ("op", object [("Implies", null)]), ("left", left)])]
    f.LaidOut IsObject j ∧ Formula.ofJson? j = some f ∧
      (Limits.mk 7 16).LaidOut (array [natural 7]) ∧ Limits.ofJson? (array [natural 7]) = some ⟨7, 16⟩ := by
  intro f left right j
  have hleft : (Formula.not (.var "p q")).LaidOut IsObject left :=
    .not (isBare_string _) (.var (isObject_object _)) ⟨_, [], rfl, List.Perm.swap _ _ _, by simp⟩
  have hright : (Formula.var "").LaidOut IsObject right := .var (isObject_object _)
  have hj : f.LaidOut IsObject j := .binary ⟨"Implies", rfl, .inr rfl⟩ hleft hright
    ⟨_, [("note", natural 1)], rfl, @List.perm_append_comm _ [_, _] [_, _], by simp⟩
  have hlimits : (Limits.mk 7 16).LaidOut (array [natural 7]) := ⟨some 7, none, rfl, .inr ⟨nofun, rfl⟩⟩
  have hrange : (Limits.mk 7 16).InRange := by
    rw [Limits.InRange]
    decide
  obtain ⟨hread, _⟩ := layoutsRead_object
  exact ⟨hj, (hread.formula f).read_laidOut j hj, hlimits, (hread.limits _ hrange).read_laidOut _ hlimits⟩

/-- The content of a variant is not read from an array, as a record would be. -/
theorem not_layoutsRead_record :
    let j := object [("Variable", array [string "a"])]
    (Formula.var "a").LaidOut IsRecord j ∧ Formula.ofJson? j = none ∧ ¬LayoutsRead IsRecord := by
  intro j
  have hlaid : (Formula.var "a").LaidOut IsRecord j := .var (.inr rfl)
  have hnone : Formula.ofJson? j = none := Formula.ofJson?_array _ _
  refine ⟨hlaid, hnone, fun h => ?_⟩
  have hsome := (h.formula (.var "a")).read_laidOut j hlaid
  rw [hnone] at hsome
  cases hsome

end Json

end Propositional
