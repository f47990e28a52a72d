/-!
# JSON values

A value as it stands after the text has been read, and the layouts in which records and variants are
accepted.

* A record is an object that holds all its fields, whatever else it holds and in whatever order, or an array
  of just its fields in their order.
* A variant without content is its name, or an object that gives null to its name. A variant with content is
  an object that gives the content to its name. No such object holds a second field.
* The content of a variant that has fields of its own is an object, never an array.
-/

namespace Propositional

/-- A JSON value. -/
inductive Json where
  | null
  | bool (b : Bool)
  /-- A number written with digits only. -/
  | natural (n : Nat)
  /-- A number written with a sign, a fraction or an exponent. -/
  | numeral (text : String)
  | string (s : String)
  | array (items : List Json)
  | object (fields : List (String × Json))

namespace Json

/-! ## Numbers -/

/-- A number of at most 64 bits. -/
def word? : Json → Option Nat
  | .natural n => if n < UInt64.size then some n else none
  | _ => none

/-- A number of at most 8 bits. -/
def byte? : Json → Option UInt8
  | .natural n => if n < UInt8.size then some n.toUInt8 else none
  | _ => none

/-- A text. -/
def text? : Json → Option String
  | .string s => some s
  | _ => none

/-! ## Layouts -/

/-- The named fields of an object, in the order of the names; other fields are passed over. -/
def fields? (names : List String) : Json → Option (List Json)
  | .object fields => names.mapM fun name => List.lookup name fields
  | _ => none

/-- The fields of a record, in the order of the names. -/
def record? (names : List String) : Json → Option (List Json)
  | .array items => if items.length = names.length then some items else none
  | j => j.fields? names

/-- The name of a variant and its content. -/
def variant? : Json → Option (String × Json)
  | .string name => some (name, .null)
  | .object [(name, content)] => some (name, content)
  | _ => none

/-! ## Parts are smaller than the whole -/

theorem sizeOf_lt_of_lookup {name : String} {fields : List (String × Json)} {v : Json}
    (h : List.lookup name fields = some v) : sizeOf v < sizeOf fields := by
  induction fields with
  | nil => cases h
  | cons entry fields ih =>
      obtain ⟨k, w⟩ := entry
      rw [List.lookup_cons] at h
      split at h
      case h_1 => cases h; simp; omega
      case h_2 => have := ih h; simp; omega

theorem sizeOf_lt_of_mem_fields? {names : List String} {j v : Json} {vs : List Json}
    (h : j.fields? names = some vs) (hv : v ∈ vs) : sizeOf v < sizeOf j := by
  cases j with
  | object fields =>
      have : sizeOf v < sizeOf fields := by
        simp only [fields?] at h
        induction names generalizing vs with
        | nil => simp at h; simp [h] at hv
        | cons name names ih =>
            simp only [List.mapM_cons, Option.bind_eq_bind, Option.pure_def, Option.bind_eq_some_iff,
              Option.some.injEq] at h
            obtain ⟨w, hw, ws, hws, rfl⟩ := h
            cases hv with
            | head => exact sizeOf_lt_of_lookup hw
            | tail _ hv => exact ih hv hws
      simp only [object.sizeOf_spec]
      omega
  | _ => cases h

theorem sizeOf_variant?_le {j content : Json} {name : String} (h : j.variant? = some (name, content)) :
    sizeOf content ≤ sizeOf j := by
  unfold variant? at h
  split at h
  case h_1 => cases h; simp
  case h_2 => cases h; simp; omega
  case h_3 => cases h

end Json

end Propositional
