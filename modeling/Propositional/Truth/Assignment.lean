/-!
# Assignments

Truth values bound to names, listed in the order of the names.
-/

namespace Propositional

/-- Names with their truth values, sorted by name; no name occurs twice. -/
structure Assignment where
  toList : List (String × Bool)
  sorted : toList.Pairwise (·.1 < ·.1)
  deriving DecidableEq

namespace Assignment

/-- Binds no name. -/
def empty : Assignment := ⟨[], .nil⟩

/-- The value bound to a name. -/
def get? (a : Assignment) (name : String) : Option Bool := a.toList.lookup name

/-- The sorted entries with one more, which takes the place of an older one of the same name. -/
def insertEntry (name : String) (value : Bool) : List (String × Bool) → List (String × Bool)
  | [] => [(name, value)]
  | e :: es =>
      if name < e.1 then (name, value) :: e :: es
      else if name = e.1 then (name, value) :: es
      else e :: insertEntry name value es

theorem mem_insertEntry {name : String} {value : Bool} {es : List (String × Bool)} {e : String × Bool}
    (h : e ∈ insertEntry name value es) : e = (name, value) ∨ e ∈ es := by
  induction es with
  | nil => simpa [insertEntry] using h
  | cons d es ih =>
      simp only [insertEntry] at h
      split at h
      · simpa using h
      · split at h
        · rcases List.mem_cons.mp h with h | h
          · exact .inl h
          · exact .inr (List.mem_cons_of_mem _ h)
        · rcases List.mem_cons.mp h with rfl | h
          · exact .inr List.mem_cons_self
          · exact (ih h).imp_right (List.mem_cons_of_mem _)

theorem sorted_insertEntry (name : String) (value : Bool) {es : List (String × Bool)}
    (h : es.Pairwise (·.1 < ·.1)) : (insertEntry name value es).Pairwise (·.1 < ·.1) := by
  induction es with
  | nil => exact List.pairwise_singleton _ _
  | cons d es ih =>
      have ⟨hd, hes⟩ := List.pairwise_cons.mp h
      simp only [insertEntry]
      split
      case isTrue hlt =>
        refine List.pairwise_cons.mpr ⟨?_, h⟩
        intro e he
        rcases List.mem_cons.mp he with rfl | he
        · exact hlt
        · exact String.lt_trans hlt (hd e he)
      case isFalse hlt =>
        split
        case isTrue heq =>
          refine List.pairwise_cons.mpr ⟨?_, hes⟩
          intro e he
          exact heq ▸ hd e he
        case isFalse heq =>
          refine List.pairwise_cons.mpr ⟨?_, ih hes⟩
          intro e he
          rcases mem_insertEntry he with rfl | he
          · exact Std.lt_of_le_of_ne (String.not_lt.mp hlt) (Ne.symm heq)
          · exact hd e he

/-- Binds one more name, or binds it anew. -/
def insert (a : Assignment) (name : String) (value : Bool) : Assignment :=
  ⟨insertEntry name value a.toList, sorted_insertEntry name value a.sorted⟩

/-- Binds all the given names in turn. -/
def ofList (es : List (String × Bool)) : Assignment := es.foldl (fun a e => a.insert e.1 e.2) empty

end Assignment

end Propositional
