import Mathlib.Algebra.GroupWithZero.Nat
import Mathlib.Data.List.Sort
import Mathlib.Data.Nat.Bits
import Propositional.Proofs.Entries
import Propositional.Proofs.Truth.Rows

/-!
# Assignments and their numbers

An assignment is known by the value that it has for each name (`Assignment.ext_get?`). Among the assignments that
bind exactly the given names, each one has a number: name `i` counts `2 ^ i` if it is true.
-/

namespace Propositional

namespace Assignment

variable {a b : Assignment} {name : String} {value : Bool}

/-! ## Values of names -/

theorem lookup_insertEntry (name : String) (value : Bool) (es : List (String × Bool)) (name' : String) :
    (insertEntry name value es).lookup name' = if name' = name then some value else es.lookup name' := by
  induction es with
  | nil => exact lookup_cons_eq name value [] name'
  | cons e es ih =>
      obtain ⟨key, v⟩ := e
      simp only [insertEntry]
      split
      case isTrue => exact lookup_cons_eq name value _ name'
      case isFalse =>
        split
        case isTrue heq =>
          have heq : name = key := heq
          subst heq
          simp only [lookup_cons_eq]
          split <;> rfl
        case isFalse hne =>
          have hne : name ≠ key := hne
          simp only [lookup_cons_eq, ih]
          grind

theorem get?_insert (a : Assignment) (name : String) (value : Bool) (name' : String) :
    (a.insert name value).get? name' = if name' = name then some value else a.get? name' :=
  lookup_insertEntry name value a.toList name'

theorem get?_foldl_insert {es : List (String × Bool)} (h : (es.map Prod.fst).Nodup) (a : Assignment)
    (name : String) :
    (es.foldl (fun a e => a.insert e.1 e.2) a).get? name = (es.lookup name).or (a.get? name) := by
  induction es generalizing a with
  | nil => rfl
  | cons e es ih =>
      obtain ⟨key, value⟩ := e
      obtain ⟨hkey, hes⟩ := List.nodup_cons.mp h
      rw [List.foldl_cons, ih hes, get?_insert, lookup_cons_eq]
      by_cases hname : name = key
      · subst hname
        have hnone : es.lookup name = none := by
          rw [List.lookup_eq_none_iff]
          intro e he
          exact bne_iff_ne.mpr fun heq => hkey (List.mem_map.mpr ⟨e, he, heq.symm⟩)
        simp [hnone]
      · simp [hname]

theorem get?_ofList {es : List (String × Bool)} (h : (es.map Prod.fst).Nodup) (name : String) :
    (ofList es).get? name = es.lookup name := by
  rw [ofList, get?_foldl_insert h]
  exact Option.or_none

theorem map_fst_mapIdx (g : Nat → Bool) (names : List String) :
    (names.mapIdx fun i name => (name, g i)).map Prod.fst = names := by
  rw [List.mapIdx_eq_zipIdx_map, List.map_map]
  exact List.zipIdx_map_fst 0 names

theorem lookup_mapIdx (g : Nat → Bool) (names : List String) (name : String) :
    (names.mapIdx fun i name => (name, g i)).lookup name =
      if name ∈ names then some (g (names.idxOf name)) else none := by
  induction names generalizing g with
  | nil => rfl
  | cons x names ih =>
      rw [List.mapIdx_cons, lookup_cons_eq, ih fun i => g (i + 1), List.idxOf_cons]
      by_cases hx : name = x
      · simp [hx]
      · have hne : (x == name) = false := beq_eq_false_iff_ne.mpr (Ne.symm hx)
        simp [hx, hne]

theorem get?_ofList_mapIdx {names : List String} (h : names.Nodup) (g : Nat → Bool) (name : String) :
    (ofList (names.mapIdx fun i name => (name, g i))).get? name =
      if name ∈ names then some (g (names.idxOf name)) else none := by
  rw [get?_ofList, lookup_mapIdx]
  rwa [map_fst_mapIdx]

/-! ## Equal assignments -/

theorem nodup_keys (a : Assignment) : (a.toList.map Prod.fst).Nodup := by
  rw [List.Nodup, List.pairwise_map]
  refine a.sorted.imp fun {e e'} hlt heq => ?_
  rw [heq] at hlt
  exact String.lt_irrefl _ hlt

theorem mem_toList_iff : (name, value) ∈ a.toList ↔ a.get? name = some value :=
  (lookup_eq_some_iff_mem a.nodup_keys).symm

/-- Assignments with the same values are the same, since both list them in the order of the names. -/
theorem ext_get? (h : ∀ name, a.get? name = b.get? name) : a = b := by
  have hmem (e : String × Bool) : e ∈ a.toList ↔ e ∈ b.toList := by
    rw [mem_toList_iff, mem_toList_iff, h]
  have hirrefl : Std.Irrefl fun e e' : String × Bool => e.1 < e'.1 := ⟨fun e => String.lt_irrefl e.1⟩
  have hantisymm : Std.Antisymm fun e e' : String × Bool => e.1 < e'.1 :=
    ⟨fun e e' hlt hgt => (String.lt_irrefl e.1 (String.lt_trans hlt hgt)).elim⟩
  have hlist : a.toList = b.toList := a.sorted.eq_of_mem_iff b.sorted hmem
  cases a
  cases b
  cases hlist
  rfl

/-! ## Numbers -/

/-- The assignment has a value for each of the names and for no other. -/
def Binds (a : Assignment) (names : List String) : Prop := ∀ name, (a.get? name).isSome ↔ name ∈ names

/-- The place of the assignment in counting order: the name at position `i` counts `2 ^ i` if it is true. -/
def number (names : List String) (a : Assignment) : Nat :=
  (names.mapIdx fun i name => if a.get? name = some true then 2 ^ i else 0).sum

theorem sum_mapIdx_double (f : Nat → String → Nat) (names : List String) :
    (names.mapIdx fun i name => 2 * f i name).sum = 2 * (names.mapIdx f).sum := by
  induction names generalizing f with
  | nil => rfl
  | cons name names ih => rw [List.mapIdx_cons, List.sum_cons, ih, List.mapIdx_cons, List.sum_cons, Nat.mul_add]

theorem number_cons (name : String) (names : List String) (a : Assignment) :
    a.number (name :: names) = Nat.bit (a.get? name = some true) (a.number names) := by
  have hdouble (i : Nat) (name : String) : (if a.get? name = some true then 2 ^ (i + 1) else 0) =
      2 * if a.get? name = some true then 2 ^ i else 0 := by
    split
    case isTrue => exact Nat.pow_succ'
    case isFalse => rfl
  rw [number, List.mapIdx_cons, List.sum_cons, Nat.bit_val, Nat.add_comm, number]
  simp only [hdouble, sum_mapIdx_double]
  by_cases h : a.get? name = some true <;> simp [h]

/-- The names that are true are the bits of the number. -/
theorem testBit_number (names : List String) (a : Assignment) (i : Nat) :
    (a.number names).testBit i = true ↔ ∃ name, names[i]? = some name ∧ a.get? name = some true := by
  induction names generalizing i with
  | nil => simp [number]
  | cons name names ih =>
      rw [number_cons]
      cases i with
      | zero => simp
      | succ i => rw [Nat.testBit_bit_succ, ih, List.getElem?_cons_succ]

theorem number_lt (names : List String) (a : Assignment) : a.number names < 2 ^ names.length := by
  refine Nat.lt_pow_two_of_testBit _ fun i hi => ?_
  rw [Bool.eq_false_iff, ne_eq, testBit_number, List.getElem?_eq_none hi]
  simp

end Assignment

end Propositional
