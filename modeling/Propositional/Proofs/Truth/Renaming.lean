import Propositional.Proofs.Language.Renaming
import Propositional.Proofs.Truth.Enumeration

/-!
# Truth tables with other names

A truth table numbers the names by where they first appear and never compares them otherwise. So a formula with
other names has the same rows in the same order, whatever the order and the lengths of the new names are
(`Formula.read_renamed`).
-/

namespace Propositional

variable {r : String → String}

/-! ## Lists of names -/

section

variable {names : List String} (hr : ∀ x ∈ names, ∀ y ∈ names, r x = r y → x = y)
include hr

theorem eraseDups_map : (names.map r).eraseDups = names.eraseDups.map r := by
  -- From the right, because whether a name stays depends on the names to its left.
  induction names using List.reverseRecOn with
  | nil => rfl
  | append_singleton names name ih =>
      have hmem : r name ∈ names.map r ↔ name ∈ names := by
        rw [List.mem_map]
        constructor
        · rintro ⟨x, hx, heq⟩
          rwa [← hr x (by simp [hx]) name (by simp) heq]
        · intro h
          exact ⟨name, h, rfl⟩
      have hnames : ∀ x ∈ names, ∀ y ∈ names, r x = r y → x = y :=
        fun x hx y hy => hr x (by simp [hx]) y (by simp [hy])
      rw [List.map_append, List.map_singleton, eraseDups_append_singleton, eraseDups_append_singleton,
        ih hnames, List.map_append]
      by_cases h : name ∈ names <;> simp [hmem, h]

theorem idxOf_map {name : String} (hname : name ∈ names) : (names.map r).idxOf (r name) = names.idxOf name := by
  induction names with
  | nil => cases hname
  | cons x names ih =>
      rw [List.map_cons]
      by_cases hx : x = name
      · rw [hx, List.idxOf_cons_self, List.idxOf_cons_self]
      · have hrx : r x ≠ r name := fun heq => hx (hr x (by simp) name hname heq)
        have hmem : name ∈ names := (List.mem_cons.mp hname).resolve_left (Ne.symm hx)
        have hnames : ∀ x ∈ names, ∀ y ∈ names, r x = r y → x = y :=
          fun x hx y hy => hr x (List.mem_cons_of_mem _ hx) y (List.mem_cons_of_mem _ hy)
        rw [List.idxOf_cons_ne _ hrx, List.idxOf_cons_ne _ hx, ih hnames hmem]

end

/-! ## Assignments and tables -/

namespace Assignment

/-- The same values, bound to the new names. -/
def rename (r : String → String) (a : Assignment) : Assignment := ofList (a.toList.map (Prod.map r id))

theorem rename_ofList {es : List (String × Bool)} (hkeys : (es.map Prod.fst).Nodup)
    (hr : ∀ x ∈ es.map Prod.fst, ∀ y ∈ es.map Prod.fst, r x = r y → x = y) :
    (ofList es).rename r = ofList (es.map (Prod.map r id)) := by
  have hmem (e : String × Bool) : e ∈ (ofList es).toList ↔ e ∈ es := by
    rw [mem_toList_iff, get?_ofList hkeys, lookup_eq_some_iff_mem hkeys]
  have hrenamed {es' : List (String × Bool)} (hes' : (es'.map Prod.fst).Nodup) (hsub : ∀ e ∈ es', e ∈ es) :
      ((es'.map (Prod.map r id)).map Prod.fst).Nodup := by
    have hkey {x : String} (hx : x ∈ es'.map Prod.fst) : x ∈ es.map Prod.fst := by
      obtain ⟨e, he, rfl⟩ := List.mem_map.mp hx
      exact List.mem_map_of_mem (hsub e he)
    rw [List.map_map, show Prod.fst ∘ Prod.map r id = r ∘ Prod.fst from rfl, ← List.map_map]
    exact hes'.map_on fun x hx y hy => hr x (hkey hx) y (hkey hy)
  -- Both sides bind distinct names, so it is enough that they have the same entries.
  refine ext_get? fun name => Option.ext fun value => ?_
  have hleft := hrenamed (ofList es).nodup_keys fun e he => (hmem e).mp he
  have hright := hrenamed hkeys fun e he => he
  rw [rename, get?_ofList hleft, get?_ofList hright, lookup_eq_some_iff_mem hleft,
    lookup_eq_some_iff_mem hright, List.mem_map, List.mem_map]
  simp only [hmem]

end Assignment

namespace TruthTable

variable {t : TruthTable} {f : Formula String}

/-- The same rows, with other names for the positions. -/
def rename (r : String → String) (t : TruthTable) : TruthTable := { t with names := t.names.map r }

theorem size_rename : (t.rename r).size = t.size := by rw [size, rename, List.length_map, size]

theorem rows_rename : (t.rename r).rows = t.rows := by rw [rows, size_rename, rows]

theorem search_rename (wanted : Bool) : (t.rename r).search wanted = t.search wanted := by
  have hlength : (t.rename r).names.length = t.names.length := List.length_map r
  have hfirst : (t.rename r).first? wanted = t.first? wanted := by
    rw [first?, rows_rename]
    rfl
  rw [search, search, size_rename, hlength, hfirst]

theorem assignmentIn_rename (hnames : t.names.Nodup)
    (hr : ∀ x ∈ t.names, ∀ y ∈ t.names, r x = r y → x = y) (row : UInt64) :
    (t.rename r).assignmentIn row = (t.assignmentIn row).rename r := by
  have hkeys := Assignment.map_fst_mapIdx (bit row) t.names
  rw [assignmentIn, assignmentIn, Assignment.rename_ofList (by rwa [hkeys]) (by rwa [hkeys])]
  congr 1
  simp [rename, List.mapIdx_eq_zipIdx_map, List.zipIdx_map]

end TruthTable

namespace Formula

variable {limits : Limits} {f : Formula String}

section

variable (hr : ∀ x ∈ f.vars, ∀ y ∈ f.vars, r x = r y → x = y)
include hr

theorem distinctVars_map : (f.map r).distinctVars = f.distinctVars.map r := by
  rw [distinctVars, vars_map, eraseDups_map hr, distinctVars]

theorem injective_distinctVars : ∀ x ∈ f.distinctVars, ∀ y ∈ f.distinctVars, r x = r y → x = y :=
  fun x hx y hy => hr x (TruthTable.mem_distinctVars_iff.mp hx) y (TruthTable.mem_distinctVars_iff.mp hy)

theorem table_map : (f.map r).table = f.table.rename r := by
  have hbody : ((f.map r).map fun name => (f.distinctVars.map r).idxOf name) =
      f.map fun name => f.distinctVars.idxOf name := by
    rw [map_map]
    exact map_congr fun name hname =>
      idxOf_map (injective_distinctVars hr) (TruthTable.mem_distinctVars_iff.mpr hname)
  rw [table, distinctVars_map hr, hbody]
  rfl

theorem ofFormula_map (limit : Nat) :
    TruthTable.ofFormula limit (f.map r) = (TruthTable.ofFormula limit f).map (TruthTable.rename r) := by
  have hlength : (f.map r).distinctVars.length = f.distinctVars.length := by
    rw [distinctVars_map hr, List.length_map]
  by_cases h : f.distinctVars.length ≤ limit
  · rw [TruthTable.ofFormula_eq_ok h, TruthTable.ofFormula_eq_ok (by rwa [hlength]), table_map hr]
    rfl
  · have h := Nat.lt_of_not_le h
    rw [TruthTable.ofFormula_eq_error h, TruthTable.ofFormula_eq_error (by rwa [hlength]), hlength]
    rfl

/-- What goes through the rows of both tables alike gives the same answer about both formulas. -/
theorem ofFormula_map_bind {α : Type} {limit : Nat} {g g' : TruthTable → Logged QueryError α}
    (hg : g (f.table.rename r) = g' f.table) :
    Logged.ofExcept (TruthTable.ofFormula limit (f.map r)) >>= g =
      Logged.ofExcept (TruthTable.ofFormula limit f) >>= g' := by
  rw [ofFormula_map hr]
  by_cases h : f.distinctVars.length ≤ limit
  · rw [TruthTable.ofFormula_eq_ok h]
    exact hg
  · rw [TruthTable.ofFormula_eq_error (Nat.lt_of_not_le h)]
    rfl

/-! ## Answers -/

theorem isSatisfiable_map : (f.map r).isSatisfiable limits = f.isSatisfiable limits := by
  rw [isSatisfiable_eq, isSatisfiable_eq]
  refine ofFormula_map_bind hr ?_
  rw [TruthTable.search_rename]

theorem isContradiction_map : (f.map r).isContradiction limits = f.isContradiction limits := by
  rw [isContradiction_eq, isContradiction_eq, isSatisfiable_map hr]

theorem counterexample_map :
    (f.map r).counterexample limits = Option.map (Assignment.rename r) <$> f.counterexample limits := by
  have hrow : (f.table.rename r).assignmentIn = fun row => (f.table.assignmentIn row).rename r :=
    funext (TruthTable.assignmentIn_rename f.nodup_distinctVars (injective_distinctVars hr))
  rw [counterexample_eq, counterexample_eq, map_bind]
  refine ofFormula_map_bind hr ?_
  simp only [TruthTable.search_rename, hrow, map_bind, map_pure, Option.map_map, Function.comp_def]

theorem isTautology_map : (f.map r).isTautology limits = f.isTautology limits := by
  rw [isTautology_eq, isTautology_eq, counterexample_map hr, bind_map_left]
  simp only [Option.isNone_map]

theorem truthTable_map :
    (f.map r).truthTable limits = List.map (Prod.map (Assignment.rename r) id) <$> f.truthTable limits := by
  have hrow (row : UInt64) : (f.table.rename r).assignmentIn row = (f.table.assignmentIn row).rename r :=
    TruthTable.assignmentIn_rename f.nodup_distinctVars (injective_distinctVars hr) row
  have hrows : (f.table.rename r).toList = f.table.toList.map (Prod.map (Assignment.rename r) id) := by
    rw [TruthTable.toList, TruthTable.toList, TruthTable.rows_rename, List.map_map]
    exact List.map_congr_left fun row _ => Prod.ext (hrow row) rfl
  rw [truthTable_eq, truthTable_eq, ofFormula_map hr]
  by_cases h : f.distinctVars.length ≤ limits.forTables
  · rw [TruthTable.ofFormula_eq_ok h]
    exact congrArg Except.ok hrows
  · rw [TruthTable.ofFormula_eq_error (Nat.lt_of_not_le h)]
    rfl

end

/-- The second formula is the first one with other names, and so are all answers about it, with their journals. -/
structure IsRenaming (r : String → String) (f g : Formula String) : Prop where
  eq_map : g = f.map r
  distinctVars_eq : g.distinctVars = f.distinctVars.map r
  isTautology_eq : ∀ limits, g.isTautology limits = f.isTautology limits
  isSatisfiable_eq : ∀ limits, g.isSatisfiable limits = f.isSatisfiable limits
  isContradiction_eq : ∀ limits, g.isContradiction limits = f.isContradiction limits
  counterexample_eq : ∀ limits,
    g.counterexample limits = Option.map (Assignment.rename r) <$> f.counterexample limits
  truthTable_eq : ∀ limits,
    g.truthTable limits = List.map (Prod.map (Assignment.rename r) id) <$> f.truthTable limits

theorem isRenaming_map (hr : ∀ x ∈ f.vars, ∀ y ∈ f.vars, r x = r y → x = y) : f.IsRenaming r (f.map r) where
  eq_map := rfl
  distinctVars_eq := distinctVars_map hr
  isTautology_eq _ := isTautology_map hr
  isSatisfiable_eq _ := isSatisfiable_map hr
  isContradiction_eq _ := isContradiction_map hr
  counterexample_eq _ := counterexample_map hr
  truthTable_eq _ := truthTable_map hr

/-- New names that can be written, one for each variable, change nothing but names. This holds for the formula read
from a text in which each name is replaced, and for the one read from the rendered formula with new names. -/
theorem read_renamed (hr : ∀ x ∈ f.vars, ∀ y ∈ f.vars, r x = r y → x = y)
    (hnames : ∀ name ∈ f.vars, IsName (r name)) :
    (∀ text, (read text).result = .ok f → ∃ l : Layout, l.text = text ∧ (Token.scan text).result = .ok l.tokens ∧
      ∃ g, (read (l.rename r).text).result = .ok g ∧ f.IsRenaming r g) ∧
    ∃ g, (read (f.map r).render).result = .ok g ∧ f.IsRenaming r g := by
  constructor
  · intro text h
    obtain ⟨ts, hts, _⟩ := read_eq_ok_iff.mp h
    obtain ⟨l, hl, rfl, rfl⟩ := Token.scan_eq_ok_iff_exists_layout.mp hts
    exact ⟨l, rfl, hts, _, read_rename hl h hnames, isRenaming_map hr⟩
  · exact ⟨_, read_render_map hnames, isRenaming_map hr⟩

/-- With `a` for `z` and `zz` for `b`, the names change their order in the alphabet and their places in the text. -/
theorem read_renamed_order :
    let text := "NOT z AND (b -> z)"
    let f : Formula String := .binary .and (.not (.var "z")) (.binary .implies (.var "b") (.var "z"))
    let r : String → String := fun name => if name = "z" then "a" else "zz"
    (∀ x ∈ f.vars, ∀ y ∈ f.vars, r x = r y → x = y) ∧ (∀ name ∈ f.vars, IsName (r name)) ∧
      (∃ l : Layout, l.text = text ∧ (Token.scan text).result = .ok l.tokens ∧
        ∃ g, (read (l.rename r).text).result = .ok g ∧ f.IsRenaming r g) ∧
      ∃ g, (read (f.map r).render).result = .ok g ∧ f.IsRenaming r g := by
  intro text f r
  have hr : ∀ x ∈ f.vars, ∀ y ∈ f.vars, r x = r y → x = y := by decide
  have hnames : ∀ name ∈ f.vars, IsName (r name) := by
    intro name _
    show IsName (if name = "z" then "a" else "zz")
    split
    · exact isName_takeWhile (c := 'a') rfl []
    · exact isName_takeWhile (c := 'z') rfl ['z']
  have hread : (read text).result = .ok f := by decide +kernel
  obtain ⟨htext, hrender⟩ := read_renamed hr hnames
  exact ⟨hr, hnames, htext text hread, hrender⟩

end Formula

end Propositional
