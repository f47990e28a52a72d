import Propositional.Proofs.Language.Layout
import Propositional.Proofs.Language.RoundTrip

/-!
# Reading a text with other names

Reading treats all names alike. A text in which every name is replaced by another one that can be written is read
as the formula with the same replacement, although the names behind it move to other places.
-/

namespace Propositional

/-! ## Renamed tokens -/

def Kind.rename (r : String → String) : Kind → Kind
  | .var name => .var (r name)
  | k => k

namespace Layout

variable {r : String → String} {l : Layout}

/-- The same gaps and tokens, with each name replaced. -/
def rename (r : String → String) : Layout → Layout
  | last n => last n
  | token n k rest => token n (k.rename r) (rest.rename r)

def kinds : Layout → List Kind
  | last _ => []
  | token _ k rest => k :: rest.kinds

theorem map_kind_tokensFrom (l : Layout) (offset : Nat) : (l.tokensFrom offset).map Token.kind = l.kinds := by
  induction l generalizing offset with
  | last n => rfl
  | token n k rest ih =>
      rw [tokensFrom, List.map_cons, ih]
      rfl

theorem map_kind_tokens (l : Layout) : l.tokens.map Token.kind = l.kinds := l.map_kind_tokensFrom 0

theorem kinds_rename (l : Layout) : (l.rename r).kinds = l.kinds.map (Kind.rename r) := by
  induction l with
  | last n => rfl
  | token n k rest ih => rw [rename, kinds, ih, kinds, List.map_cons]

theorem MayFollow.rename {k : Kind} (h : l.MayFollow k) : (l.rename r).MayFollow (k.rename r) := by
  have hgap : (l.rename r).gap = l.gap := by cases l <;> rfl
  have hfirst : (l.rename r).first? = l.first?.map (Kind.rename r) := by cases l <;> rfl
  cases k with
  | operator op =>
      show 0 < (l.rename r).gap
      rw [hgap]
      exact h
  | leftParen | rightParen => exact trivial
  | var name =>
      show 0 < (l.rename r).gap ∨ (l.rename r).first? = none ∨ (l.rename r).first? = some .rightParen
      rw [hgap, hfirst]
      refine h.imp_right (Or.imp (fun hnone => ?_) (fun hparen => ?_))
      · rw [hnone, Option.map_none]
      · rw [hparen]
        rfl

/-- Only the new names matter for whether the text is split into tokens. -/
theorem Admissible.rename (h : l.Admissible) (hr : ∀ name ∈ l.kinds.filterMap Kind.name?, IsName (r name)) :
    (l.rename r).Admissible := by
  induction l with
  | last n => exact trivial
  | token n k rest ih =>
      obtain ⟨hk, hrest, h⟩ := h
      cases k with
      | var name =>
          have ⟨hname, hnames⟩ := List.forall_mem_cons.mp hr
          exact ⟨hname, hrest.rename, ih h hnames⟩
      | operator _ | leftParen | rightParen => exact ⟨trivial, hrest.rename, ih h hr⟩

end Layout

/-! ## Renamed formulas -/

/-- Operands are renamed as the tokens are that make them. -/
theorem Part.Resolves.rename {part : Part} {ks : List Kind} {operands operands' : List (Formula String)}
    (r : String → String) (h : part.Resolves operands ks operands') :
    part.Resolves (operands.map (Formula.map r)) (ks.map (Kind.rename r)) (operands'.map (Formula.map r)) := by
  induction h with
  | nil _ => exact .nil _
  | var _ ih => exact .var ih
  | not _ ih => exact .not ih
  | parens _ _ ih ih' =>
      rw [List.map_append]
      exact .parens ih ih'
  | stop _ => exact .stop _
  | more hc _ _ ih ih' =>
      rw [List.map_append]
      exact .more hc ih ih'
  | implies _ ih => exact .implies ih
  | group _ _ ih ih' =>
      rw [List.map_append]
      exact .group ih ih'

namespace Formula

variable {r : String → String} {f : Formula String}

theorem vars_map {α β : Type} (g : α → β) (f : Formula α) : (f.map g).vars = f.vars.map g := by
  induction f with
  | var x => rfl
  | not f ih => exact ih
  | binary c l r ihl ihr =>
      show (l.map g).vars ++ (r.map g).vars = _
      rw [ihl, ihr, vars, List.map_append]

theorem map_map {α β γ : Type} (g : α → β) (h : β → γ) (f : Formula α) :
    (f.map g).map h = f.map fun x => h (g x) := by
  induction f with
  | var x => rfl
  | not f ih => exact congrArg not ih
  | binary c l r ihl ihr => exact congrArg₂ (binary c) ihl ihr

theorem map_congr {α β : Type} {g h : α → β} {f : Formula α} (hf : ∀ x ∈ f.vars, g x = h x) :
    f.map g = f.map h := by
  induction f with
  | var x => exact congrArg var (hf x List.mem_cons_self)
  | not f ih => exact congrArg not (ih hf)
  | binary c l r ihl ihr =>
      have ⟨hl, hr⟩ := List.forall_mem_append.mp hf
      exact congrArg₂ (binary c) (ihl hl) (ihr hr)

theorem read_rename {l : Layout} (hl : l.Admissible) (h : (read l.text).result = .ok f)
    (hr : ∀ name ∈ f.vars, IsName (r name)) : (read (l.rename r).text).result = .ok (f.map r) := by
  have hscan {l : Layout} (hl : l.Admissible) : (Token.scan l.text).result = .ok l.tokens :=
    Token.scan_eq_ok_iff_exists_layout.mpr ⟨l, hl, rfl, rfl⟩
  have hf := resolves_of_read h (hscan hl)
  rw [Layout.map_kind_tokens] at hf
  rw [vars_of_read h (hscan hl), Layout.map_kind_tokens] at hr
  refine read_eq_ok_iff.mpr ⟨_, hscan (hl.rename hr), ?_⟩
  rw [Layout.map_kind_tokens, Layout.kinds_rename]
  exact hf.rename r

theorem read_render_map (hr : ∀ name ∈ f.vars, IsName (r name)) :
    (read (f.map r).render).result = .ok (f.map r) := by
  refine read_render_of_isName ?_
  rw [vars_map]
  exact List.forall_mem_map.mpr hr

end Formula

end Propositional
