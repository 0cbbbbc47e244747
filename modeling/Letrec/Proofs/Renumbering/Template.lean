import Mathlib
import Letrec.Expr
import Letrec.Term.Recursive

/-!
# Templates of lowered terms

The numbers of definitions get into a lowered term in three ways: a reference to a member of a table
names the table and gives the tag, a table is bound under its name, and a table compares its tag
with the numbers of its members.  A `Template` is a lowered term in which these places are marked;
filling in the numbers, each changed by a function, gives a term.

`Template.From` says of the rest that it is made of given names and integers.  `Filled` relates the
two terms that one template gives with the numbers as they are and with the numbers changed.
-/

namespace Letrec

variable {α : Type}

/-! ### Integers of a program -/

mutual

/-- The integers of an expression, in source order. -/
def Expr.ints : Expr α → List Int64
  | .ident _ => []
  | .int v _ => [v]
  | .lam _ b _ => b.ints
  | .call f x _ => f.ints ++ x.ints
  | .ite c p n _ => c.ints ++ p.ints ++ n.ints
  | .letIn ds b _ => intsOfDefs ds ++ b.ints

/-- The integers in the bodies of a list of definitions, in source order. -/
def intsOfDefs : List (Definition α) → List Int64
  | [] => []
  | ⟨_, _, b, _⟩ :: ds => b.ints ++ intsOfDefs ds

end

/-- The integers of a program. -/
def Program.ints (p : Program α) : List Int64 := intsOfDefs p.defs

/-! ### Templates -/

/-- A lowered term in which the numbers of definitions are marked. -/
inductive Template where
  /-- A variable. -/
  | var (name : String)
  /-- An integer of the program. -/
  | int (value : Int64)
  /-- A function. -/
  | lam (param : String) (body : Template)
  /-- An application. -/
  | app (fn arg : Template)
  /-- A choice of the program. -/
  | cond (c t e : Template)
  /-- A self-recursive definition. -/
  | fix (self : String) (body : Template)
  /-- A reference to the member `id` of the table whose lowest number is `first`. -/
  | reference (first id : DispatchId)
  /-- A choice of a table between its member `id` and the others. -/
  | select (id : DispatchId) (member others : Template)
  /-- A table, by the selection of its members, bound around the rest. -/
  | table (first : DispatchId) (selection rest : Template)

namespace Template

/-- The term with the numbers filled in, each changed by `f`. -/
def fill (f : DispatchId → DispatchId) : Template → Term
  | var x => .var x
  | int v => .int v
  | lam x b => .lam x (b.fill f)
  | app g a => .app (g.fill f) (a.fill f)
  | cond c t e => .cond (c.fill f) (t.fill f) (e.fill f)
  | fix self b => .fix self (b.fill f)
  | reference first id => .dispatch (tableAlias (f first)) (f id)
  | select id m others => .cond (.tagIs (f id)) (m.fill f) (others.fill f)
  | table first selection rest =>
    .app (.lam (tableAlias (f first)) (rest.fill f))
      (.fix (tableAlias (f first)) (.lam tagName (selection.fill f)))

/-- The names and integers outside of the marks are among these. -/
def From (xs : List String) (vs : List Int64) : Template → Prop
  | var x => x ∈ xs
  | int v => v ∈ vs
  | lam x b => x ∈ xs ∧ b.From xs vs
  | app g a => g.From xs vs ∧ a.From xs vs
  | cond c t e => c.From xs vs ∧ t.From xs vs ∧ e.From xs vs
  | fix self b => self ∈ xs ∧ b.From xs vs
  | reference _ _ => True
  | select _ m others => m.From xs vs ∧ others.From xs vs
  | table _ selection rest => selection.From xs vs ∧ rest.From xs vs

end Template

/-! ### Two terms of one template -/

/-- The two terms are given by one template, the second one with the numbers changed by `f`. -/
def Filled (f : DispatchId → DispatchId) (xs : List String) (vs : List Int64) (t t' : Term) :
    Prop :=
  ∃ τ : Template, τ.From xs vs ∧ t = τ.fill id ∧ t' = τ.fill f

namespace Filled

variable {f : DispatchId → DispatchId} {xs : List String} {vs : List Int64}
  {t t' u u' w w' : Term} {x : String}

lemma var (hx : x ∈ xs) : Filled f xs vs (.var x) (.var x) := ⟨.var x, hx, rfl, rfl⟩

lemma int {v : Int64} (hv : v ∈ vs) : Filled f xs vs (.int v) (.int v) := ⟨.int v, hv, rfl, rfl⟩

lemma lam (hx : x ∈ xs) (h : Filled f xs vs t t') : Filled f xs vs (.lam x t) (.lam x t') := by
  obtain ⟨τ, hτ, rfl, rfl⟩ := h
  exact ⟨.lam x τ, ⟨hx, hτ⟩, rfl, rfl⟩

lemma lams {ys : List String} (hys : ys ⊆ xs) (h : Filled f xs vs t t') :
    Filled f xs vs (.lams ys t) (.lams ys t') := by
  induction ys with
  | nil => exact h
  | cons y ys ih =>
    rw [List.cons_subset] at hys
    exact lam hys.1 (ih hys.2)

lemma app (h : Filled f xs vs t t') (h' : Filled f xs vs u u') :
    Filled f xs vs (.app t u) (.app t' u') := by
  obtain ⟨τ, hτ, rfl, rfl⟩ := h
  obtain ⟨υ, hυ, rfl, rfl⟩ := h'
  exact ⟨.app τ υ, ⟨hτ, hυ⟩, rfl, rfl⟩

lemma cond (hc : Filled f xs vs t t') (ht : Filled f xs vs u u') (he : Filled f xs vs w w') :
    Filled f xs vs (.cond t u w) (.cond t' u' w') := by
  obtain ⟨τ, hτ, rfl, rfl⟩ := hc
  obtain ⟨υ, hυ, rfl, rfl⟩ := ht
  obtain ⟨ω, hω, rfl, rfl⟩ := he
  exact ⟨.cond τ υ ω, ⟨hτ, hυ, hω⟩, rfl, rfl⟩

lemma fix (hx : x ∈ xs) (h : Filled f xs vs t t') : Filled f xs vs (.fix x t) (.fix x t') := by
  obtain ⟨τ, hτ, rfl, rfl⟩ := h
  exact ⟨.fix x τ, ⟨hx, hτ⟩, rfl, rfl⟩

lemma reference (first id : DispatchId) :
    Filled f xs vs (.dispatch (tableAlias first) id) (.dispatch (tableAlias (f first)) (f id)) :=
  ⟨.reference first id, trivial, rfl, rfl⟩

lemma select (id : DispatchId) (h : Filled f xs vs t t') (h' : Filled f xs vs u u') :
    Filled f xs vs (.cond (.tagIs id) t u) (.cond (.tagIs (f id)) t' u') := by
  obtain ⟨τ, hτ, rfl, rfl⟩ := h
  obtain ⟨υ, hυ, rfl, rfl⟩ := h'
  exact ⟨.select id τ υ, ⟨hτ, hυ⟩, rfl, rfl⟩

/-- The same member under its two numbers. -/
def Numbered (f : DispatchId → DispatchId) (xs : List String) (vs : List Int64)
    (m m' : DispatchId × Term) : Prop := m'.1 = f m.1 ∧ Filled f xs vs m.2 m'.2

lemma selection {m m' : DispatchId × Term} {ms ms' : List (DispatchId × Term)}
    (h : Numbered f xs vs m m') (hs : List.Forall₂ (Numbered f xs vs) ms ms') :
    Filled f xs vs (.selection m ms) (.selection m' ms') := by
  induction hs generalizing m m' with
  | nil => exact h.2
  | cons hn _ ih =>
    rw [Term.selection, Term.selection, h.1]
    exact select m.1 h.2 (ih hn)

/-- The same table under its two names, bound around the same rest. -/
lemma table {m m' : DispatchId × Term} {ms ms' : List (DispatchId × Term)} (first : DispatchId)
    (h : Numbered f xs vs m m') (hs : List.Forall₂ (Numbered f xs vs) ms ms')
    (hrest : Filled f xs vs t t') :
    Filled f xs vs (.app (.lam (tableAlias first) t) (.dispatchTable (tableAlias first) m ms))
      (.app (.lam (tableAlias (f first)) t')
        (.dispatchTable (tableAlias (f first)) m' ms')) := by
  obtain ⟨τ, hτ, hsel, hsel'⟩ := selection h hs
  obtain ⟨υ, hυ, rfl, rfl⟩ := hrest
  refine ⟨.table first τ υ, ⟨hτ, hυ⟩, ?_, ?_⟩
  · rw [Template.fill, ← hsel]
    rfl
  · rw [Template.fill, ← hsel']
    rfl

end Filled

end Letrec
