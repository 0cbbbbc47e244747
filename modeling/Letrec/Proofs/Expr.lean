import Mathlib
import Letrec.Expr

/-!
# Induction on expressions

Expressions contain definitions and definitions contain expressions.  What is to be shown of all
expressions can be assumed of the bodies of the definitions of a `let` block.
-/

namespace Letrec

variable {α : Type} {P : Expr α → Prop}

@[elab_as_elim]
theorem Expr.induction (ident : ∀ i, P (.ident i)) (int : ∀ v a, P (.int v a))
    (lam : ∀ ps b a, P b → P (.lam ps b a)) (call : ∀ f x a, P f → P x → P (.call f x a))
    (ite : ∀ c p n a, P c → P p → P n → P (.ite c p n a))
    (letIn : ∀ ds b a, (∀ d ∈ ds, P d.body) → P b → P (.letIn ds b a)) (e : Expr α) : P e :=
  @Expr.rec α P (fun d => P d.body) (fun ds => ∀ d ∈ ds, P d.body) ident int lam call ite letIn
    (fun _ _ _ _ h => h) (fun _ hd => absurd hd List.not_mem_nil)
    (fun _ _ hd hds => List.forall_mem_cons.2 ⟨hd, hds⟩) e

lemma mem_namesOfDefs {ds : List (Definition α)} {x : String} :
    x ∈ namesOfDefs ds ↔
      ∃ d ∈ ds, x = d.name.name ∨ x ∈ d.params.map Ident.name ++ d.body.names := by
  induction ds with
  | nil => simp [namesOfDefs]
  | cons d ds ih =>
    obtain ⟨n, ps, b, a⟩ := d
    rw [namesOfDefs, List.mem_append, ih, Definition.names, List.cons_append, List.mem_cons]
    simp only [List.mem_cons, exists_eq_or_imp]

end Letrec
