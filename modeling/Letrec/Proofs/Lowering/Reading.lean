import Mathlib
import Letrec.Lowering
import Letrec.Proofs.Expr

/-!
# What lowering reads

Lowering does not look at its classification as a whole.  It asks for the components of a scope,
whether a definition is self-recursive, and which table a definition is in.  Two contexts that
answer alike (`LowerContext.Agrees`) lower every program to the same term, or fail on it with the
same error, and report the same on the way (`Agrees.program`).
-/

namespace Letrec.LowerContext

/-- Over the same tree, the two contexts answer everything that lowering asks alike. -/
structure Agrees (ctx ctx' : LowerContext) : Prop where
  tree : ctx.tree = ctx'.tree
  components : ∀ s, ctx.classification.components s = ctx'.classification.components s
  selfRecursive : ∀ id, (ctx.classification.flags id).selfRecursive
    = (ctx'.classification.flags id).selfRecursive
  table? : ∀ id, ctx.table? id = ctx'.table? id

namespace Agrees

variable {ctx ctx' : LowerContext} (h : ctx.Agrees ctx')

include h

lemma reference (id : DispatchId) (name : String) :
    ctx.reference id name = ctx'.reference id name := by
  rw [LowerContext.reference, LowerContext.reference, h.table?]

lemma identifier (i : Ident Scoped) : ctx.identifier i = ctx'.identifier i := by
  simp only [LowerContext.identifier, h.tree, h.reference]

lemma single (m : Member) : ctx.single m = ctx'.single m := by
  simp only [LowerContext.single, h.selfRecursive]

lemma group (ms : List Member) : ctx.group ms = ctx'.group ms := by
  simp only [LowerContext.group, h.table?]

lemma component (ms : List Member) : ctx.component ms = ctx'.component ms := by
  match ms with
  | [] => rfl
  | [m] => simp only [LowerContext.component, h.table?, h.group, h.single]
  | m :: n :: ms => simp only [LowerContext.component, h.group]

lemma bindings (ms : List Member) (cs : List (List DispatchId)) :
    ctx.bindings ms cs = ctx'.bindings ms cs := by
  induction cs with
  | nil => rfl
  | cons c cs ih => simp only [LowerContext.bindings, h.component, ih]

lemma grouping (s : ScopeId) (ms : List Member) (body : Term) :
    ctx.grouping s ms body = ctx'.grouping s ms body := by
  simp only [LowerContext.grouping, h.components, h.bindings]

/-- The members of a grouping agree if their bodies are lowered alike. -/
lemma members_of_bodies {ds : List (Definition Scoped)}
    (hds : ∀ d ∈ ds, ctx.expression d.body = ctx'.expression d.body) :
    ctx.members ds = ctx'.members ds := by
  induction ds with
  | nil => rw [LowerContext.members, LowerContext.members]
  | cons d ds ih =>
    obtain ⟨n, ps, b, a⟩ := d
    obtain ⟨hb, hds⟩ := List.forall_mem_cons.1 hds
    simp only [LowerContext.members, h.tree, hb, ih hds]

lemma expression (e : Expr Scoped) : ctx.expression e = ctx'.expression e := by
  induction e using Expr.induction with
  | ident i => rw [LowerContext.expression, LowerContext.expression, h.identifier]
  | int v a => rw [LowerContext.expression, LowerContext.expression]
  | lam ps b a ih => rw [LowerContext.expression, LowerContext.expression, ih]
  | call f x a ihf ihx => rw [LowerContext.expression, LowerContext.expression, ihf, ihx]
  | ite c p n a ihc ihp ihn =>
    rw [LowerContext.expression, LowerContext.expression, ihc, ihp, ihn]
  | letIn ds b a ihds ihb =>
    simp only [LowerContext.expression, ihb, h.members_of_bodies ihds, h.grouping]

lemma members (ds : List (Definition Scoped)) : ctx.members ds = ctx'.members ds :=
  h.members_of_bodies fun d _ => h.expression d.body

lemma program (p : Program Scoped) (entry : String) :
    ctx.program p entry = ctx'.program p entry := by
  simp only [LowerContext.program, h.tree, h.reference, h.members, h.grouping]

end Agrees

end Letrec.LowerContext
