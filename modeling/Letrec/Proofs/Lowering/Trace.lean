import Mathlib
import Letrec.Proofs.Lowering.Closed

/-!
# Identifiers and what they become

`Traced` follows an expression and its lowered form in parallel.  It keeps the functions around,
each with what it was made for (`Lambdas`), and collects for every identifier what it became and
under which functions (`Occurrence`).  These functions are those of the term: what an identifier
became stands under functions with just these parameters (`Traced.inside`).

Identifiers inside of a discarded definition become nothing.  The others are the live ones.
-/

namespace Letrec

/-! ### Functions of a lowered program -/

/-- What a function of a lowered program is made for. -/
inductive Origin where
  /-- A parameter of the function whose parameters have the scope. -/
  | parameter (scope : ScopeId) (name : String)
  /-- A definition, bound for the components after it and for the body of the grouping. -/
  | definition (id : DispatchId)
  /-- A definition, bound in its fixed point. -/
  | ownDefinition (id : DispatchId)
  /-- The table of a group, bound for the components after it and for the body of the grouping. -/
  | table (group : List DispatchId)
  /-- The table of a group, bound in its fixed point. -/
  | ownTable (group : List DispatchId)
  /-- An alias of a builtin operation, or the tag of a table. -/
  | hidden
deriving DecidableEq, Repr

/-- The functions around a place of a lowered program, by parameter, the innermost first. -/
abbrev Lambdas := List (String × Origin)

/-- The functions of several parameters, which have the scope `a`. -/
def underParams (a : ScopeId) (ps : List (Ident Scoped)) (Γ : Lambdas) : Lambdas :=
  (ps.map fun p => (p.name, Origin.parameter a p.name)).reverse ++ Γ

lemma map_fst_underParams (a : ScopeId) (ps : List (Ident Scoped)) :
    ((ps.map fun p => (p.name, Origin.parameter a p.name)).reverse).map Prod.fst
      = (ps.map Ident.name).reverse := by
  rw [List.map_reverse, List.map_map]
  rfl

/-- What the variable of a component is bound for, around the rest of the grouping. -/
def Origin.ofComponent : List DispatchId → Origin
  | [id] => .definition id
  | c => .table c

/-- What the variable of a component is bound for, in its fixed point. -/
def Origin.ofFixedPoint : List DispatchId → Origin
  | [id] => .ownDefinition id
  | c => .ownTable c

/-- An identifier of a program and what it became. -/
structure Occurrence where
  /-- The identifier. -/
  ident : Ident Scoped
  /-- The term that it became. -/
  term : Term
  /-- The functions around the term. -/
  around : Lambdas

mutual

/-- Under the functions `Γ`, an expression becomes a term, and its identifiers become what the list
says. -/
inductive Traced (r : Resolution) : Lambdas → Expr Scoped → Term → List Occurrence → Prop
  | ident {Γ i u} : Traced r Γ (.ident i) u [⟨i, u, Γ⟩]
  | int {Γ v a} : Traced r Γ (.int v a) (.int v) []
  | lam {Γ ps b a b' os} : Traced r (underParams a.scope ps Γ) b b' os →
      Traced r Γ (.lam ps b a) (.lams (ps.map Ident.name) b') os
  | call {Γ f x a f' x' os os'} : Traced r Γ f f' os → Traced r Γ x x' os' →
      Traced r Γ (.call f x a) (.app f' x') (os ++ os')
  | ite {Γ c p n a c' p' n' os os' os''} : Traced r Γ c c' os → Traced r Γ p p' os' →
      Traced r Γ n n' os'' → Traced r Γ (.ite c p n a) (.cond c' p' n') (os ++ os' ++ os'')
  | letIn {Γ ds b a bs os Γ' b' os'} :
      BindingsTraced r ds Γ (r.classify.components a.scope) bs os Γ' → Traced r Γ' b b' os' →
      Traced r Γ (.letIn ds b a) (LowerContext.chain bs b') (os ++ os')

/-- Components of the grouping `ds` become bindings, and the last functions are around the body. -/
inductive BindingsTraced (r : Resolution) : List (Definition Scoped) → Lambdas →
    List (List DispatchId) → List (String × Term) → List Occurrence → Lambdas → Prop
  | nil {ds Γ} : BindingsTraced r ds Γ [] [] [] Γ
  | discarded {ds Γ id d cs bs os Γ'} : d ∈ ds → r.tree.Numbers id d → d.isDiscard = true →
      BindingsTraced r ds Γ cs bs os Γ' → BindingsTraced r ds Γ ([id] :: cs) bs os Γ'
  | cons {ds Γ c b cs bs os os' Γ'} : ComponentTraced r ds Γ c b os →
      BindingsTraced r ds ((b.1, .ofComponent c) :: Γ) cs bs os' Γ' →
      BindingsTraced r ds Γ (c :: cs) (b :: bs) (os ++ os') Γ'

/-- A component of the grouping `ds` becomes a binding: a definition, a fixed point or a table. -/
inductive ComponentTraced (r : Resolution) : List (Definition Scoped) → Lambdas →
    List DispatchId → String × Term → List Occurrence → Prop
  | plain {ds Γ id d b os} : d ∈ ds → r.tree.Numbers id d →
      Traced r (underParams d.ann.scope d.params Γ) d.body b os →
      ComponentTraced r ds Γ [id] (d.name.name, .lams (d.params.map Ident.name) b) os
  -- the functions of the fixed-point combinator are beside the definition, not around it
  | fixed {ds Γ id d b os} : d ∈ ds → r.tree.Numbers id d →
      Traced r (underParams d.ann.scope d.params ((d.name.name, .ownDefinition id) :: Γ)) d.body
        b os →
      ComponentTraced r ds Γ [id]
        (d.name.name, .fix d.name.name (.lams (d.params.map Ident.name) b)) os
  | table {ds Γ c z m ms os} : dispatchAlias? c = some z →
      MembersTraced r ds ((tagName, .hidden) :: (z, .ownTable c) :: Γ) c (m :: ms) os →
      ComponentTraced r ds Γ c (z, .dispatchTable z m ms) os

/-- Definitions of the grouping `ds`, by number, become members of a table. -/
inductive MembersTraced (r : Resolution) : List (Definition Scoped) → Lambdas →
    List DispatchId → List (DispatchId × Term) → List Occurrence → Prop
  | nil {ds Γ} : MembersTraced r ds Γ [] [] []
  | cons {ds Γ id d b ids ms os os'} : d ∈ ds → r.tree.Numbers id d →
      Traced r (underParams d.ann.scope d.params Γ) d.body b os → MembersTraced r ds Γ ids ms os' →
      MembersTraced r ds Γ (id :: ids) ((id, .lams (d.params.map Ident.name) b) :: ms) (os ++ os')

end

/-! ### Places in a term -/

/-- The term `u` stands under functions with the parameters `ys`, the innermost first, if this term
stands under functions with the parameters `xs`. -/
inductive Term.Inside (u : Term) (ys : List String) : List String → Term → Prop
  | here : Inside u ys ys u
  | lam {xs x b} : Inside u ys (x :: xs) b → Inside u ys xs (.lam x b)
  | fn {xs f a} : Inside u ys xs f → Inside u ys xs (.app f a)
  | arg {xs f a} : Inside u ys xs a → Inside u ys xs (.app f a)

namespace Term.Inside

variable {u t b : Term} {xs ys : List String}

lemma lams {ps : List String} (h : Inside u ys (ps.reverse ++ xs) b) :
    Inside u ys xs (.lams ps b) := by
  induction ps generalizing xs with
  | nil => exact h
  | cons p ps ih =>
    rw [List.reverse_cons, List.append_assoc] at h
    exact .lam (ih h)

lemma lams_params {a : ScopeId} {ps : List (Ident Scoped)} {Γ : Lambdas}
    (h : Inside u ys ((underParams a ps Γ).map Prod.fst) b) :
    Inside u ys (Γ.map Prod.fst) (.lams (ps.map Ident.name) b) := by
  rw [underParams, List.map_append, map_fst_underParams] at h
  exact lams h

lemma apps {f a : Term} {as : List Term} (h : Inside u ys xs a) (ha : a ∈ as) :
    Inside u ys xs (.apps f as) := by
  obtain ⟨l, l', rfl⟩ := List.append_of_mem ha
  rw [Term.apps, List.foldl_append, List.foldl_cons]
  have hfn : ∀ g, Inside u ys xs g → Inside u ys xs (l'.foldl Term.app g) := by
    induction l' with
    | nil => exact fun _ hg => hg
    | cons c l' ih => exact fun g hg => ih (by simp) _ (.fn hg)
  exact hfn _ (.arg h)

lemma selection {q m : DispatchId × Term} {ms : List (DispatchId × Term)} (hq : q ∈ m :: ms)
    (h : Inside u ys xs q.2) : Inside u ys xs (Term.selection m ms) := by
  induction ms generalizing m with
  | nil =>
    obtain rfl := List.mem_singleton.1 hq
    exact h
  | cons n ms ih =>
    rcases List.mem_cons.1 hq with rfl | hq
    · exact h.apps (by simp)
    · exact (ih hq).apps (by simp)

end Term.Inside

/-- The body of a grouping stands under the functions of its bindings. -/
lemma BindingsTraced.inside_body {r : Resolution} {Γ Γ' : Lambdas} {ds : List (Definition Scoped)}
    {cs : List (List DispatchId)} {bs : List (String × Term)} {os : List Occurrence} {b u : Term}
    {ys : List String} (hb : u.Inside ys (Γ'.map Prod.fst) b) :
    BindingsTraced r ds Γ cs bs os Γ' → u.Inside ys (Γ.map Prod.fst) (LowerContext.chain bs b)
  | .nil => hb
  | .discarded _ _ _ h => h.inside_body hb
  | .cons _ h => .fn (.lam (h.inside_body hb))

/-- An identifier became something that stands under the functions around it, if the term `t` stands
under the functions `Γ`. -/
def Occurrence.InsideOf (Γ : Lambdas) (t : Term) (o : Occurrence) : Prop :=
  o.term.Inside (o.around.map Prod.fst) (Γ.map Prod.fst) t

mutual

/-- What an identifier became stands under the functions around it. -/
lemma Traced.inside {r : Resolution} {Γ : Lambdas} {e : Expr Scoped} {t : Term}
    {os : List Occurrence} : Traced r Γ e t os → ∀ o ∈ os, o.InsideOf Γ t
  | .ident => List.forall_mem_singleton.2 .here
  | .int => by simp
  | .lam h => fun o ho => (h.inside o ho).lams_params
  | .call hf hx => by
    refine List.forall_mem_append.2 ⟨?_, ?_⟩
    · exact fun o ho => .fn (hf.inside o ho)
    · exact fun o ho => .arg (hx.inside o ho)
  | .ite hc hp hn => by
    refine List.forall_mem_append.2 ⟨List.forall_mem_append.2 ⟨?_, ?_⟩, ?_⟩
    · exact fun o ho => .apps (hc.inside o ho) (by simp)
    · exact fun o ho => .apps (hp.inside o ho) (by simp)
    · exact fun o ho => .apps (hn.inside o ho) (by simp)
  | .letIn hbs hb => by
    refine List.forall_mem_append.2 ⟨hbs.inside _, ?_⟩
    exact fun o ho => hbs.inside_body (hb.inside o ho)

lemma BindingsTraced.inside {r : Resolution} {Γ Γ' : Lambdas} {ds : List (Definition Scoped)}
    {cs : List (List DispatchId)} {bs : List (String × Term)} {os : List Occurrence} (b : Term) :
    BindingsTraced r ds Γ cs bs os Γ' → ∀ o ∈ os, o.InsideOf Γ (LowerContext.chain bs b)
  | .nil => by simp
  | .discarded _ _ _ h => h.inside b
  | .cons hc h => by
    refine List.forall_mem_append.2 ⟨?_, ?_⟩
    · exact fun o ho => .arg (hc.inside o ho)
    · exact fun o ho => .fn (.lam (h.inside b o ho))

lemma ComponentTraced.inside {r : Resolution} {Γ : Lambdas} {ds : List (Definition Scoped)}
    {c : List DispatchId} {b : String × Term} {os : List Occurrence} :
    ComponentTraced r ds Γ c b os → ∀ o ∈ os, o.InsideOf Γ b.2
  | .plain _ _ h => fun o ho => (h.inside o ho).lams_params
  | .fixed _ _ h => fun o ho => .arg (.lam (h.inside o ho).lams_params)
  | .table _ h => fun o ho => by
    obtain ⟨m, hm, hin⟩ := h.inside o ho
    exact .arg (.lam (.lam (.selection hm hin)))

lemma MembersTraced.inside {r : Resolution} {Γ : Lambdas} {ds : List (Definition Scoped)}
    {ids : List DispatchId} {ms : List (DispatchId × Term)} {os : List Occurrence} :
    MembersTraced r ds Γ ids ms os → ∀ o ∈ os, ∃ m ∈ ms, o.InsideOf Γ m.2
  | .nil => by simp
  | .cons _ _ hd h => by
    refine List.forall_mem_append.2 ⟨fun o ho => ?_, fun o ho => ?_⟩
    · exact ⟨_, List.mem_cons_self, (hd.inside o ho).lams_params⟩
    · obtain ⟨m, hm, hin⟩ := h.inside o ho
      exact ⟨m, List.mem_cons_of_mem _ hm, hin⟩

end

/-! ### Live identifiers -/

mutual

/-- The identifiers of an expression that are not inside of a discarded definition. -/
def Expr.liveIdents {α : Type} : Expr α → List (Ident α)
  | .ident i => [i]
  | .int _ _ => []
  | .lam _ b _ => b.liveIdents
  | .call f x _ => f.liveIdents ++ x.liveIdents
  | .ite c p n _ => c.liveIdents ++ p.liveIdents ++ n.liveIdents
  | .letIn ds b _ => liveIdentsOfDefs ds ++ b.liveIdents

/-- The identifiers in the bodies of definitions that are not discarded. -/
def liveIdentsOfDefs {α : Type} : List (Definition α) → List (Ident α)
  | [] => []
  | ⟨n, _, b, _⟩ :: ds => (if isDiscard n.name then [] else b.liveIdents) ++ liveIdentsOfDefs ds

end

/-- The identifiers of a definition, none if it is discarded. -/
def Definition.liveIdents {α : Type} (d : Definition α) : List (Ident α) :=
  if d.isDiscard then [] else d.body.liveIdents

lemma liveIdentsOfDefs_eq {α : Type} (ds : List (Definition α)) :
    liveIdentsOfDefs ds = ds.flatMap Definition.liveIdents := by
  induction ds with
  | nil => rfl
  | cons d ds ih =>
    obtain ⟨n, ps, b, a⟩ := d
    rw [liveIdentsOfDefs, ih, List.flatMap_cons]
    rfl

/-- The identifiers of the definition of a number. -/
def liveIdentsOf (ids : List DispatchId) (ds : List (Definition Scoped)) (id : DispatchId) :
    List (Ident Scoped) := ((ids.zip ds).lookup id).elim [] Definition.liveIdents

section LiveIdents

variable {t : ScopeTree} {g : ScopeId} {ids : List DispatchId} {ds : List (Definition Scoped)}

lemma Group.liveIdentsOf_eq (hg : Group t g ids ds) {id : DispatchId} {d : Definition Scoped}
    (hd : (id, d) ∈ ids.zip ds) : liveIdentsOf ids ds id = d.liveIdents := by
  have hnodup : ((ids.zip ds).map Prod.fst).Nodup := by
    rw [List.map_fst_zip hg.length.le]
    exact hg.nodup
  rw [liveIdentsOf, lookup_eq_some_of_mem hnodup hd, Option.elim_some]

/-- All numbers together have the identifiers of all definitions. -/
lemma Group.flatMap_liveIdentsOf (hg : Group t g ids ds) :
    ids.flatMap (liveIdentsOf ids ds) = liveIdentsOfDefs ds := by
  calc ids.flatMap (liveIdentsOf ids ds)
      = ((ids.zip ds).map Prod.fst).flatMap (liveIdentsOf ids ds) := by
        rw [List.map_fst_zip hg.length.le]
    _ = ((ids.zip ds).map Prod.snd).flatMap Definition.liveIdents := by
        rw [List.flatMap_map, List.flatMap_map]
        exact List.flatMap_congr fun p hp => hg.liveIdentsOf_eq hp
    _ = liveIdentsOfDefs ds := by
        rw [List.map_snd_zip hg.length.ge, liveIdentsOfDefs_eq]

end LiveIdents

end Letrec
