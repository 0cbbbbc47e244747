import Mathlib
import Letrec.Proofs.Lowering.Closed
import Letrec.Proofs.Surface.Simulation

/-!
# Compiled programs mean what the programs mean

A program is evaluated over the standard operations, and so is the term that it is compiled to.
Both start with the same operations under the same names; the term binds the aliases of `if` and
`==` first and then the definitions.  Evaluated by name, the term has the answers that the program
has (`means_ok_iff`, `means_error_iff`).
-/

namespace Letrec

/-! ### The standard operations -/

/-- The standard operations under their names, as objects of evaluation by name. -/
def ByName.standard : ByName.Env :=
  (Primitive.standard.map fun p => (p.name, ByName.Object.builtin p [])).reverse

lemma Primitive.nodup_standard : (standard.map Primitive.name).Nodup := by decide

lemma Builtins.names_standard :
    Builtins.standard.names = Primitive.standard.map Primitive.name := by
  rw [Builtins.names, standard_entries, List.map_map]
  rfl

lemma ByName.lookup_standard {p : Primitive} (hp : p ∈ Primitive.standard) :
    ByName.standard.lookup p.name = some (.builtin p []) := by
  refine lookup_eq_some_of_mem ?_ (List.mem_reverse.2 (List.mem_map_of_mem hp))
  rw [ByName.standard, List.map_reverse, List.map_map, List.nodup_reverse]
  exact Primitive.nodup_standard

lemma Surface.lookup_standard {p : Primitive} (hp : p ∈ Primitive.standard) :
    Surface.lookup p.name Surface.standard = some (.builtin p []) := by
  have hlist : ∀ ps : List Primitive, (ps.map Primitive.name).Nodup → p ∈ ps →
      Surface.lookup p.name (ps.map fun p => .bind p.name (.builtin p []))
        = some (.builtin p []) := by
    intro ps hnodup hp
    induction ps with
    | nil => exact absurd hp (by simp)
    | cons q ps ih =>
      rw [List.map_cons, List.nodup_cons] at hnodup
      rw [List.map_cons, Surface.lookup]
      rcases List.mem_cons.1 hp with rfl | hp
      · rw [if_pos rfl]
      · have hne : p.name ≠ q.name := fun heq => hnodup.1 (heq ▸ List.mem_map_of_mem hp)
        rw [if_neg hne]
        exact ih hnodup.2 hp
  exact hlist _ Primitive.nodup_standard hp

/-! ### Names of a program -/

section Names

variable {α β : Type} (f : α → β)

lemma namesOfDefs_mapDefs {ds : List (Definition α)}
    (h : ∀ d ∈ ds, (d.body.map f).names = d.body.names) :
    namesOfDefs (mapDefs f ds) = namesOfDefs ds := by
  induction ds with
  | nil => rfl
  | cons d ds ih =>
    rw [List.forall_mem_cons] at h
    obtain ⟨n, ps, b, a⟩ := d
    have hb : (b.map f).names = b.names := h.1
    simp only [mapDefs, Definition.map, namesOfDefs, Definition.names, hb, ih h.2, List.map_map]
    rfl

lemma Expr.names_map (e : Expr α) : (e.map f).names = e.names := by
  induction e using Expr.induction with
  | ident i => rfl
  | int v a => rfl
  | lam ps b a ih =>
    simp only [Expr.map, Expr.names, ih, List.map_map]
    rfl
  | call g x a ihg ihx => simp only [Expr.map, Expr.names, ihg, ihx]
  | ite c p n a ihc ihp ihn => simp only [Expr.map, Expr.names, ihc, ihp, ihn]
  | letIn ds b a ihds ihb => simp only [Expr.map, Expr.names, namesOfDefs_mapDefs f ihds, ihb]

lemma Program.names_map (p : Program α) : (p.map f).names = p.names := by
  rw [Program.map, Program.names, Program.names, ← mapDefs_eq_map]
  exact namesOfDefs_mapDefs f fun d _ => d.body.names_map f

end Names

namespace Surface

/-! ### The outermost bindings -/

/-- The standard operations, `if` also under its alias. -/
def ifAliased : ByName.Env := (ifAlias, .pair (.var "if") ByName.standard) :: ByName.standard

/-- The standard operations, `if` and `==` also under their aliases. -/
def aliased : ByName.Env := (eqAlias, .pair (.var "==") ifAliased) :: ifAliased

lemma aliased_aliased : ByName.Aliased aliased := by
  have hif : ByName.standard.lookup "if" = some (.builtin .conditional []) :=
    ByName.lookup_standard (p := .conditional) (by simp [Primitive.standard])
  have heq : ifAliased.lookup "==" = some (.builtin (.comparison "==" (· == ·)) []) := by
    rw [ifAliased, lookup_cons_ite, if_neg (by decide)]
    exact ByName.lookup_standard (p := .comparison "==" (· == ·)) (by simp [Primitive.standard])
  constructor
  · exact ByName.slower_var (o := .pair (.var "if") ByName.standard) rfl
      (ByName.slower_var hif (.refl _))
  · exact ByName.slower_var (o := .pair (.var "==") ifAliased) rfl
      (ByName.slower_var heq (.refl _))

lemma lookup_aliased {y : String} (hy : ¬ Generated y) :
    aliased.lookup y = ByName.standard.lookup y := by
  rw [aliased, ifAliased, lookup_cons_ite, if_neg fun h => hy (Or.inr (Or.inl h)),
    lookup_cons_ite, if_neg fun h => hy (Or.inl h)]

/-- A name that denotes a builtin operation refers to the operation. -/
lemma refers_standard {r : Resolution} {ids₀ : List DispatchId}
    (hr : r.WellScoped Builtins.standard.names ids₀) {ds : List (Definition Scoped)} {y : String}
    {e : Entry} (he : r.tree.lookup ScopeTree.root y = some e) (hbound : y ∉ boundNames ds)
    (hy : ¬ Generated y) : Refers r y e (groupFrame ds :: standard) aliased := by
  obtain ⟨rfl, hnames⟩ := hr.lookup_root he
  rw [Builtins.names_standard] at hnames
  obtain ⟨p, hp, rfl⟩ := List.mem_map.1 hnames
  exact .object rfl ((lookup_groupFrame_of_notMem hbound).trans (lookup_standard hp))
    ((lookup_aliased hy).trans (ByName.lookup_standard hp)) (sim_builtin_iff.2 .nil)

/-! ### Names that do not occur -/

section Absent

variable {names : List String} {r : Resolution} {ids₀ : List DispatchId}
  (hr : r.WellScoped names ids₀) {x : String} (hx : ¬ Generated x)

include hr hx

lemma closedIn_refer_ne {y : String} (hne : y ≠ x) (e : Entry) :
    (r.context.refer y e).ClosedIn {z | z ≠ x} := by
  have hlowered : (r.context.refer y e).Lowered := by
    cases e with
    | parameter => trivial
    | builtin => trivial
    | binding id =>
      rw [LowerContext.refer, LowerContext.reference]
      cases r.context.table? id with
      | none => trivial
      | some table => exact ⟨trivial, trivial⟩
  refine ⟨hlowered, fun z hz heq => ?_⟩
  exact notMem_freeVars_refer hr hx (Ne.symm hne) (heq ▸ hz)

end Absent

/-! ### Programs -/

/-- Within any bound a program and its compiled term are evaluated alike. -/
lemma follows_run_program {entry : String} {p : Program Span} {log log' : Array Event}
    {c : Compiled} (h : compile Builtins.standard.names entry p log = .ok c log')
    (havoid : ∀ x ∈ p.names, ¬ Generated x) (n : ℕ) :
    Follows n (Sim c.resolution) KindOf (run n p entry)
      fun k => ByName.evaluate k c.term ByName.standard := by
  obtain ⟨rfl, ids, hr, hlowers⟩ := compile_eq_ok h
  obtain ⟨id, d, os, hd, rfl, hdisc, hos, hterm⟩ := hr.lowers_program hlowers
  have havoid' : ∀ x ∈ c.resolution.program.names, ¬ Generated x := by
    rwa [Program.names_map] at havoid
  have hdiscard : c.resolution.tree.lookup c.resolution.program.ann.scope discard = none := by
    rw [lookup_group_of_notMem hr.parents hr.declared hr.defs.length notMem_boundNames_discard]
    by_contra hne
    obtain ⟨e, he⟩ := Option.ne_none_iff_exists'.1 hne
    have hmem := (hr.lookup_root he).2
    rw [Builtins.names_standard] at hmem
    exact absurd hmem (by decide)
  have hfree : ∀ d ∈ c.resolution.program.defs, ∀ y, d.body.Free y →
      y ∈ c.resolution.program.names := fun d hd y hy => hy.mem_namesOfDefs hd
  have hstart : Binds c.resolution ScopeTree.root ids c.resolution.program.defs
      {y | y ∈ c.resolution.program.names} (List.flatten []) standard aliased :=
    ⟨aliased_aliased, fun y e hy hbound he => refers_standard hr he hbound (havoid' y hy),
      fun id d _ _ hid => absurd hid (by simp)⟩
  obtain ⟨ρ', hbinds, hslower⟩ := slower_chain hr hr.declared hr.program_group List.mem_cons_self
    havoid' hdiscard (fun y hy => havoid' y hy) (fun d hd y hy _ _ => hfree d hd y hy)
    (c.resolution.context.refer d.name.name (.binding id)) hos rfl hstart
  -- two bindings for the aliases, then those of the definitions
  have hterm' : Slower (fun k => ByName.evaluate k c.term ByName.standard) fun k =>
      ByName.evaluate k (c.resolution.context.refer d.name.name (.binding id)) ρ' := by
    rw [hterm]
    refine (ByName.delays_redex.slower (ByName.evaluate_growing _ _)).trans ?_
    exact (ByName.delays_redex.slower (ByName.evaluate_growing _ _)).trans hslower
  cases n with
  | zero => exact .zero fun _ => Partial.never_gives
  | succ n =>
    obtain ⟨o, ho, hfollows⟩ := follows_refer (follows_evaluate hr n) hr
      (hbinds.bound id d hd hdisc (List.of_mem_zip hd).1)
    have hrun : run (n + 1) (c.resolution.program.map Scoped.span) d.name.name
        = force (evaluate n) o := by
      rw [groupFrame, mapDefs_eq_map] at ho
      show step (evaluate n) (.ident ⟨d.name.name, _⟩) _ = _
      simp only [step]
      rw [Program.map, ho]
    rw [hrun]
    exact .of_slower hterm' hfollows

section Answers

variable {entry : String} {p : Program Span} {log log' : Array Event} {c : Compiled}
  (h : compile Builtins.standard.names entry p log = .ok c log')
  (havoid : ∀ x ∈ p.names, ¬ Generated x)

include h havoid

lemma means_ok_iff {v : Int64} :
    Means p entry (.ok v) ↔ ByName.Evaluates c.term ByName.standard (.ok (.int v)) := by
  constructor
  · intro hv
    obtain ⟨r, hr, hagree⟩ := Follows.yields (follows_run_program h havoid) hv
    cases r with
    | error e => exact hagree.elim
    | ok o =>
      cases hagree with
      | int => exact hr
  · intro hv
    obtain ⟨s, hs, hagree⟩ := Follows.yields_of_yields (follows_run_program h havoid)
      (ByName.evaluate_growing _ _) hv
    cases s with
    | error e => exact hagree.elim
    | ok o =>
      cases hagree with
      | int => exact hs

lemma means_error_iff {k : EvalError.Kind} :
    Means p entry (.error k) ↔
      ∃ e, e.kind = k ∧ ByName.Evaluates c.term ByName.standard (.error e) := by
  constructor
  · intro hk
    obtain ⟨r, hr, hagree⟩ := Follows.yields (follows_run_program h havoid) hk
    cases r with
    | ok o => exact hagree.elim
    | error e => exact ⟨e, hagree.symm, hr⟩
  · rintro ⟨e, rfl, he⟩
    obtain ⟨s, hs, hagree⟩ := Follows.yields_of_yields (follows_run_program h havoid)
      (ByName.evaluate_growing _ _) he
    cases s with
    | ok o => exact hagree.elim
    | error k =>
      obtain rfl : k = e.kind := hagree
      exact hs

end Answers

end Surface

end Letrec
