import Mathlib
import Letrec.Proofs.Scope.Distinct

/-!
# Repeated names

A repetition is a binder whose name an earlier binder of the same list has already: an earlier
parameter of the function, or an earlier definition of the grouping.  `Program.repetitions` lists
the repetitions of a program in the order in which a reader meets them who takes the parameters of
a definition first, then its body, and its own name last.  No scopes and no numbers are needed for
that.

Resolution enters a name only after what the reader has met before it, so it stops at the first of
them.  `Ends` says how a step of resolution ends that has certain repetitions and takes so many
numbers; two steps one after the other have the repetitions of both.
-/

namespace Letrec

variable {α β : Type}

/-! ### Repetitions -/

/-- A binder whose name is bound already. -/
structure Repetition (α : Type) where
  /-- What it was meant to bind. -/
  kind : BinderKind
  /-- Its occurrence. -/
  binder : Ident α

/-- The error that reports a repetition. -/
def Repetition.error (q : Repetition Span) : ResolveError :=
  .duplicateBinding q.binder.name q.kind q.binder.ann

/-- A binder after others with these names. -/
def repeated (earlier : List String) (kind : BinderKind) (i : Ident α) : List (Repetition α) :=
  if isDiscard i.name = false ∧ i.name ∈ earlier then [⟨kind, i⟩] else []

/-- The repetitions in a list of parameters after others with these names. -/
def repeatedParams (earlier : List String) : List (Ident α) → List (Repetition α)
  | [] => []
  | p :: ps => repeated earlier .parameter p ++ repeatedParams (p.name :: earlier) ps

mutual

/-- The repetitions of an expression in the order in which they are met. -/
def Expr.repetitions : Expr α → List (Repetition α)
  | .ident _ | .int _ _ => []
  | .lam ps b _ => repeatedParams [] ps ++ b.repetitions
  | .call f x _ => f.repetitions ++ x.repetitions
  | .ite c p n _ => c.repetitions ++ p.repetitions ++ n.repetitions
  | .letIn ds b _ => repetitionsOfDefs [] ds ++ b.repetitions

/-- The repetitions of the definitions of a grouping after others with these names: those of the
parameters of a definition, those of its body, and its own name. -/
def repetitionsOfDefs (earlier : List String) : List (Definition α) → List (Repetition α)
  | [] => []
  | ⟨n, ps, b, _⟩ :: ds =>
    repeatedParams [] ps ++ b.repetitions ++ repeated earlier .definition n
      ++ repetitionsOfDefs (n.name :: earlier) ds

end

/-- The repetitions of a program in the order in which they are met. -/
def Program.repetitions (p : Program α) : List (Repetition α) := repetitionsOfDefs [] p.defs

/-! ### Programs without repetitions -/

lemma repeated_eq_nil {earlier : List String} {kind : BinderKind} {i : Ident α} :
    repeated earlier kind i = [] ↔ (isDiscard i.name = false → i.name ∉ earlier) := by
  unfold repeated
  split_ifs with h
  · simp [h.1, h.2]
  · simpa using h

lemma repeatedParams_eq_nil {earlier : List String} {ps : List (Ident α)} :
    repeatedParams earlier ps = [] ↔
      (boundParams ps).Nodup ∧ ∀ x ∈ boundParams ps, x ∉ earlier := by
  induction ps generalizing earlier with
  | nil => simp [repeatedParams, boundParams]
  | cons p ps ih =>
    rw [repeatedParams, List.append_eq_nil_iff, ih, repeated_eq_nil, boundParams_cons]
    by_cases hdisc : isDiscard p.name = true
    · rw [if_pos hdisc]
      have hne : ∀ x ∈ boundParams ps, x ≠ p.name := by
        rintro x hx rfl
        exact absurd (mem_boundParams.1 hx).2 (by simp [hdisc])
      simp only [hdisc, Bool.true_eq_false, false_implies, true_and, List.mem_cons, not_or]
      exact and_congr_right fun _ => forall₂_congr fun x hx => and_iff_right (hne x hx)
    · rw [if_neg hdisc]
      rw [Bool.not_eq_true] at hdisc
      rw [List.nodup_cons, List.forall_mem_cons]
      simp only [hdisc, true_implies, List.mem_cons, not_or]
      constructor
      · rintro ⟨hp, hnodup, hrest⟩
        exact ⟨⟨fun hmem => (hrest _ hmem).1 rfl, hnodup⟩, hp, fun x hx => (hrest x hx).2⟩
      · rintro ⟨⟨hnot, hnodup⟩, hp, hrest⟩
        exact ⟨hp, hnodup, fun x hx => ⟨fun heq => hnot (heq ▸ hx), hrest x hx⟩⟩

/-- The definitions of a grouping are without repetitions if their bodies are and their names are
distinct. -/
lemma repetitionsOfDefs_eq_nil {earlier : List String} {ds : List (Definition α)}
    (hbody : ∀ d ∈ ds, d.body.repetitions = [] ↔ d.body.Distinct) :
    repetitionsOfDefs earlier ds = [] ↔
      ((boundNames ds).Nodup ∧ ∀ x ∈ boundNames ds, x ∉ earlier) ∧ DefsDistinct ds := by
  induction ds generalizing earlier with
  | nil => simp [repetitionsOfDefs, boundNames, DefsDistinct]
  | cons d ds ih =>
    obtain ⟨n, ps, b, a⟩ := d
    rw [List.forall_mem_cons] at hbody
    rw [repetitionsOfDefs, List.append_eq_nil_iff, List.append_eq_nil_iff, List.append_eq_nil_iff,
      repeatedParams_eq_nil, hbody.1, repeated_eq_nil, ih hbody.2, DefsDistinct,
      boundNames_cons ⟨n, ps, b, a⟩ ds, List.nodup_append]
    simp only [List.mem_append, or_imp, forall_and, mem_boundNames_singleton, List.mem_cons,
      not_or]
    constructor
    · rintro ⟨⟨⟨⟨hps, -⟩, hb⟩, hn⟩, ⟨hnodup, hne, hrest⟩, hds⟩
      refine ⟨⟨⟨nodup_boundNames_singleton _, hnodup, ?_⟩, ?_, hrest⟩, hps, hb, hds⟩
      · rintro x ⟨rfl, -⟩ y hy heq
        exact hne y hy heq.symm
      · rintro x ⟨rfl, hdisc⟩
        exact hn hdisc
    · rintro ⟨⟨⟨-, hnodup, hne⟩, hn, hrest⟩, hps, hb, hds⟩
      refine ⟨⟨⟨⟨hps, by simp⟩, hb⟩, fun hdisc => hn _ ⟨rfl, hdisc⟩⟩, ⟨hnodup, ?_, hrest⟩, hds⟩
      rintro x hx rfl
      obtain ⟨d, -, hname, hdisc⟩ := mem_boundNames.1 hx
      rw [Definition.isDiscard, hname] at hdisc
      exact hne _ ⟨rfl, hdisc⟩ _ hx rfl

lemma Expr.repetitions_eq_nil (e : Expr α) : e.repetitions = [] ↔ e.Distinct := by
  induction e using Expr.induction with
  | ident i => simp [repetitions, Distinct]
  | int v a => simp [repetitions, Distinct]
  | lam ps b a ih =>
    rw [repetitions, List.append_eq_nil_iff, repeatedParams_eq_nil, ih, Distinct]
    simp
  | call f x a ihf ihx => rw [repetitions, List.append_eq_nil_iff, ihf, ihx, Distinct]
  | ite c p n a ihc ihp ihn =>
    rw [repetitions, List.append_eq_nil_iff, List.append_eq_nil_iff, ihc, ihp, ihn, Distinct,
      and_assoc]
  | letIn ds b a ihds ihb =>
    rw [repetitions, List.append_eq_nil_iff, repetitionsOfDefs_eq_nil ihds, ihb, Distinct]
    simp [and_assoc]

/-- A program is without repetitions if no scope of it binds a name twice. -/
lemma Program.repetitions_eq_nil (p : Program α) : p.repetitions = [] ↔ p.Distinct := by
  rw [repetitions, repetitionsOfDefs_eq_nil fun d _ => d.body.repetitions_eq_nil, Distinct]
  simp

/-! ### How steps of resolution end -/

namespace ResolveM

open Resolving

variable {r r' : Resolving}

/-- How a step of resolution ends that has these repetitions and takes `k` numbers: it succeeds if
there is no repetition, or it reports the first one, or there are not enough numbers. -/
inductive Ends (qs : List (Repetition Span)) (k : ℕ) (x : ResolveM α) (r : Resolving) : Prop
  | succeeds {a : α} {r₁ : Resolving} : x r = .ok a r₁ → qs = [] → Ends qs k x r
  | reports {q : Repetition Span} {r₁ : Resolving} :
    x r = .error (.error q.error) r₁ → qs.head? = some q → Ends qs k x r
  | exhausts {r₁ : Resolving} :
    x r = .error .idsExhausted r₁ → ¬ Room r.nextId k → Ends qs k x r

/-- Two steps one after the other have the repetitions of both and take the numbers of both. -/
lemma Ends.bind {x : ResolveM α} {f : α → ResolveM β} {qs qs' : List (Repetition Span)} {k l : ℕ}
    (hx : Ends qs k x r)
    (hf : ∀ a r₁, x r = .ok a r₁ → r₁.nextId = r.nextId + k ∧ Ends qs' l (f a) r₁) :
    Ends (qs ++ qs') (k + l) (x >>= f) r := by
  cases hx with
  | succeeds h hqs =>
    obtain ⟨hnext, hends⟩ := hf _ _ h
    rw [hqs, List.nil_append]
    cases hends with
    | succeeds h' hqs' => exact .succeeds ((bind_of_ok h).trans h') hqs'
    | reports h' hq => exact .reports ((bind_of_ok h).trans h') hq
    | exhausts h' hroom =>
      refine .exhausts ((bind_of_ok h).trans h') fun hall => hroom ?_
      rw [hnext]
      exact (room_add.1 hall).2
  | reports h hq => exact .reports (bind_of_error h) (by rw [List.head?_append, hq, Option.some_or])
  | exhausts h hroom => exact .exhausts (bind_of_error h) fun hall => hroom (room_add.1 hall).1

lemma Ends.map {x : ResolveM α} {f : α → β} {qs : List (Repetition Span)} {k : ℕ}
    (hx : Ends qs k x r) : Ends qs k (x >>= fun a => pure (f a)) r := by
  cases hx with
  | succeeds h hqs => exact .succeeds (bind_of_ok h) hqs
  | reports h hq => exact .reports (bind_of_error h) hq
  | exhausts h hroom => exact .exhausts (bind_of_error h) hroom

/-- A step that always succeeds and takes no number comes first. -/
lemma Ends.after {x : ResolveM α} {f : α → ResolveM β} {qs : List (Repetition Span)} {k : ℕ} {a : α}
    {r₁ : Resolving} (h : x r = .ok a r₁) (hnext : r₁.nextId = r.nextId) (hf : Ends qs k (f a) r₁) :
    Ends qs k (x >>= f) r := by
  cases hf with
  | succeeds h' hqs => exact .succeeds ((bind_of_ok h).trans h') hqs
  | reports h' hq => exact .reports ((bind_of_ok h).trans h') hq
  | exhausts h' hroom => exact .exhausts ((bind_of_ok h).trans h') (hnext ▸ hroom)

/-! ### Names of a scope -/

/-- The scope binds just these names, the discard aside. -/
def Holds (s : ℕ) (xs : List String) (r : Resolving) : Prop :=
  ∀ x, isDiscard x = false → (r.tree.entry? s x = none ↔ x ∉ xs)

lemma Holds.congr {s : ℕ} {xs : List String} (h : Holds s xs r)
    (hs : r'.tree.scopes[s]? = r.tree.scopes[s]?) : Holds s xs r' := by
  intro x hx
  rw [ ScopeTree.entry?, hs]
  exact h x hx

/-- A scope that has just been opened binds nothing. -/
lemma holds_push {kind : ScopeKind} {s : ℕ} (htree : r'.tree = r.tree.push kind s) :
    Holds r.size [] r' := by
  intro x _
  simp [entry?_of_push htree x]

/-- Once a name has been bound, the scope holds it too. -/
lemma Holds.bindName {s : ℕ} {xs : List String} (h : Holds s xs r) (hs : s < r.size)
    {i : Ident Span} {kind : BinderKind} {e : Entry}
    (hbind : ResolveM.bindName s i.name i.ann kind e r = .ok () r') :
    Holds s (i.name :: xs) r' := by
  intro x hx
  rw [lookup_entry_of_changes (bindName_changes hbind) hs, Option.or_eq_none_iff, h x hx,
    List.mem_cons, not_or, and_comm, nameEntries]
  refine and_congr_left fun _ => ?_
  split_ifs with hdisc
  · refine iff_of_true rfl ?_
    rintro rfl
    exact absurd hdisc (by simp [hx])
  · rw [lookup_cons_ite]
    split_ifs with heq
    · simp [heq]
    · simp [heq]

lemma ends_bindName {s : ℕ} {xs : List String} (h : Holds s xs r) (i : Ident Span)
    (kind : BinderKind) (e : Entry) :
    Ends (repeated xs kind i) 0 (bindName s i.name i.ann kind e) r := by
  by_cases hok : isDiscard i.name = true ∨ r.tree.entry? s i.name = none
  · obtain ⟨⟨⟩, r', hbind⟩ : Succeeds (bindName s i.name i.ann kind e) r :=
      succeeds_bindName.2 hok
    refine .succeeds hbind (repeated_eq_nil.2 fun hdisc => ?_)
    exact (h _ hdisc).1 (hok.resolve_left (by simp [hdisc]))
  · rw [not_or, Bool.not_eq_true] at hok
    obtain ⟨hdisc, hsome⟩ := hok
    have hmem : i.name ∈ xs := by
      by_contra hnot
      exact hsome ((h _ hdisc).2 hnot)
    obtain ⟨e', he'⟩ := Option.ne_none_iff_exists'.1 hsome
    have hbind : bindName s i.name i.ann kind e r
        = .error (.error (Repetition.error ⟨kind, i⟩)) r := by
      unfold bindName
      rw [if_neg (by simp [hdisc])]
      refine bind_get.trans ?_
      rw [he']
      rfl
    refine .reports hbind ?_
    rw [repeated, if_pos ⟨hdisc, hmem⟩]
    rfl

lemma ends_parameters {s : ℕ} {xs : List String} {ps : List (Ident Span)} (h : Holds s xs r)
    (hs : s < r.size) : Ends (repeatedParams xs ps) 0 (parameters s ps) r := by
  induction ps generalizing r xs with
  | nil => exact .succeeds rfl rfl
  | cons p ps ih =>
    rw [parameters, repeatedParams]
    refine Ends.bind (k := 0) (l := 0) (ends_bindName h p .parameter .parameter)
      fun _ r₁ hbind => ?_
    have hch := bindName_changes hbind
    exact ⟨hch.nextId, (ih (h.bindName hs hbind) (hch.size ▸ hs)).map⟩

/-! ### Expressions and definitions -/

/-- Resolution of an expression ends as its repetitions and its numbers say. -/
def EndsExpr (e : Expr Span) : Prop :=
  ∀ (s : ℕ) (r : Resolving), r.Sound → s < r.size →
    Ends e.repetitions e.defCount (expression s e) r

/-- Resolution of the definitions of a grouping ends as their repetitions and their numbers say,
given the names of the grouping so far. -/
def EndsDefs (ds : List (Definition Span)) : Prop :=
  ∀ (g : ℕ) (xs : List String) (r : Resolving), r.Sound → g < r.size → Holds g xs r →
    Ends (repetitionsOfDefs xs ds) (defCountOfDefs ds) (definitions g ds) r

lemma endsExpr_call {f x : Expr Span} {a : Span} (hf : EndsExpr f) (hx : EndsExpr x) :
    EndsExpr (.call f x a) := by
  intro s r hr hs
  rw [expression, Expr.repetitions, Expr.defCount]
  refine (hf s r hr hs).bind fun f' r₁ h₁ => ?_
  obtain ⟨hr₁, hs₁, hnext₁⟩ := (succeedsExpr f).next hr hs h₁
  exact ⟨hnext₁, (hx s r₁ hr₁ hs₁).map⟩

lemma endsExpr_ite {c t e : Expr Span} {a : Span} (hc : EndsExpr c) (ht : EndsExpr t)
    (he : EndsExpr e) : EndsExpr (.ite c t e a) := by
  intro s r hr hs
  rw [expression, Expr.repetitions, Expr.defCount, List.append_assoc, Nat.add_assoc]
  refine (hc s r hr hs).bind fun c' r₁ h₁ => ?_
  obtain ⟨hr₁, hs₁, hnext₁⟩ := (succeedsExpr c).next hr hs h₁
  refine ⟨hnext₁, (ht s r₁ hr₁ hs₁).bind fun t' r₂ h₂ => ?_⟩
  obtain ⟨hr₂, hs₂, hnext₂⟩ := (succeedsExpr t).next hr₁ hs₁ h₂
  exact ⟨hnext₂, (he s r₂ hr₂ hs₂).map⟩

/-- A function: its parameters come before all else. -/
lemma ends_function {kind : ScopeKind} {s : ℕ} {ps : List (Ident Span)}
    {f : ℕ → List (Ident Scoped) → ResolveM α} {qs : List (Repetition Span)} {k : ℕ} (hr : r.Sound)
    (hs : s < r.size)
    (hf : ∀ inner ps' r', r'.Sound → inner < r'.size → Grows (fun _ => True) r r' →
      Ends qs k (f inner ps') r') :
    Ends (repeatedParams [] ps ++ qs) k
      (do let inner ← openScope kind s; let ps' ← parameters inner ps; f inner ps') r := by
  let r₁ : Resolving := { r with tree := r.tree.push kind s }
  have hsize : r.size < r₁.size := size_lt_of_push rfl
  have hopen : openScope kind s r = .ok r.size r₁ := rfl
  refine Ends.after hopen rfl ?_
  rw [← Nat.zero_add k]
  refine (ends_parameters (holds_push rfl) hsize).bind fun ps' r₂ h₂ => ?_
  obtain ⟨hr₂, hinner, hnext⟩ := Opened.next hr hs hopen h₂
  exact ⟨hnext, hf r.size ps' r₂ hr₂ hinner (opened_of_eq_ok hr hs hopen h₂).grows⟩

lemma endsExpr_lam {ps : List (Ident Span)} {b : Expr Span} {a : Span} (hb : EndsExpr b) :
    EndsExpr (.lam ps b a) := by
  intro s r hr hs
  rw [expression, Expr.repetitions, Expr.defCount]
  exact ends_function hr hs fun inner ps' r' hr' hinner _ => (hb inner r' hr' hinner).map

/-- A definition gets its number, and then its name is entered. -/
lemma ends_record {g inner arity : ℕ} {xs : List String} {n : Ident Span} {span : Span}
    {d' : Definition Scoped} (h : Holds g xs r) :
    Ends (repeated xs .definition n) 1 (do
      let id ← freshId
      bindName g n.name n.ann .definition (.binding id)
      register { id, name := n.name, scope := g, paramScope := inner, arity, span := span }
      return d') r := by
  by_cases hroom : r.nextId + 1 < dispatchIdBound
  · have hfresh : Ends [] 1 freshId r := .succeeds (freshId_of_lt hroom) rfl
    have hholds : Holds g xs { r with nextId := r.nextId + 1 } := h
    change Ends ([] ++ repeated xs .definition n) (1 + 0) _ r
    refine hfresh.bind fun id r₁ h₁ => ?_
    obtain ⟨-, rfl, -⟩ := freshId_eq_ok h₁
    refine ⟨rfl, ?_⟩
    rw [← List.append_nil (repeated _ _ _)]
    refine Ends.bind (k := 0) (l := 0) (ends_bindName hholds n .definition (.binding id))
      fun _ r₂ h₂ => ?_
    exact ⟨(bindName_changes h₂).nextId, .succeeds rfl rfl⟩
  · refine .exhausts (bind_of_error (freshId_of_not_lt hroom)) ?_
    simpa [Room] using hroom

lemma ends_definition {g : ℕ} {xs : List String} {n : Ident Span} {ps : List (Ident Span)}
    {b : Expr Span} {a : Span} (hb : EndsExpr b) (hr : r.Sound) (hg : g < r.size)
    (h : Holds g xs r) :
    Ends (repeatedParams [] ps ++ b.repetitions ++ repeated xs .definition n) (b.defCount + 1)
      (definition g ⟨n, ps, b, a⟩) r := by
  rw [definition, List.append_assoc]
  refine ends_function hr hg fun inner ps' r' hr' hinner hgrows => ?_
  refine (hb inner r' hr' hinner).bind fun b' r₁ h₁ => ?_
  refine ⟨((succeedsExpr b).next hr' hinner h₁).2.2, ends_record ?_⟩
  -- the scope of the grouping is as it was
  have hgrows₁ := hgrows.trans (resolvesExpr b inner r' b' r₁ hr' hinner h₁).grows
  exact h.congr (hgrows₁.scopes g hg trivial)

lemma endsDefs_cons {n : Ident Span} {ps : List (Ident Span)} {b : Expr Span} {a : Span}
    {ds : List (Definition Span)} (hb : EndsExpr b) (hds : EndsDefs ds) :
    EndsDefs (⟨n, ps, b, a⟩ :: ds) := by
  intro g xs r hr hg h
  rw [definitions, repetitionsOfDefs, defCountOfDefs]
  refine (ends_definition hb hr hg h).bind fun d' r₁ h₁ => ?_
  obtain ⟨id, hd⟩ := resolvedDefs_singleton (resolvesExpr b) hr hg h₁
  refine ⟨definition_nextId (succeedsExpr b) hr hg h₁, Ends.map ?_⟩
  refine hds g (n.name :: xs) r₁ hd.grows.sound (lt_of_lt_of_le hg hd.grows.size_le) ?_
  intro x hx
  rw [hd.entry?_eq_none_iff hg, h x hx, List.mem_cons, not_or, and_comm, mem_boundNames_singleton]
  refine and_congr_left fun _ => not_congr (and_iff_left_of_imp ?_)
  rintro rfl
  exact hx

lemma endsExpr_letIn {ds : List (Definition Span)} {b : Expr Span} {a : Span} (hds : EndsDefs ds)
    (hb : EndsExpr b) : EndsExpr (.letIn ds b a) := by
  intro s r hr hs
  let r₁ : Resolving :=
    { r with tree := r.tree.push .letBlock s, log := r.log.push (.resolvingLet r.size) }
  have htree : r₁.tree = r.tree.push .letBlock s := rfl
  have hr₁ := (grows_of_push hr hs htree rfl fun _ => True).sound
  have hsize := size_lt_of_push htree
  rw [expression, Expr.repetitions, Expr.defCount]
  have hopen : openScope .letBlock s r = .ok r.size { r with tree := r.tree.push .letBlock s } :=
    rfl
  have hreport : report (.resolvingLet r.size) { r with tree := r.tree.push .letBlock s }
      = .ok () r₁ := rfl
  refine Ends.after hopen rfl (Ends.after hreport rfl ?_)
  refine (hds r.size [] r₁ hr₁ hsize (holds_push htree)).bind fun ds' r₂ h₂ => ?_
  obtain ⟨ids, hds'⟩ := resolvesDefs ds r.size r₁ ds' r₂ hr₁ hsize h₂
  refine ⟨(succeedsDefs ds r.size r₁ hr₁ hsize).2 ds' r₂ h₂, Ends.map ?_⟩
  exact hb r.size r₂ hds'.grows.sound (lt_of_lt_of_le hsize hds'.grows.size_le)

mutual

lemma endsExpr : ∀ e : Expr Span, EndsExpr e
  | .ident i => fun s r _ _ => by
    rw [expression]
    exact .succeeds rfl rfl
  | .int v a => fun s r _ _ => by
    rw [expression]
    exact .succeeds rfl rfl
  | .lam _ b _ => endsExpr_lam (endsExpr b)
  | .call f x _ => endsExpr_call (endsExpr f) (endsExpr x)
  | .ite c t e _ => endsExpr_ite (endsExpr c) (endsExpr t) (endsExpr e)
  | .letIn ds b _ => endsExpr_letIn (endsDefs ds) (endsExpr b)

lemma endsDefs : ∀ ds : List (Definition Span), EndsDefs ds
  | [] => fun g xs r _ _ _ => by
    rw [definitions]
    exact .succeeds rfl rfl
  | ⟨_, _, b, _⟩ :: ds => endsDefs_cons (endsExpr b) (endsDefs ds)

end

end ResolveM

/-! ### Programs -/

/-- Resolution succeeds without a repetition, or it reports the first one, or there are not enough
numbers for the definitions. -/
lemma resolve_cases (names : List String) (seed : DispatchId) (p : Program Span)
    (log : Array Event) :
    ((∃ r log', resolve names seed p log = .ok r log') ∧ p.repetitions = []) ∨
    (∃ q log', resolve names seed p log = .error (.error q.error) log' ∧
      p.repetitions.head? = some q) ∨
    ((∃ log', resolve names seed p log = .error .idsExhausted log') ∧
      ¬ Room seed (defCountOfDefs p.defs)) := by
  have hsound := (Resolving.grows_opened names seed log).sound
  have hends : ResolveM.Ends p.repetitions (defCountOfDefs p.defs)
      (ResolveM.definitions 1 p.defs) (.opened names seed log) :=
    ResolveM.endsDefs p.defs 1 [] _ hsound (by decide : 1 < 2)
      (ResolveM.holds_push (Resolving.tree_opened names seed log))
  rw [resolve_eq]
  cases hends with
  | succeeds h hqs =>
    rw [h]
    exact Or.inl ⟨⟨_, _, rfl⟩, hqs⟩
  | reports h hq =>
    rw [h]
    exact Or.inr (Or.inl ⟨_, _, rfl, hq⟩)
  | exhausts h hroom =>
    rw [h]
    exact Or.inr (Or.inr ⟨⟨_, rfl⟩, hroom⟩)

/-- Unless it lacks numbers, resolution fails just for the programs of which a scope binds a name
twice, whatever the builtin names are, and what it reports is the first repetition that is met. -/
theorem resolve_reports_first {names : List String} {seed : DispatchId} {p : Program Span}
    {log : Array Event} (hids : ∀ log', resolve names seed p log ≠ .error .idsExhausted log') :
    ((∃ e log', resolve names seed p log = .error e log') ↔ ¬ p.Distinct) ∧
    ∀ e, (∃ log', resolve names seed p log = .error e log') ↔
      ∃ q, p.repetitions.head? = some q ∧
        e = .error (.duplicateBinding q.binder.name q.kind q.binder.ann) := by
  rw [← p.repetitions_eq_nil]
  rcases resolve_cases names seed p log with
    ⟨⟨r, log', h⟩, hnil⟩ | ⟨q, log', h, hq⟩ | ⟨⟨log', h⟩, -⟩
  · rw [h, hnil]
    simp
  · have hne : p.repetitions ≠ [] := fun hnil => by
      rw [hnil] at hq
      exact absurd hq (by simp)
    rw [h, hq]
    refine ⟨by simp [hne], fun e => ?_⟩
    simp [Repetition.error, eq_comm]
  · exact absurd h (hids log')

/-- `f = 1`, `f = let g y y = 2; g = 3; _ = 4; _ = 5 in \g. g`, where the inner repetitions come
before that of `f`, and the parameter `g` is none. -/
def repeatedNames : Program Span where
  defs :=
    [⟨⟨"f", .nowhere⟩, [], .int 1 .nowhere, .nowhere⟩,
     ⟨⟨"f", { startLine := 1 }⟩, [],
      .letIn
        [⟨⟨"g", .nowhere⟩, [⟨"y", .nowhere⟩, ⟨"y", { startLine := 2 }⟩], .int 2 .nowhere, .nowhere⟩,
         ⟨⟨"g", { startLine := 3 }⟩, [], .int 3 .nowhere, .nowhere⟩,
         ⟨⟨"_", .nowhere⟩, [], .int 4 .nowhere, .nowhere⟩,
         ⟨⟨"_", .nowhere⟩, [], .int 5 .nowhere, .nowhere⟩]
        (.lam [⟨"g", .nowhere⟩] (.ident ⟨"g", .nowhere⟩) .nowhere) .nowhere, .nowhere⟩]
  ann := .nowhere

theorem resolve_reports_first_repeatedNames :
    repeatedNames.repetitions.map (fun q => (q.binder.name, q.kind, q.binder.ann.startLine))
      = [("y", .parameter, 2), ("g", .definition, 3), ("f", .definition, 1)] ∧
    (∀ log', resolve ["y", "g"] 7 repeatedNames #[] ≠ .error .idsExhausted log') ∧
    ∃ log', resolve ["y", "g"] 7 repeatedNames #[]
      = .error (.error (.duplicateBinding "y" .parameter { startLine := 2 })) log' := by
  have hrepetitions : repeatedNames.repetitions.map
      (fun q => (q.binder.name, q.kind, q.binder.ann.startLine))
      = [("y", .parameter, 2), ("g", .definition, 3), ("f", .definition, 1)] := by
    decide +kernel
  have hids : ∀ log', resolve ["y", "g"] 7 repeatedNames #[] ≠ .error .idsExhausted log' := by
    intro log' h
    have hend : (match resolve ["y", "g"] 7 repeatedNames #[] with
        | .error .idsExhausted _ => true
        | _ => false) = false := by
      decide +kernel
    rw [h] at hend
    exact absurd hend (by simp)
  exact ⟨hrepetitions, hids,
    ((resolve_reports_first hids).2 _).2 ⟨⟨.parameter, ⟨"y", _⟩⟩, rfl, rfl⟩⟩

end Letrec
