import Mathlib
import Letrec.Proofs.Sharing.Guarded
import Letrec.Proofs.Sharing.Spine
import Letrec.Proofs.Surface.Program

/-!
# Where the code of a definition is

Lowering has one result (`lowers_unique`), so a definition has one code.  If a name occurs in the
body of a definition without parameters that is not recursive, and nowhere else in a program, then
the code of that definition is bound to its name in the block of its grouping and occurs nowhere
else in the term of the program, and neither does the block (`Marked.tracked_lower`).

The name marks the code: terms without it are not the code, and neither are terms that are larger.
So it is enough to follow the way from the program down to the block (`Marked.tracked_within`): what
lies beside it has no mark.
-/

namespace Letrec

/-! ### Lowering has one result -/

section Unique

variable {names : List String} {r : Resolution} {ids₀ : List DispatchId}
  (hr : r.WellScoped names ids₀)

lemma ComponentLowers.unique {ctx : LowerContext} {t : ScopeTree} {g : ScopeId}
    {ids : List DispatchId} {ds : List (Definition Scoped)} (hg : Group t g ids ds)
    (hcodes : ∀ id d code code', (id, d) ∈ ids.zip ds → ctx.DefLowers d code →
      ctx.DefLowers d code' → code = code')
    {c : List DispatchId} (hids : ∀ id ∈ c, id ∈ ids) {o o' : Option (String × Term)}
    (h : ComponentLowers ctx ids ds c o) (h' : ComponentLowers ctx ids ds c o') : o = o' := by
  match c with
  | [] => exact nomatch h
  | [id] =>
    obtain ⟨d, hd⟩ := exists_mem_zip_of_mem_left hg.length (hids id (by simp))
    rcases h.single hg hd with ⟨hdisc, rfl⟩ | ⟨hdisc, code, hcode, rfl⟩
    · rcases h'.single hg hd with ⟨-, rfl⟩ | ⟨hdisc', -⟩
      · rfl
      · exact absurd (hdisc.symm.trans hdisc') (by simp)
    · rcases h'.single hg hd with ⟨hdisc', -⟩ | ⟨-, code', hcode', rfl⟩
      · exact absurd (hdisc.symm.trans hdisc') (by simp)
      · rw [hcodes id d code code' hd hcode hcode']
  | i :: j :: c =>
    obtain ⟨q, qs, rfl, hqs⟩ := h.several
    obtain ⟨q', qs', rfl, hqs'⟩ := h'.several
    have heq : List.Forall₂ (· = ·) (q :: qs) (q' :: qs') := by
      refine forall₂_of_common hqs hqs' ?_
      rintro id - ⟨_, code⟩ ⟨_, code'⟩ ⟨rfl, d, hd, hcode⟩ ⟨heq, d', hd', hcode'⟩
      obtain rfl := hg.eq_of_mem_zip hd hd'
      exact Prod.ext heq (hcodes _ d code code' hd hcode hcode')
    rw [List.forall₂_eq_eq_eq] at heq
    obtain ⟨rfl, rfl⟩ := List.cons.inj heq
    rfl

include hr

/-- An expression becomes one term, whatever has been reported before. -/
lemma lowers_unique (e : Expr Scoped) : ∀ {s : ScopeId} {t t' : Term}, r.HasPart s e →
    Lowers (r.context.expression e) t → Lowers (r.context.expression e) t' → t = t' := by
  induction e using Expr.induction with
  | ident i =>
    intro s t t' _ h h'
    obtain ⟨e, he, rfl⟩ := LowerContext.lowers_ident h
    obtain ⟨e', he', rfl⟩ := LowerContext.lowers_ident h'
    rw [Option.some.inj (he.symm.trans he')]
  | int v a =>
    intro s t t' _ h h'
    rw [LowerContext.lowers_int h, LowerContext.lowers_int h']
  | lam ps b a ih =>
    intro s t t' hpart h h'
    obtain ⟨b₁, hb, rfl⟩ := LowerContext.lowers_lam h
    obtain ⟨b₁', hb', rfl⟩ := LowerContext.lowers_lam h'
    rw [ih hpart.lam.2 hb hb']
  | call f x a ihf ihx =>
    intro s t t' hpart h h'
    obtain ⟨f₁, x₁, hf, hx, rfl⟩ := LowerContext.lowers_call h
    obtain ⟨f₁', x₁', hf', hx', rfl⟩ := LowerContext.lowers_call h'
    rw [ihf hpart.call.1 hf hf', ihx hpart.call.2 hx hx']
  | ite c p n a ihc ihp ihn =>
    intro s t t' hpart h h'
    obtain ⟨c₁, p₁, n₁, hc, hp, hn, rfl⟩ := LowerContext.lowers_ite h
    obtain ⟨c₁', p₁', n₁', hc', hp', hn', rfl⟩ := LowerContext.lowers_ite h'
    rw [ihc hpart.ite.1 hc hc', ihp hpart.ite.2.1 hp hp', ihn hpart.ite.2.2 hn hn']
  | letIn ds b a ihds ihb =>
    intro s t t' hpart h h'
    obtain ⟨hmem, hpartb, ids, -, hg⟩ := hpart.letIn
    obtain ⟨b₁, hb, hgroup⟩ := LowerContext.lowers_letIn h
    obtain ⟨b₁', hb', hgroup'⟩ := LowerContext.lowers_letIn h'
    obtain rfl := ihb hpartb hb hb'
    obtain ⟨os, hos, rfl⟩ := hr.lowers_grouping hmem hg hgroup
    obtain ⟨os', hos', rfl⟩ := hr.lowers_grouping hmem hg hgroup'
    have hcodes : ∀ id d code code', (id, d) ∈ ids.zip ds → r.context.DefLowers d code →
        r.context.DefLowers d code' → code = code' := by
      rintro id d _ _ hd ⟨b, hb, rfl⟩ ⟨b', hb', rfl⟩
      rw [ihds d (List.of_mem_zip hd).2 (hg.hasPart hmem hd) hb hb']
    have heq : List.Forall₂ (· = ·) os os' := forall₂_of_common hos hos' fun c hc o o' ho ho' =>
      ho.unique hg hcodes (fun id hid => Surface.mem_ids_of_component hr hmem hg hc hid) ho'
    rw [List.forall₂_eq_eq_eq] at heq
    rw [heq]

end Unique

/-! ### Marked terms -/

/-- The variable does not occur in the term. -/
def Term.Avoids (mark : String) : Term → Prop
  | .var y => y ≠ mark
  | .lam _ b => b.Avoids mark
  | .app f a => f.Avoids mark ∧ a.Avoids mark
  | .int _ | .closure _ | .thunk _ | .builtin _ => True

/-- A name that lowering gives to no variable of its own. -/
structure Unmade (mark : String) : Prop where
  generated : ¬ Generated mark
  combinator : mark ≠ "f" ∧ mark ≠ "x"
  builtin : mark ≠ "if" ∧ mark ≠ "=="

/-- A term has the property if its parts have it, and so do all variables but the mark. -/
structure Compositional (mark : String) (P : Term → Prop) : Prop where
  var : ∀ {y}, y ≠ mark → P (.var y)
  int : ∀ v, P (.int v)
  lam : ∀ {b} y, P b → P (.lam y b)
  app : ∀ {f a}, P f → P a → P (.app f a)

lemma compositional_avoids (mark : String) : Compositional mark (·.Avoids mark) :=
  ⟨id, fun _ => trivial, fun _ hb => hb, And.intro⟩

namespace Compositional

variable {mark : String} {P : Term → Prop} (hP : Compositional mark P) {b : Term}

include hP

lemma lams (hb : P b) (ys : List String) : P (.lams ys b) := by
  induction ys with
  | nil => exact hb
  | cons y ys ih => exact hP.lam y ih

lemma chain {bs : List (String × Term)} (hb : P b) (hbs : ∀ q ∈ bs, P q.2) :
    P (LowerContext.chain bs b) := by
  induction bs with
  | nil => exact hb
  | cons q bs ih =>
    rw [List.forall_mem_cons] at hbs
    exact hP.app (hP.lam _ (ih hbs.2)) hbs.1

variable (hmark : Unmade mark)

include hmark

lemma fix (hb : P b) (y : String) : P (.fix y b) := by
  obtain ⟨hf, hx⟩ := hmark.combinator
  have hself : P (.app (.var "x") (.var "x")) := hP.app (hP.var hx.symm) (hP.var hx.symm)
  have hhalf : P (.lam "x" (.app (.var "f") (.app (.var "x") (.var "x")))) :=
    hP.lam _ (hP.app (hP.var hf.symm) hself)
  exact hP.app (hP.lam _ (hP.app hhalf hhalf)) (hP.lam y hb)

lemma cond {c p n : Term} (hc : P c) (hp : P p) (hn : P n) : P (.cond c p n) :=
  hP.app (hP.app (hP.app (hP.var fun h => hmark.generated (Or.inl h.symm)) hc) hp) hn

lemma dispatchTable {m : DispatchId × Term} {ms : List (DispatchId × Term)}
    (h : ∀ q ∈ m :: ms, P q.2) (table : String) : P (.dispatchTable table m ms) := by
  have hselection : P (.selection m ms) := by
    induction ms generalizing m with
    | nil => exact h m (by simp)
    | cons n ms ih =>
      rw [List.forall_mem_cons] at h
      refine hP.cond hmark (hP.app (hP.app (hP.var fun heq => ?_) (hP.var fun heq => ?_))
        (hP.int _)) h.1 (ih h.2)
      · exact hmark.generated (Or.inr (Or.inl heq.symm))
      · exact hmark.generated (Or.inr (Or.inr (Or.inl heq.symm)))
  exact hP.fix hmark (hP.lam _ hselection) table

variable {names : List String} {r : Resolution} {ids₀ : List DispatchId}
  (hr : r.WellScoped names ids₀)

include hr

lemma refer {y : String} (hy : y ≠ mark) (e : Entry) : P (r.context.refer y e) := by
  cases e with
  | parameter => exact hP.var hy
  | builtin => exact hP.var hy
  | binding i =>
    rw [LowerContext.refer, LowerContext.reference]
    cases htable : r.context.table? i with
    | none => exact hP.var hy
    | some table =>
      obtain ⟨first, rest, -, -, rfl⟩ := hr.mem_tables_iff.1 (mem_of_lookup_eq_some htable)
      exact hP.app (hP.var fun heq => hmark.generated (Or.inr (Or.inr (Or.inr ⟨first, heq.symm⟩))))
        (hP.int _)

section Grouping

variable {ids : List DispatchId} {ds : List (Definition Scoped)}

omit hr in
lemma component {c : List DispatchId}
    (hcodes : ∀ i ∈ c, ∀ d code, (i, d) ∈ ids.zip ds → r.context.DefLowers d code → P code)
    {q : String × Term} (hq : ComponentLowers r.context ids ds c (some q)) : P q.2 := by
  generalize ho : some q = o at hq
  cases hq with
  | discarded => exact absurd ho (by simp)
  | plain hd _ hlowers _ =>
    obtain rfl := Option.some.inj ho
    exact hcodes _ (by simp) _ _ hd hlowers
  | fixed hd _ hlowers _ =>
    obtain rfl := Option.some.inj ho
    exact hP.fix hmark (hcodes _ (by simp) _ _ hd hlowers) _
  | table hl hcs =>
    obtain rfl := Option.some.inj ho
    refine hP.dispatchTable hmark (fun q hq => ?_) _
    obtain ⟨p, hp, -, hlowers⟩ := forall₂_mem_right hcs hq
    exact hcodes _ (List.mem_map_of_mem hp) p.2 q.2 (hl p hp) hlowers

omit hr in
lemma grouping
    (hcodes : ∀ i d code, (i, d) ∈ ids.zip ds → r.context.DefLowers d code → P code)
    {cs : List (List DispatchId)} {os : List (Option (String × Term))}
    (hos : List.Forall₂ (ComponentLowers r.context ids ds) cs os) (hb : P b) :
    P (LowerContext.chain os.reduceOption b) := by
  refine hP.chain hb fun q hq => ?_
  obtain ⟨c, -, hlowers⟩ := forall₂_mem_right hos (List.reduceOption_mem_iff.1 hq)
  exact hP.component hmark (fun i _ => hcodes i) hlowers

end Grouping

/-- An expression without the mark becomes a term with the property. -/
lemma lowers (e : Expr Scoped) : ∀ {s : ScopeId} {t : Term}, r.HasPart s e → mark ∉ e.names →
    Lowers (r.context.expression e) t → P t := by
  induction e using Expr.induction with
  | ident i =>
    intro s t _ hm ht
    obtain ⟨e, -, rfl⟩ := LowerContext.lowers_ident ht
    exact hP.refer hmark hr (fun heq => hm (by simp [Expr.names, heq])) e
  | int v a =>
    intro s t _ _ ht
    rw [LowerContext.lowers_int ht]
    exact hP.int v
  | lam ps b a ih =>
    intro s t hpart hm ht
    obtain ⟨b', hb, rfl⟩ := LowerContext.lowers_lam ht
    rw [Expr.names, List.mem_append, not_or] at hm
    exact hP.lams (ih hpart.lam.2 hm.2 hb) _
  | call f y a ihf ihy =>
    intro s t hpart hm ht
    obtain ⟨f', y', hf, hy, rfl⟩ := LowerContext.lowers_call ht
    rw [Expr.names, List.mem_append, not_or] at hm
    exact hP.app (ihf hpart.call.1 hm.1 hf) (ihy hpart.call.2 hm.2 hy)
  | ite c p n a ihc ihp ihn =>
    intro s t hpart hm ht
    obtain ⟨c', p', n', hc, hp, hn, rfl⟩ := LowerContext.lowers_ite ht
    simp only [Expr.names, List.mem_append, not_or] at hm
    exact hP.cond hmark (ihc hpart.ite.1 hm.1.1 hc) (ihp hpart.ite.2.1 hm.1.2 hp)
      (ihn hpart.ite.2.2 hm.2 hn)
  | letIn ds b a ihds ihb =>
    intro s t hpart hm ht
    obtain ⟨hmem, hpartb, ids, -, hg⟩ := hpart.letIn
    obtain ⟨b', hb, hgroup⟩ := LowerContext.lowers_letIn ht
    obtain ⟨os, hos, rfl⟩ := hr.lowers_grouping hmem hg hgroup
    rw [Expr.names, List.mem_append, not_or] at hm
    refine hP.grouping hmark (fun i d code hd hcode => ?_) hos (ihb hpartb hm.2 hb)
    obtain ⟨b, hb, rfl⟩ := hcode
    refine hP.lams (ihds d (List.of_mem_zip hd).2 (hg.hasPart hmem hd) (fun hmark => hm.1 ?_) hb) _
    exact mem_namesOfDefs.2 ⟨d, (List.of_mem_zip hd).2, Or.inr (List.mem_append_right _ hmark)⟩

end Compositional

/-! ### Marked code -/

/-- The mark does not occur in the term, or the term has the block of the bindings `pre` around
`(\x. rest) code`: each of them only together with those that follow. -/
def Term.Tracked (t : Term) (mark x : String) (pre : List (String × Term)) (rest code : Term) :
    Prop :=
  t.Avoids mark ∨ t.Guarded x rest code ∧ t.Follows pre (.app (.lam x rest) code) ∧
    (LowerContext.chain pre (.app (.lam x rest) code)).symbols ≤ t.symbols

namespace Term

variable {mark x y : String} {t f a b c rest code v : Term} {pre : List (String × Term)}

lemma Avoids.notMem_freeVars (h : t.Avoids mark) : mark ∉ t.freeVars := by
  induction t with
  | var y => simpa [freeVars] using Ne.symm h
  | lam y b ih => exact fun hmem => ih h (List.mem_of_mem_filter hmem)
  | app f a ihf iha => exact fun hmem => (List.mem_append.1 hmem).elim (ihf h.1) (iha h.2)
  | _ => simp [freeVars]

lemma Avoids.guarded (hcode : ¬ code.Avoids mark) (h : t.Avoids mark) : t.Guarded x rest code := by
  have hne : ∀ {u : Term}, u.Avoids mark → u ≠ code := fun hu heq => hcode (heq ▸ hu)
  induction t with
  | var y => exact hne h
  | lam y b ih => exact ⟨hne (u := .lam y b) h, ih h⟩
  | app f a ihf iha => exact ⟨hne (u := .app f a) h, ihf h.1, Or.inl (iha h.2)⟩
  | _ => trivial

lemma Avoids.onlyAfter (hrest : ¬ rest.Avoids mark) (h : t.Avoids mark) :
    t.OnlyAfter y rest v := by
  have hne : ∀ {u : Term}, u.Avoids mark → u ≠ rest := fun hu heq => hrest (heq ▸ hu)
  induction t with
  | var y => exact hne h
  | lam y b ih => exact ⟨hne (u := .lam y b) h, ih h⟩
  | app f a ihf iha => exact ⟨hne (u := .app f a) h, iha h.2, Or.inl (ihf h.1)⟩
  | _ => trivial

lemma not_avoids_chain (hrest : ¬ rest.Avoids mark) (pre : List (String × Term)) :
    ¬ (LowerContext.chain pre rest).Avoids mark := by
  induction pre with
  | nil => exact hrest
  | cons q pre ih => exact fun h => ih h.1

lemma not_avoids_binding (hcode : ¬ code.Avoids mark) : ¬ (Term.app f code).Avoids mark :=
  fun h => hcode h.2

lemma symbols_chain_lt (q : String × Term) (pre : List (String × Term)) (rest : Term) :
    (LowerContext.chain pre rest).symbols < (LowerContext.chain (q :: pre) rest).symbols := by
  show _ < (Term.app (.lam q.1 (LowerContext.chain pre rest)) q.2).symbols
  simp only [symbols]
  omega

lemma Avoids.follows (hrest : ¬ rest.Avoids mark) (h : t.Avoids mark) (pre : List (String × Term)) :
    t.Follows pre rest := by
  induction pre with
  | nil => trivial
  | cons q pre ih => exact ⟨h.onlyAfter (not_avoids_chain hrest pre), ih⟩

lemma Follows.lam (h : b.Follows pre rest)
    (hlt : (LowerContext.chain pre rest).symbols < (Term.lam y b).symbols) :
    (Term.lam y b).Follows pre rest := by
  induction pre with
  | nil => trivial
  | cons q pre ih =>
    have hlt' := (symbols_chain_lt q pre rest).trans hlt
    exact ⟨⟨fun heq => (heq ▸ hlt').ne rfl, h.1⟩, ih h.2 hlt'⟩

lemma Follows.app (hf : f.Follows pre rest) (ha : a.Follows pre rest)
    (hlt : (LowerContext.chain pre rest).symbols < (Term.app f a).symbols) :
    (Term.app f a).Follows pre rest := by
  induction pre with
  | nil => trivial
  | cons q pre ih =>
    have hlt' := (symbols_chain_lt q pre rest).trans hlt
    exact ⟨⟨fun heq => (heq ▸ hlt').ne rfl, ha.1, Or.inl hf.1⟩, ih hf.2 ha.2 hlt'⟩

section Code

variable (hcode : ¬ code.Avoids mark)

include hcode

lemma Tracked.guarded (h : t.Tracked mark x pre rest code) : t.Guarded x rest code := by
  rcases h with h | h
  · exact h.guarded hcode
  · exact h.1

lemma Tracked.follows (h : t.Tracked mark x pre rest code) :
    t.Follows pre (.app (.lam x rest) code) := by
  rcases h with h | h
  · exact h.follows (not_avoids_binding hcode) pre
  · exact h.2.1

omit hcode in
lemma symbols_code_lt (pre : List (String × Term)) :
    code.symbols < (LowerContext.chain pre (.app (.lam x rest) code)).symbols := by
  induction pre with
  | nil =>
    show code.symbols < (Term.app (.lam x rest) code).symbols
    simp only [symbols]
    omega
  | cons q pre ih => exact ih.trans (symbols_chain_lt q pre _)

/-- A term around the block is larger than what is in the block. -/
lemma compositional_tracked (x : String) (pre : List (String × Term)) (rest : Term) :
    Compositional mark (·.Tracked mark x pre rest code) where
  var hy := Or.inl hy
  int _ := Or.inl trivial
  lam y hb := by
    rcases hb with hb | ⟨hguarded, hfollows, hle⟩
    · exact Or.inl hb
    · have hlt := Nat.lt_succ_of_le hle
      refine Or.inr ⟨⟨fun heq => ?_, hguarded⟩, hfollows.lam hlt, hlt.le⟩
      exact ((symbols_code_lt pre).trans hlt).ne (congrArg symbols heq.symm)
  app {f a} hf ha := by
    have hlarge : (LowerContext.chain pre (.app (.lam x rest) code)).symbols
        < (Term.app f a).symbols → (Term.app f a).Tracked mark x pre rest code := by
      refine fun hlt => Or.inr ⟨⟨fun heq => ?_, hf.guarded hcode, Or.inl (ha.guarded hcode)⟩,
        (hf.follows hcode).app (ha.follows hcode) hlt, hlt.le⟩
      exact ((symbols_code_lt pre).trans hlt).ne (congrArg symbols heq.symm)
    rcases hf with hf' | ⟨-, -, hle⟩
    · rcases ha with ha' | ⟨-, -, hle⟩
      · exact Or.inl ⟨hf', ha'⟩
      · exact hlarge (by simp only [symbols]; omega)
    · exact hlarge (by simp only [symbols]; omega)

/-- The block itself, if the mark is nowhere else in it. -/
lemma tracked_chain (hpre : ∀ q ∈ pre, q.2.Avoids mark) (hrest : rest.Avoids mark) :
    (LowerContext.chain pre (.app (.lam x rest) code)).Tracked mark x pre rest code := by
  induction pre with
  | nil =>
    have hlt : code.symbols < (Term.app (.lam x rest) code).symbols := symbols_code_lt []
    have hlam : (Term.lam x rest).Avoids mark := hrest
    exact Or.inr ⟨⟨fun heq => (heq ▸ hlt).ne rfl, hlam.guarded hcode, Or.inr ⟨rfl, rfl⟩⟩, trivial,
      le_rfl⟩
  | cons q pre ih =>
    rw [List.forall_mem_cons] at hpre
    have htail : ¬ (LowerContext.chain pre (.app (.lam x rest) code)).Avoids mark :=
      not_avoids_chain (not_avoids_binding hcode) pre
    have hP := compositional_tracked hcode x pre rest
    have hwhole : (LowerContext.chain (q :: pre) (.app (.lam x rest) code)).Tracked mark x pre rest
        code := hP.app (hP.lam q.1 (ih hpre.2)) (Or.inl hpre.1)
    refine Or.inr ⟨hwhole.guarded hcode, ⟨⟨fun heq => ?_, hpre.1.onlyAfter htail,
      Or.inr ⟨rfl, rfl⟩⟩, hwhole.follows hcode⟩, le_rfl⟩
    exact (symbols_chain_lt q pre _).ne (congrArg symbols heq.symm)

end Code

end Term

/-! ### A marked definition -/

/-- A definition without parameters that binds a name and is not recursive, with the code that it
becomes. -/
structure Plain (r : Resolution) (g : ScopeId) (ids : List DispatchId)
    (ds : List (Definition Scoped)) (id : DispatchId) (d : Definition Scoped) (code : Term) :
    Prop where
  mem : (g, ds) ∈ r.program.groups
  group : Group r.tree g ids ds
  member : (id, d) ∈ ids.zip ds
  binds : d.isDiscard = false
  params : d.params = []
  notRecursive : (r.classify.flags id).isRecursive = false
  lowers : Lowers (r.context.expression d.body) code

/-- Such a definition with a mark that is free in its code and occurs nowhere else in the
program. -/
structure Marked (r : Resolution) (mark : String) (g : ScopeId) (ids : List DispatchId)
    (ds : List (Definition Scoped)) (id : DispatchId) (d : Definition Scoped) (code : Term) :
    Prop extends Plain r g ids ds id d code where
  free : mark ∈ code.freeVars
  count : r.program.names.count mark ≤ d.body.names.count mark

/-- The term that a program, or a `let` block of it with the scope `g`, has become; it binds the
definitions `ds`. -/
inductive Compiled.IsBlock (c : Compiled) (g : ScopeId) (ds : List (Definition Scoped))
    (block : Term) : Prop
  | program : g = c.resolution.program.ann.scope → ds = c.resolution.program.defs →
      c.term = .app (.lam ifAlias (.app (.lam eqAlias block) (.var "=="))) (.var "if") →
      c.IsBlock g ds block
  | letIn {d b a} : d ∈ c.resolution.program.defs → (Expr.letIn ds b a).Within d.body →
      a.scope = g → Lowers (c.resolution.context.expression (.letIn ds b a)) block →
      c.IsBlock g ds block

/-! ### Where a name occurs -/

lemma Definition.body_names_sublist (d : Definition Scoped) :
    d.body.names.Sublist d.names := by
  obtain ⟨n, ps, b, a⟩ := d
  exact List.sublist_append_right (n.name :: ps.map Ident.name) b.names

lemma names_sublist {ds : List (Definition Scoped)} {d : Definition Scoped} (hd : d ∈ ds) :
    d.names.Sublist (namesOfDefs ds) := by
  induction ds with
  | nil => exact absurd hd (by simp)
  | cons d' ds ih =>
    rw [namesOfDefs]
    rcases List.mem_cons.1 hd with rfl | hd
    · exact List.sublist_append_left _ _
    · exact (ih hd).trans (List.sublist_append_right _ _)

lemma Expr.Within.names_sublist {e e' : Expr Scoped} (h : e.Within e') :
    e.names.Sublist e'.names := by
  induction h with
  | refl => exact List.Sublist.refl _
  | lam _ ih => exact ih.trans (List.sublist_append_right _ _)
  | fn _ ih => exact ih.trans (List.sublist_append_left _ _)
  | arg _ ih => exact ih.trans (List.sublist_append_right _ _)
  | cond _ ih =>
    exact (ih.trans (List.sublist_append_left _ _)).trans (List.sublist_append_left _ _)
  | pos _ ih =>
    exact (ih.trans (List.sublist_append_right _ _)).trans (List.sublist_append_left _ _)
  | neg _ ih => exact ih.trans (List.sublist_append_right _ _)
  | @binding ds b a d hd _ ih =>
    exact ((ih.trans d.body_names_sublist).trans (Letrec.names_sublist hd)).trans
      (List.sublist_append_left _ _)
  | body _ ih => exact ih.trans (List.sublist_append_right _ _)

/-- Only one definition has a name that does not occur outside of it. -/
lemma eq_of_count_le {mark : String} {n : ℕ} {ids : List DispatchId}
    {ds : List (Definition Scoped)} (hcount : (namesOfDefs ds).count mark ≤ n)
    {p q : DispatchId × Definition Scoped} (hp : p ∈ ids.zip ds) (hq : q ∈ ids.zip ds)
    (hp' : mark ∈ p.2.names) (hq' : n ≤ q.2.names.count mark) : p = q := by
  have hpos : 1 ≤ p.2.names.count mark := List.count_pos_iff.2 hp'
  induction ds generalizing ids with
  | nil => exact absurd hp (by simp)
  | cons d ds ih =>
    cases ids with
    | nil => exact absurd hp (by simp)
    | cons id ids =>
      have hrest : ∀ {p : DispatchId × Definition Scoped}, p ∈ ids.zip ds →
          p.2.names.count mark ≤ (namesOfDefs ds).count mark :=
        fun hp => (names_sublist (List.of_mem_zip hp).2).count_le mark
      rw [namesOfDefs, List.count_append] at hcount
      rw [List.zip_cons_cons, List.mem_cons] at hp hq
      rcases hp with rfl | hp
      · rcases hq with rfl | hq
        · rfl
        · have hhead : 1 ≤ d.names.count mark := hpos
          have := hrest hq
          omega
      · rcases hq with rfl | hq
        · have hhead : n ≤ d.names.count mark := hq'
          have := hrest hp
          omega
        · exact ih (by omega) hp hq

/-- A name that occurs in the body of a definition and nowhere else is not the name of a
definition. -/
lemma name_ne_of_count_le {mark : String} {n : ℕ} {ids : List DispatchId}
    {ds : List (Definition Scoped)} (hcount : (namesOfDefs ds).count mark ≤ n)
    {p q : DispatchId × Definition Scoped} (hp : p ∈ ids.zip ds) (hq : q ∈ ids.zip ds)
    (hq' : n ≤ q.2.body.names.count mark) : p.2.name.name ≠ mark := by
  intro hname
  have hp' : mark ∈ p.2.names := by
    obtain ⟨i, n, ps, b, a⟩ := p
    exact hname ▸ List.mem_cons_self
  obtain rfl := eq_of_count_le hcount hp hq hp' (hq'.trans (q.2.body_names_sublist.count_le mark))
  have hle := ((names_sublist (List.of_mem_zip hp).2).count_le mark).trans hcount
  obtain ⟨i, n, ps, b, a⟩ := p
  have hnames : (Definition.mk n ps b a).names = n.name :: (ps.map Ident.name ++ b.names) := rfl
  rw [hnames, List.count_cons, List.count_append, if_pos (by simpa using hname)] at hle
  have hbody : _ ≤ b.names.count mark := hq'
  omega

/-- The numbers of a grouping are those that its scope declares. -/
lemma Group.ids_eq {t : ScopeTree} {g : ScopeId} {ids ids' : List DispatchId}
    {ds ds' : List (Definition Scoped)} (hg : Group t g ids ds) (hg' : Group t g ids' ds') :
    ids = ids' := by
  obtain ⟨_, _, hdecl⟩ := hg.declared
  obtain ⟨_, _, hdecl'⟩ := hg'.declared
  exact congrArg Scope.declared (Option.some.inj (hdecl.scope.symm.trans hdecl'.scope))

/-! ### The bindings of a block -/

lemma forall₂_append_cons {β γ : Type*} {R : β → γ → Prop} {l₁ l₂ : List β} {a : β} {l' : List γ}
    (h : List.Forall₂ R (l₁ ++ a :: l₂) l') : ∃ m₁ b m₂, l' = m₁ ++ b :: m₂ ∧ R a b ∧
      List.Forall₂ R l₁ m₁ ∧ List.Forall₂ R l₂ m₂ := by
  induction l₁ generalizing l' with
  | nil =>
    obtain _ | ⟨hab, hrest⟩ := h
    exact ⟨[], _, _, rfl, hab, .nil, hrest⟩
  | cons c l₁ ih =>
    obtain _ | ⟨hcb, hrest⟩ := h
    obtain ⟨m₁, b, m₂, rfl, hab, h₁, h₂⟩ := ih hrest
    exact ⟨_ :: m₁, b, m₂, rfl, hab, .cons hcb h₁, h₂⟩

namespace Plain

variable {names : List String} {r : Resolution} {ids₀ : List DispatchId} {g : ScopeId}
  {ids : List DispatchId} {ds : List (Definition Scoped)} {id : DispatchId} {d : Definition Scoped}
  {code : Term} (hr : r.WellScoped names ids₀) (h : Plain r g ids ds id d code)

include hr h

/-- The component of the definition is the definition alone. -/
lemma component_eq {c : List DispatchId} (hc : c ∈ r.classify.components g) (hid : id ∈ c) :
    c = [id] := by
  have hplain := h.notRecursive
  rw [hr.components_eq h.mem] at hc
  rw [Flags.isRecursive, hr.flags_eq h.mem h.group hc hid, Bool.or_eq_false_iff] at hplain
  have hlen : ¬ 1 < c.length := by simpa using hplain.2
  match c with
  | [] => exact absurd hid (by simp)
  | [i] => rw [List.mem_singleton.1 hid]
  | i :: j :: c => exact absurd hlen (by simp)

/-- The block of the grouping binds the definition to its code, among the bindings of other
components. -/
lemma exists_binding {os : List (Option (String × Term))}
    (hos : List.Forall₂ (ComponentLowers r.context ids ds) (r.classify.components g) os) :
    ∃ pre post, os.reduceOption = pre ++ (d.name.name, code) :: post ∧
      ∀ q ∈ pre ++ post, ∃ c, id ∉ c ∧ ComponentLowers r.context ids ds c (some q) := by
  obtain ⟨hw, hn, -⟩ := callGraph_wellFormed h.group
  have hnodup : (r.classify.components g).flatten.Nodup := by
    rw [hr.components_eq h.mem]
    exact CallGraph.nodup_flatten_components hw
  have hflatten : id ∈ (r.classify.components g).flatten := by
    rw [hr.components_eq h.mem, CallGraph.mem_flatten_components hw, hn]
    exact (List.of_mem_zip h.member).1
  obtain ⟨c, hc, hid⟩ := List.mem_flatten.1 hflatten
  obtain rfl := h.component_eq hr hc hid
  obtain ⟨cs₁, cs₂, hcs⟩ := List.append_of_mem hc
  rw [hcs] at hos hnodup
  obtain ⟨os₁, o, os₂, rfl, hlowers, hos₁, hos₂⟩ := forall₂_append_cons hos
  have hnotMem : id ∉ cs₁.flatten ++ cs₂.flatten := by
    rw [List.flatten_append, List.flatten_cons, List.singleton_append, List.nodup_middle] at hnodup
    exact (List.nodup_cons.1 hnodup).1
  have hother : ∀ {cs : List (List DispatchId)} {os : List (Option (String × Term))} {q},
      List.Forall₂ (ComponentLowers r.context ids ds) cs os → id ∉ cs.flatten →
      q ∈ os.reduceOption → ∃ c, id ∉ c ∧ ComponentLowers r.context ids ds c (some q) := by
    intro cs os q hos hid hq
    obtain ⟨c, hc, hlowers⟩ := forall₂_mem_right hos (List.reduceOption_mem_iff.1 hq)
    exact ⟨c, fun hmem => hid (List.mem_flatten.2 ⟨c, hc, hmem⟩), hlowers⟩
  have hplain := h.notRecursive
  rw [Flags.isRecursive, Bool.or_eq_false_iff] at hplain
  rcases hlowers.single h.group h.member with ⟨hdisc, -⟩ | ⟨-, code', ⟨b, hb, rfl⟩, rfl⟩
  · exact absurd (h.binds.symm.trans hdisc) (by simp)
  · have hcode : b = code := lowers_unique hr _ (h.group.hasPart h.mem h.member) hb h.lowers
    have hself : (r.context.classification.flags id).selfRecursive = false := hplain.1
    rw [hself, if_neg (by simp), h.params, hcode]
    refine ⟨os₁.reduceOption, os₂.reduceOption, ?_, fun q hq => ?_⟩
    · rw [List.reduceOption_append, List.reduceOption_cons_of_some]
      rfl
    · rw [List.mem_append, not_or] at hnotMem
      exact (List.mem_append.1 hq).elim (hother hos₁ hnotMem.1) (hother hos₂ hnotMem.2)

end Plain

lemma Resolution.HasPart.within {r : Resolution} {e e' : Expr Scoped} (hw : e'.Within e) :
    ∀ {s : ScopeId}, r.HasPart s e → ∃ s', r.HasPart s' e' := by
  induction hw with
  | refl => exact fun h => ⟨_, h⟩
  | lam _ ih => exact fun h => ih h.lam.2
  | fn _ ih => exact fun h => ih h.call.1
  | arg _ ih => exact fun h => ih h.call.2
  | cond _ ih => exact fun h => ih h.ite.1
  | pos _ ih => exact fun h => ih h.ite.2.1
  | neg _ ih => exact fun h => ih h.ite.2.2
  | binding hd _ ih =>
    intro s h
    obtain ⟨hmem, -, ids, -, hg⟩ := h.letIn
    obtain ⟨i, hi⟩ := exists_mem_zip_of_mem_right hg.length hd
    exact ih (hg.hasPart hmem hi)
  | body _ ih => exact fun h => ih h.letIn.2.1

namespace Compiled.IsBlock

variable {names : List String} {entry : String} {c : Compiled} {ids₀ ids : List DispatchId}
  {g : ScopeId} {ds : List (Definition Scoped)} {block : Term}

lemma mem_groups (h : c.IsBlock g ds block) : (g, ds) ∈ c.resolution.program.groups := by
  rw [Program.mem_groups_iff]
  cases h with
  | program hg hds _ => exact Or.inl ⟨hg, hds⟩
  | letIn hd hwithin hscope _ => exact Or.inr ⟨_, hd, _, _, hscope, hwithin⟩

end Compiled.IsBlock

/-- The block binds `x` to the code of the definition with the number `id`, among the bindings of
other components. -/
structure Compiled.Binds (c : Compiled) (ids : List DispatchId) (ds : List (Definition Scoped))
    (id : DispatchId) (x : String) (code : Term) (pre post : List (String × Term))
    (body block : Term) : Prop where
  block_eq : block = LowerContext.chain pre (.app (.lam x (LowerContext.chain post body)) code)
  /-- The other bindings are those of other components. -/
  others : ∀ q ∈ pre ++ post, ∃ comp, id ∉ comp ∧
    ComponentLowers c.resolution.context ids ds comp (some q)
  /-- The body refers to the entry point, or it is what the body of a `let` has become. -/
  body : (∃ i d, (i, d) ∈ ids.zip ds ∧ body = c.resolution.context.refer d.name.name (.binding i)) ∨
    ∃ d b a s, d ∈ c.resolution.program.defs ∧ (Expr.letIn ds b a).Within d.body ∧
      c.resolution.HasPart s b ∧ Lowers (c.resolution.context.expression b) body

section Blocks

variable {names : List String} {entry : String} {c : Compiled} {ids₀ ids : List DispatchId}
  {g : ScopeId} {ds : List (Definition Scoped)} {block : Term}
  (hr : c.resolution.WellScoped names ids₀)
  (hlowers : Lowers (c.resolution.lower c.resolution.classify entry) c.term)

include hr hlowers

/-- A block is a chain of bindings around a body. -/
lemma Compiled.IsBlock.exists_chain (h : c.IsBlock g ds block)
    (hg : Group c.resolution.tree g ids ds) :
    ∃ os body, List.Forall₂ (ComponentLowers c.resolution.context ids ds)
        (c.resolution.classify.components g) os ∧
      block = LowerContext.chain os.reduceOption body ∧
      ((∃ i d, (i, d) ∈ ids.zip ds ∧ body = c.resolution.context.refer d.name.name (.binding i)) ∨
        ∃ d b a s, d ∈ c.resolution.program.defs ∧ (Expr.letIn ds b a).Within d.body ∧
          c.resolution.HasPart s b ∧ Lowers (c.resolution.context.expression b) body) := by
  cases h with
  | program hscope hds hterm =>
    obtain ⟨i, d, os, hd, rfl, -, hos, ht⟩ := hr.lowers_program hlowers
    subst hscope hds
    obtain rfl := hg.ids_eq hr.program_group
    refine ⟨os, _, hos, ?_, Or.inl ⟨i, d, hd, rfl⟩⟩
    simpa using hterm.symm.trans ht
  | @letIn d b a hd hwithin hscope hblock =>
    obtain ⟨i, hi⟩ := exists_mem_zip_of_mem_right hr.program_group.length hd
    obtain ⟨s, hpart⟩ := Resolution.HasPart.within hwithin
      (hr.program_group.hasPart List.mem_cons_self hi)
    obtain ⟨hmem, hpartb, ids', -, hg'⟩ := hpart.letIn
    obtain ⟨body, hbody, hgroup⟩ := LowerContext.lowers_letIn hblock
    obtain ⟨os, hos, rfl⟩ := hr.lowers_grouping hmem hg' hgroup
    subst hscope
    obtain rfl := hg.ids_eq hg'
    exact ⟨os, body, hos, rfl, Or.inr ⟨d, b, a, _, hd, hwithin, hpartb, hbody⟩⟩

lemma Plain.exists_binds {id : DispatchId} {d : Definition Scoped} {code : Term}
    (h : Plain c.resolution g ids ds id d code) (hblock : c.IsBlock g ds block) :
    ∃ pre post body, c.Binds ids ds id d.name.name code pre post body block := by
  obtain ⟨os, body, hos, rfl, hbody⟩ := hblock.exists_chain hr hlowers h.group
  obtain ⟨pre, post, heq, hother⟩ := h.exists_binding hr hos
  refine ⟨pre, post, body, ?_, hother, hbody⟩
  rw [heq, LowerContext.chain, List.foldr_append]
  rfl

end Blocks

/-! ### Where the code is -/

namespace Marked

variable {names : List String} {entry : String} {c : Compiled} {ids₀ : List DispatchId}
  {mark : String} {g : ScopeId} {ids : List DispatchId} {ds : List (Definition Scoped)}
  {id : DispatchId} {d : Definition Scoped} {code : Term}
  (hr : c.resolution.WellScoped names ids₀) (h : Marked c.resolution mark g ids ds id d code)

include h

lemma not_avoids : ¬ code.Avoids mark := fun havoids => havoids.notMem_freeVars h.free

/-- What has the definition inside has all of the marks. -/
lemma count_le_of_within {e b : Expr Scoped} {a : Scoped} (he : (Expr.letIn ds b a).Within e) :
    d.body.names.count mark ≤ e.names.count mark := by
  have hdef := d.body_names_sublist.trans (names_sublist (List.of_mem_zip h.member).2)
  exact ((hdef.trans (List.sublist_append_left _ b.names)).trans he.names_sublist).count_le mark

/-- There are no more marks in a part of the program than in the definition. -/
lemma count_le {d' : Definition Scoped} (hd' : d' ∈ c.resolution.program.defs) :
    d'.body.names.count mark ≤ d.body.names.count mark :=
  ((d'.body_names_sublist.trans (names_sublist hd')).count_le mark).trans h.count

/-- There are no more marks in the grouping than in the definition. -/
lemma count_defs_le : (namesOfDefs ds).count mark ≤ d.body.names.count mark := by
  rcases (Program.mem_groups_iff _ _ _).1 h.mem with ⟨-, rfl⟩ | ⟨d', hd', b, a, -, hwithin⟩
  · exact h.count
  · have hle := hwithin.names_sublist.count_le mark
    rw [Expr.names, List.count_append] at hle
    have := h.count_le hd'
    omega

variable (hmark : Unmade mark)

include hr hmark

/-- In the block of the grouping the mark is nowhere but in the code. -/
lemma tracked_block {pre post : List (String × Term)} {body block : Term}
    (hbinds : c.Binds ids ds id d.name.name code pre post body block) :
    block.Tracked mark d.name.name pre (LowerContext.chain post body) code := by
  have hP := compositional_avoids mark
  obtain ⟨rfl, hothers, hbody⟩ := hbinds
  have havoids : ∀ q ∈ pre ++ post, q.2.Avoids mark := by
    intro q hq
    obtain ⟨comp, hid, hcomp⟩ := hothers q hq
    refine hP.component hmark (fun i hi d' code' hd' hcode' => ?_) hcomp
    obtain ⟨b, hb, rfl⟩ := hcode'
    refine hP.lams (hP.lowers hmark hr _ (h.group.hasPart h.mem hd') (fun hm => hid ?_) hb) _
    obtain ⟨rfl, -⟩ := Prod.mk.inj (eq_of_count_le h.count_defs_le hd' h.member
      (d'.body_names_sublist.subset hm) (d.body_names_sublist.count_le mark))
    exact hi
  have hbodyAvoids : body.Avoids mark := by
    rcases hbody with ⟨i, d', hd', rfl⟩ | ⟨d', b, a, s, hd', hwithin, hpart, hb⟩
    · exact hP.refer hmark hr (name_ne_of_count_le h.count_defs_le hd' h.member le_rfl) _
    · refine hP.lowers hmark hr b hpart (fun hm => ?_) hb
      have hle := (hwithin.names_sublist.count_le mark).trans (h.count_le hd')
      rw [Expr.names, List.count_append] at hle
      have hpos := List.count_pos_iff.2 hm
      have hdef := (d.body_names_sublist.trans
        (names_sublist (List.of_mem_zip h.member).2)).count_le mark
      omega
  refine Term.tracked_chain h.not_avoids (fun q hq => havoids q (List.mem_append_left _ hq)) ?_
  exact hP.chain hbodyAvoids fun q hq => havoids q (List.mem_append_right _ hq)

section Path

variable {x : String} {pre : List (String × Term)} {rest block : Term} {b₀ : Expr Scoped}
  {a₀ : Scoped}

/-- The grouping that has the block inside of one of its definitions. -/
lemma tracked_grouping {ids' : List DispatchId} {ds' : List (Definition Scoped)} {g' : ScopeId}
    (hmem : (g', ds') ∈ c.resolution.program.groups) (hg : Group c.resolution.tree g' ids' ds')
    {d₁ : Definition Scoped} (hd₁ : d₁ ∈ ds') (hwithin : (Expr.letIn ds b₀ a₀).Within d₁.body)
    (hcount : (namesOfDefs ds').count mark ≤ d.body.names.count mark)
    (ih : ∀ {s t}, c.resolution.HasPart s d₁.body →
      d₁.body.names.count mark ≤ d.body.names.count mark →
      Lowers (c.resolution.context.expression d₁.body) t → t.Tracked mark x pre rest code)
    {os : List (Option (String × Term))}
    (hos : List.Forall₂ (ComponentLowers c.resolution.context ids' ds')
      (c.resolution.classify.components g') os)
    {body : Term} (hbody : body.Tracked mark x pre rest code) :
    (LowerContext.chain os.reduceOption body).Tracked mark x pre rest code := by
  have hP := Term.compositional_tracked h.not_avoids x pre rest
  refine hP.grouping hmark (fun i d' code' hd' hcode' => ?_) hos hbody
  obtain ⟨b, hb, rfl⟩ := hcode'
  have hpart := hg.hasPart hmem hd'
  refine hP.lams ?_ _
  by_cases hm : mark ∈ d'.body.names
  · -- the definition that has the block inside is the one that has the mark
    obtain ⟨i₁, hi₁⟩ := exists_mem_zip_of_mem_right hg.length hd₁
    obtain ⟨rfl, rfl⟩ := Prod.mk.inj (eq_of_count_le hcount hd' hi₁
      (d'.body_names_sublist.subset hm)
      ((h.count_le_of_within hwithin).trans (d₁.body_names_sublist.count_le mark)))
    have hle := (d'.body_names_sublist.trans (names_sublist hd₁)).count_le mark
    exact ih hpart (hle.trans hcount) hb
  · exact hP.lowers hmark hr _ hpart hm hb

variable (hlowers : Lowers (c.resolution.context.expression (.letIn ds b₀ a₀)) block)
  (htracked : block.Tracked mark x pre rest code)

include hlowers htracked

/-- On the way from an expression down to the block, the mark is in nothing else. -/
lemma tracked_within {e : Expr Scoped} (hwithin : (Expr.letIn ds b₀ a₀).Within e) :
    ∀ {s t}, c.resolution.HasPart s e → e.names.count mark ≤ d.body.names.count mark →
      Lowers (c.resolution.context.expression e) t → t.Tracked mark x pre rest code := by
  have hP := Term.compositional_tracked h.not_avoids x pre rest
  have hnot : ∀ {e e' : Expr Scoped}, (Expr.letIn ds b₀ a₀).Within e →
      e.names.count mark + e'.names.count mark ≤ d.body.names.count mark → mark ∉ e'.names := by
    intro e e' hwithin hcount hm
    have hpos := List.count_pos_iff.2 hm
    have hle := h.count_le_of_within hwithin
    omega
  induction hwithin with
  | refl =>
    intro s t hpart _ ht
    rwa [lowers_unique hr _ hpart ht hlowers]
  | lam _ ih =>
    intro s t hpart hcount ht
    obtain ⟨b', hb, rfl⟩ := LowerContext.lowers_lam ht
    rw [Expr.names, List.count_append] at hcount
    exact hP.lams (ih hpart.lam.2 (by omega) hb) _
  | fn hwithin ih =>
    intro s t hpart hcount ht
    obtain ⟨f', y', hf, hy, rfl⟩ := LowerContext.lowers_call ht
    rw [Expr.names, List.count_append] at hcount
    exact hP.app (ih hpart.call.1 (by omega) hf)
      (hP.lowers hmark hr _ hpart.call.2 (hnot hwithin hcount) hy)
  | arg hwithin ih =>
    intro s t hpart hcount ht
    obtain ⟨f', y', hf, hy, rfl⟩ := LowerContext.lowers_call ht
    rw [Expr.names, List.count_append] at hcount
    exact hP.app (hP.lowers hmark hr _ hpart.call.1 (hnot hwithin (by omega)) hf)
      (ih hpart.call.2 (by omega) hy)
  | cond hwithin ih =>
    intro s t hpart hcount ht
    obtain ⟨c', p', n', hc, hp, hn, rfl⟩ := LowerContext.lowers_ite ht
    rw [Expr.names, List.count_append, List.count_append] at hcount
    exact hP.cond hmark (ih hpart.ite.1 (by omega) hc)
      (hP.lowers hmark hr _ hpart.ite.2.1 (hnot hwithin (by omega)) hp)
      (hP.lowers hmark hr _ hpart.ite.2.2 (hnot hwithin (by omega)) hn)
  | pos hwithin ih =>
    intro s t hpart hcount ht
    obtain ⟨c', p', n', hc, hp, hn, rfl⟩ := LowerContext.lowers_ite ht
    rw [Expr.names, List.count_append, List.count_append] at hcount
    exact hP.cond hmark (hP.lowers hmark hr _ hpart.ite.1 (hnot hwithin (by omega)) hc)
      (ih hpart.ite.2.1 (by omega) hp)
      (hP.lowers hmark hr _ hpart.ite.2.2 (hnot hwithin (by omega)) hn)
  | neg hwithin ih =>
    intro s t hpart hcount ht
    obtain ⟨c', p', n', hc, hp, hn, rfl⟩ := LowerContext.lowers_ite ht
    rw [Expr.names, List.count_append, List.count_append] at hcount
    exact hP.cond hmark (hP.lowers hmark hr _ hpart.ite.1 (hnot hwithin (by omega)) hc)
      (hP.lowers hmark hr _ hpart.ite.2.1 (hnot hwithin (by omega)) hp)
      (ih hpart.ite.2.2 (by omega) hn)
  | @binding ds' b a d₁ hd₁ hwithin ih =>
    intro s t hpart hcount ht
    obtain ⟨hmem, hpartb, ids', -, hg⟩ := hpart.letIn
    obtain ⟨b', hb, hgroup⟩ := LowerContext.lowers_letIn ht
    obtain ⟨os, hos, rfl⟩ := hr.lowers_grouping hmem hg hgroup
    rw [Expr.names, List.count_append] at hcount
    have hle := (d₁.body_names_sublist.trans (names_sublist hd₁)).count_le mark
    exact h.tracked_grouping hr hmark hmem hg hd₁ hwithin (by omega) ih hos
      (hP.lowers hmark hr _ hpartb (hnot hwithin (by omega)) hb)
  | @body ds' b a hwithin ih =>
    intro s t hpart hcount ht
    obtain ⟨hmem, hpartb, ids', -, hg⟩ := hpart.letIn
    obtain ⟨b', hb, hgroup⟩ := LowerContext.lowers_letIn ht
    obtain ⟨os, hos, rfl⟩ := hr.lowers_grouping hmem hg hgroup
    rw [Expr.names, List.count_append] at hcount
    refine hP.grouping hmark (fun i d' code' hd' hcode' => ?_) hos (ih hpartb (by omega) hb)
    obtain ⟨b₁, hb₁, rfl⟩ := hcode'
    have hd'' := (List.of_mem_zip hd').2
    have hle := (d'.body_names_sublist.trans (names_sublist hd'')).count_le mark
    exact hP.lams (hP.lowers hmark hr _ (hg.hasPart hmem hd') (hnot hwithin (by omega)) hb₁) _

end Path

/-- The term of a program has the code only as what the definition is bound to, and comes to that
binding only through its block. -/
theorem tracked_lower (hlowers : Lowers (c.resolution.lower c.resolution.classify entry) c.term)
    {block : Term} (hblock : c.IsBlock g ds block) {x : String} {pre : List (String × Term)}
    {rest : Term} (htracked : block.Tracked mark x pre rest code) :
    c.term.Tracked mark x pre rest code := by
  have hP := Term.compositional_tracked h.not_avoids x pre rest
  have haround : ∀ {b : Term}, b.Tracked mark x pre rest code →
      (Term.app (.lam ifAlias (.app (.lam eqAlias b) (.var "=="))) (.var "if")).Tracked mark x pre
        rest code := fun hb =>
    hP.app (hP.lam _ (hP.app (hP.lam _ hb) (hP.var hmark.builtin.2.symm)))
      (hP.var hmark.builtin.1.symm)
  cases hblock with
  | program _ _ hterm => exact hterm ▸ haround htracked
  | @letIn d₁ b a hd₁ hwithin _ hlet =>
    obtain ⟨i, e, os, he, rfl, -, hos, ht⟩ := hr.lowers_program hlowers
    rw [ht]
    have hg := hr.program_group
    obtain ⟨i₁, hi₁⟩ := exists_mem_zip_of_mem_right hg.length hd₁
    have hentry : e.name.name ≠ mark :=
      name_ne_of_count_le h.count he hi₁ (h.count_le_of_within hwithin)
    exact haround (h.tracked_grouping hr hmark List.mem_cons_self hg hd₁ hwithin h.count
      (h.tracked_within hr hmark hlet htracked hwithin) hos (hP.refer hmark hr hentry _))

end Marked

end Letrec
