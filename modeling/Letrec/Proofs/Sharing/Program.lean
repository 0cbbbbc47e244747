import Mathlib
import Letrec.Proofs.Sharing.Lowering

/-!
# Definitions without parameters are shared

A definition without parameters that is not recursive is evaluated at most once for each time that
its `let` block, or the program, is entered, however often it is used (`binding_shared`).  Where the
operation `tick` is used in its body and nowhere else, the body is told apart from all other code,
and all of its evaluations are accounted for.

A recursive definition is not shared.  The fixed-point combinator and the tables of mutually
recursive groups hand out the code of a definition anew, so it is evaluated again
(`recursive_not_shared`).
-/

namespace Letrec

/-! ### Activations of a block -/

namespace Config

/-- The evaluation of the block at the time `t` has made a thunk, where it came to the binding `n`
steps later, and the code of this thunk is evaluated at the time `v`. -/
def Owns (limit : Option ℕ) (start : Config) (block : Term) (n t v : ℕ) : Prop :=
  EvaluatesAt limit start block t ∧ ∃ u, v = u + 1 ∧ StartsAt limit start (t + n) u

/-- In a run, every evaluation of the block comes to the binding `(\x. rest) code` in it, and the
code that is suspended there is evaluated at most once. -/
structure Shares (limit : Option ℕ) (start : Config) (block : Term) (n : ℕ) (x : String)
    (rest code : Term) : Prop where
  /-- The binding is entered `n` steps after the block, and inside of it. -/
  enters : ∀ {t env K m}, start.after? limit t = some ⟨.eval block env, K, m⟩ →
    LimitedWithin limit start t (t + n) ∨
      ∃ env' K' m', start.after? limit (t + n)
        = some ⟨.eval (.app (.lam x rest) code) env', K', m'⟩ ∧ K <:+ K'
  /-- In the rest of the block `x` stands for a new thunk with the code, unless the code is an
  integer or a variable. -/
  suspends : ∀ {e env K m}, start.after? limit e
      = some ⟨.eval (.app (.lam x rest) code) env, K, m⟩ →
    LimitedWithin limit start e (e + 5) ∨
      ∃ u m', start.after? limit (e + 5) = some ⟨.eval rest (env.extend x u), .leave :: K, m'⟩ ∧
        (u = code ∧ code.isReady = true ∨ (∃ z, code = .var z ∧ env.lookup? z = some u) ∨
          u = .thunk m.heap.thunks.size ∧
            m'.heap.thunks[m.heap.thunks.size]? = some { term := code, env })
  /-- One evaluation of the block has the code evaluated at most once. -/
  once : ∀ {t v v'}, Owns limit start block n t v → Owns limit start block n t v' → v = v'

/-- In a run, the code is evaluated only for evaluations of the block, and the binding is entered
only by them. -/
structure OwnsAll (limit : Option ℕ) (start : Config) (block : Term) (n : ℕ) (x : String)
    (rest code : Term) : Prop where
  /-- The binding is entered once by each evaluation of the block, and not otherwise. -/
  entered : ∀ {e}, EvaluatesAt limit start (.app (.lam x rest) code) e →
    ∃ t, t + n = e ∧ EvaluatesAt limit start block t
  /-- Every evaluation of the code belongs to an evaluation of the block. -/
  owned : ∀ {v}, EvaluatesAt limit start code v → ∃ t, Owns limit start block n t v

variable {limit : Option ℕ} {start : Config} {x : String} {code : Term}
  {pre : List (String × Term)}

lemma Ranked.once (h : start.Ranked) {e u u' : ℕ} (hu : StartsAt limit start e u)
    (hu' : StartsAt limit start e u') : u = u' := by
  obtain ⟨-, s₀, s, hs₀, hs, hstarts⟩ := hu
  obtain ⟨-, s₀', s', hs₀', hs', hstarts'⟩ := hu'
  obtain rfl := Option.some.inj (hs₀.symm.trans hs₀')
  have honce := h.forcesOnce limit
  rcases lt_trichotomy u u' with hlt | rfl | hlt
  · exact absurd hstarts' (honce.once (reaches_of_after? hs) hstarts (transGen_of_lt hs hs' hlt))
  · rfl
  · exact absurd hstarts (honce.once (reaches_of_after? hs') hstarts' (transGen_of_lt hs' hs hlt))

lemma Ranked.shares (h : start.Ranked) (limit : Option ℕ) (x : String) (rest code : Term)
    (pre : List (String × Term)) : Shares limit start
      (LowerContext.chain pre (.app (.lam x rest) code)) (5 * pre.length) x rest code where
  enters ht := enters_rest pre _ ht
  suspends {e env K m} he := by
    rcases Passing.after? he (.binding rfl) le_rfl with hlimited | ⟨s, hs, hpassing⟩
    · exact Or.inl hlimited
    · cases hpassing with
      | @entered m' u hu =>
        refine Or.inr ⟨u, m', hs, ?_⟩
        rcases hu with ⟨-, ⟨rfl, hready⟩ | hvar⟩ | ⟨rfl, hheap⟩
        · exact Or.inl ⟨rfl, hready⟩
        · exact Or.inr (Or.inl hvar)
        · refine Or.inr (Or.inr ⟨rfl, ?_⟩)
          rw [hheap]
          exact Array.getElem?_push_size
  once hv hv' := by
    obtain ⟨-, u, rfl, hu⟩ := hv
    obtain ⟨-, u', rfl, hu'⟩ := hv'
    rw [h.once hu hu']

lemma Ranked.ownsAll {bs : Builtins} (hbs : bs.OnlyForce) {tracing : Bool} {log : Array Event}
    {t rest : Term} (hranked : (Config.start bs tracing log t).Ranked) (hlowered : t.Lowered)
    (hguarded : t.Guarded x rest code) (hfollows : t.Follows pre (.app (.lam x rest) code))
    (hcode : code.isReady = false) (limit : Option ℕ) : OwnsAll limit
      (Config.start bs tracing log t) (LowerContext.chain pre (.app (.lam x rest) code))
      (5 * pre.length) x rest code where
  entered he := evaluates_chain hbs tracing log hranked hlowered rfl hfollows he
  owned hv := by
    obtain ⟨e, u, rfl, he, hstarts⟩ :=
      hranked.owned (guards_start hguarded bs tracing log) hcode hv
    obtain ⟨t, rfl, ht⟩ := evaluates_chain hbs tracing log hranked hlowered rfl hfollows he
    exact ⟨t, ht, u, rfl, hstarts⟩

end Config

/-! ### Counting evaluations -/

/-- The standard operations, and one that records its argument and returns it. -/
def Builtins.ticking : Builtins := Builtins.standard.insert "tick" 1 (Probe.op "tick" .tick)

lemma Builtins.ticking_onlyForce : Builtins.ticking.OnlyForce :=
  standard_onlyForce.insert le_rfl (Probe.onlyForces "tick" (by simp) le_rfl)

open Config

/-- A definition without parameters that is not recursive is shared.  Whenever the block of its
grouping is evaluated, the binding of the definition is entered once, and the code of its body,
which is suspended there, is evaluated at most once.  If `tick` is used in the body and nowhere else
in the program, so that the code is not mistaken for other code, then it is not evaluated in any
other way, and the binding is entered by nothing but the block. -/
theorem binding_shared (opts : Options) (tracing : Bool) {p : Program Span} {c : Compiled}
    {log : Array Event} (hc : compile Builtins.ticking.names opts.entry p #[] = .ok c log)
    {g : ScopeId} {ds : List (Definition Scoped)} {block : Term} (hblock : c.IsBlock g ds block)
    {d : Definition Scoped} (hd : d ∈ ds) (hbinds : d.isDiscard = false) (hparams : d.params = [])
    {id : DispatchId} (hid : c.resolution.tree.Numbers id d)
    (hplain : (c.resolution.classify.flags id).isRecursive = false) {code : Term}
    (hcode : Lowers (c.resolution.context.expression d.body) code) :
    (run .ticking opts tracing p).EndsRun opts.maxDepth (start .ticking tracing log c.term) ∧
    ∃ n rest,
      Shares opts.maxDepth (start .ticking tracing log c.term) block n d.name.name rest code ∧
      ("tick" ∈ code.freeVars → p.names.count "tick" = d.body.names.count "tick" →
        OwnsAll opts.maxDepth (start .ticking tracing log c.term) block n d.name.name rest
          code) := by
  have hrun := run_of_compile hc tracing
  have hclosed := closedIn_of_compile hc (by decide +kernel) (by decide +kernel)
  have hranked := ranked_start Builtins.ticking_onlyForce hclosed tracing log
  obtain ⟨rfl, ids₀, hr, hlowers⟩ := compile_eq_ok hc
  obtain ⟨ids, hgroup⟩ := hr.group hblock.mem_groups
  have hshared : Plain c.resolution g ids ds id d code :=
    ⟨hblock.mem_groups, hgroup, (hgroup.numbers_iff hd).1 hid, hbinds, hparams, hplain, hcode⟩
  obtain ⟨pre, post, body, hbinding⟩ := hshared.exists_binds hr hlowers hblock
  have hshares := hranked.shares opts.maxDepth d.name.name (LowerContext.chain post body) code pre
  rw [← hbinding.block_eq] at hshares
  refine ⟨hrun ▸ endsRun_evaluateIn _ _ _ _ _, 5 * pre.length, LowerContext.chain post body,
    hshares, fun htick honce => ?_⟩
  rw [Program.names_map] at honce
  have hmarked : Marked c.resolution "tick" g ids ds id d code := ⟨hshared, htick, honce.le⟩
  have hunmade : Unmade "tick" := ⟨fun h => absurd h.head? (by decide), by decide, by decide⟩
  have htracked := hmarked.tracked_lower hr hunmade hlowers hblock
    (hmarked.tracked_block hr hunmade hbinding)
  have hready : code.isReady = false := by
    cases code with
    | var y => rfl
    | lam y b => rfl
    | app f a => rfl
    | _ => exact absurd htick (by simp [Term.freeVars])
  have hownsAll := hranked.ownsAll Builtins.ticking_onlyForce hclosed.lowered
    (htracked.guarded hmarked.not_avoids) (htracked.follows hmarked.not_avoids) hready opts.maxDepth
  rwa [← hbinding.block_eq] at hownsAll

/-- The parts of a `let` block. -/
def Expr.block? {α : Type} : Expr α → Option (List (Definition α) × Expr α × α)
  | .letIn ds b a => some (ds, b, a)
  | _ => none

lemma Expr.block?_eq_some {α : Type} {e : Expr α} {q : List (Definition α) × Expr α × α}
    (h : e.block? = some q) : e = .letIn q.1 q.2.1 q.2.2 := by
  cases e with
  | letIn ds b a =>
    obtain rfl := Option.some.inj h
    rfl
  | _ => exact absurd h (by simp [block?])

/-- `f x = let a = tick x; b = + a a in + a b` and `main = + (f 1) (f 2)`: the body and a sibling
use `a`, and the block is evaluated twice. -/
def tickedSums : Program Span where
  defs :=
    [⟨⟨"f", .nowhere⟩, [⟨"x", .nowhere⟩],
      .letIn
        [⟨⟨"a", .nowhere⟩, [], .call (.ident ⟨"tick", .nowhere⟩) (.ident ⟨"x", .nowhere⟩) .nowhere,
          .nowhere⟩,
         ⟨⟨"b", .nowhere⟩, [],
          .callAll (.ident ⟨"+", .nowhere⟩) [.ident ⟨"a", .nowhere⟩, .ident ⟨"a", .nowhere⟩]
            .nowhere, .nowhere⟩]
        (.callAll (.ident ⟨"+", .nowhere⟩) [.ident ⟨"a", .nowhere⟩, .ident ⟨"b", .nowhere⟩]
          .nowhere) .nowhere, .nowhere⟩,
     ⟨⟨"main", .nowhere⟩, [],
      .callAll (.ident ⟨"+", .nowhere⟩)
        [.call (.ident ⟨"f", .nowhere⟩) (.int 1 .nowhere) .nowhere,
         .call (.ident ⟨"f", .nowhere⟩) (.int 2 .nowhere) .nowhere] .nowhere, .nowhere⟩]
  ann := .nowhere

/-- `(\a. (\b. + a b) (+ a a)) (tick x)` -/
def tickedBlock : Term :=
  .app (.lam "a" (.app (.lam "b" (.app (.app (.var "+") (.var "a")) (.var "b")))
    (.app (.app (.var "+") (.var "a")) (.var "a")))) (.app (.var "tick") (.var "x"))

theorem binding_shared_tickedSums : ∃ c log n rest,
    compile Builtins.ticking.names "main" tickedSums #[] = .ok c log ∧
    (run .ticking {} false tickedSums).result = .ok (.int 9) ∧
    (run .ticking {} false tickedSums).machine.ticks = #["tick 1", "tick 2"] ∧
    Shares none (start .ticking false log c.term) tickedBlock n "a" rest
      (.app (.var "tick") (.var "x")) ∧
    OwnsAll none (start .ticking false log c.term) tickedBlock n "a" rest
      (.app (.var "tick") (.var "x")) := by
  have hfacts : (value? (compile Builtins.ticking.names "main" tickedSums #[])).bind (fun c =>
      c.resolution.program.defs[0]?.bind fun f => f.body.block?.bind fun q => q.1[0]?.bind fun d =>
        (c.resolution.tree.ownerOf? d.ann.scope).map fun b =>
          (d.name.name, (c.resolution.classify.flags b.id).isRecursive,
            [d.params.length, d.body.names.count "tick"],
            [d.body, .letIn q.1 q.2.1 q.2.2].map fun e =>
              value? (c.resolution.context.expression e #[])))
      = some ("a", false, [0, 1], [some (.app (.var "tick") (.var "x")), some tickedBlock]) := by
    decide +kernel
  obtain ⟨c, hc, hfacts⟩ := Option.bind_eq_some_iff.1 hfacts
  obtain ⟨f, hf, hfacts⟩ := Option.bind_eq_some_iff.1 hfacts
  obtain ⟨q, hq, hfacts⟩ := Option.bind_eq_some_iff.1 hfacts
  obtain ⟨d, hd, hfacts⟩ := Option.bind_eq_some_iff.1 hfacts
  obtain ⟨b, hb, hfacts⟩ := Option.map_eq_some_iff.1 hfacts
  simp only [Prod.mk.injEq, List.map_cons, List.map_nil, List.cons.injEq, and_true] at hfacts
  obtain ⟨hname, hplain, ⟨hparams, hticks⟩, hcode, hblock⟩ := hfacts
  obtain ⟨log, hc⟩ := value?_eq_some.1 hc
  obtain ⟨_, hcode⟩ := value?_eq_some.1 hcode
  obtain ⟨_, hblock⟩ := value?_eq_some.1 hblock
  have hbinds : d.isDiscard = false := by
    rw [Definition.isDiscard, hname]
    decide
  have hwithin : (Expr.letIn q.1 q.2.1 q.2.2).Within f.body := Expr.block?_eq_some hq ▸ .refl
  obtain ⟨-, n, rest, hshares, hownsAll⟩ := binding_shared {} false hc
    (.letIn (List.mem_of_getElem? hf) hwithin rfl ⟨_, _, hblock⟩) (List.mem_of_getElem? hd)
    hbinds (List.length_eq_zero_iff.1 hparams) ⟨b, hb, rfl⟩ hplain ⟨_, _, hcode⟩
  refine ⟨c, log, n, rest, hc, by decide +kernel, by decide +kernel, hname ▸ hshares, ?_⟩
  exact hname ▸ hownsAll (by decide) (hticks ▸ by decide +kernel)

/-- `a = if 1 then tick 1 else b`, `b = a` and `main = + a a`. -/
def mutualValues : Program Span where
  defs :=
    [⟨⟨"a", .nowhere⟩, [],
      .ite (.int 1 .nowhere) (.call (.ident ⟨"tick", .nowhere⟩) (.int 1 .nowhere) .nowhere)
        (.ident ⟨"b", .nowhere⟩) .nowhere, .nowhere⟩,
     ⟨⟨"b", .nowhere⟩, [], .ident ⟨"a", .nowhere⟩, .nowhere⟩,
     ⟨⟨"main", .nowhere⟩, [],
      .callAll (.ident ⟨"+", .nowhere⟩) [.ident ⟨"a", .nowhere⟩, .ident ⟨"a", .nowhere⟩] .nowhere,
      .nowhere⟩]
  ann := .nowhere

/-- `a = if tick 1 then \n -> if n then a (- n 1) else n else a` and `main = a 2`. -/
def selfValue : Program Span where
  defs :=
    [⟨⟨"a", .nowhere⟩, [],
      .ite (.call (.ident ⟨"tick", .nowhere⟩) (.int 1 .nowhere) .nowhere)
        (.lam [⟨"n", .nowhere⟩]
          (.ite (.ident ⟨"n", .nowhere⟩)
            (.call (.ident ⟨"a", .nowhere⟩)
              (.callAll (.ident ⟨"-", .nowhere⟩) [.ident ⟨"n", .nowhere⟩, .int 1 .nowhere]
                .nowhere) .nowhere)
            (.ident ⟨"n", .nowhere⟩) .nowhere) .nowhere)
        (.ident ⟨"a", .nowhere⟩) .nowhere, .nowhere⟩,
     ⟨⟨"main", .nowhere⟩, [],
      .call (.ident ⟨"a", .nowhere⟩) (.int 2 .nowhere) .nowhere, .nowhere⟩]
  ann := .nowhere

/-- A definition without parameters is evaluated more than once if it is recursive, through a group
or by itself.  A program is entered once. -/
theorem recursive_not_shared :
    (run .ticking {} false mutualValues).result = .ok (.int 2) ∧
    (run .ticking {} false mutualValues).machine.ticks = #["tick 1", "tick 1"] ∧
    (run .ticking {} false selfValue).result = .ok (.int 0) ∧
    (run .ticking {} false selfValue).machine.ticks = #["tick 1", "tick 1", "tick 1"] := by
  refine ⟨?_, ?_, ?_, ?_⟩ <;> decide +kernel

end Letrec
