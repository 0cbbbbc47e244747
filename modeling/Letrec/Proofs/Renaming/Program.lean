import Mathlib
import Letrec.Proofs.Renaming.Lowering
import Letrec.Proofs.Unlimited

/-!
# Names do not matter

A parameter or a definition may be given any name that the program does not use: as long as neither
name is made up by lowering, the program still runs to the same integer, or it is refused or fails
with an error of the same kind (`rename_invariant`).

The names that lowering makes up are ordinary names to the resolver.  A parameter with the name of
such a variable catches it, so there the law fails (`rename_captures`).
-/

namespace Letrec

/-! ### Kinds of failures -/

/-- What goes wrong in resolution, without the particulars. -/
inductive ResolveError.Kind where
  | duplicateBinding | unboundIdentifier
deriving DecidableEq, Repr

/-- The kind of an error. -/
def ResolveError.kind : ResolveError → ResolveError.Kind
  | .duplicateBinding .. => .duplicateBinding
  | .unboundIdentifier .. => .unboundIdentifier

/-- What goes wrong in lowering, without the particulars. -/
inductive LowerError.Kind where
  | missingMain | unboundIdentifier | unknownDefinition | emptyGroup
deriving DecidableEq, Repr

/-- The kind of an error. -/
def LowerError.kind : LowerError → LowerError.Kind
  | .missingMain .. => .missingMain
  | .unboundIdentifier .. => .unboundIdentifier
  | .unknownDefinition .. => .unknownDefinition
  | .emptyGroup _ => .emptyGroup

/-- What goes wrong with a program, without the particulars. -/
inductive Failure.Kind where
  | resolve (k : ResolveError.Kind)
  | lower (k : LowerError.Kind)
  | eval (k : EvalError.Kind)
deriving DecidableEq, Repr

/-- The outcome is this integer, or a failure of this kind. -/
def Outcome.EndsAs (o : Outcome) : Except Failure.Kind Int64 → Prop
  | .ok v => o.Returns (.ok v)
  | .error (.resolve k) => ∃ e, o.result = .error (.resolve (.error e)) ∧ e.kind = k
  | .error (.lower k) => ∃ e, o.result = .error (.lower e) ∧ e.kind = k
  | .error (.eval k) => o.Returns (.error k)

/-- A program that lowering refuses ends with the error of lowering, within every bound. -/
lemma endsAs_refused_iff {bs : Builtins} {entry : String} {tracing : Bool} {p : Program Span}
    {e : LowerError} {log : Array Event}
    (h : compile bs.names entry p #[] = .error (.lower e) log) (n : ℕ)
    {verdict : Except Failure.Kind Int64} :
    (runWithin n bs entry tracing p).EndsAs verdict ↔ verdict = .error (.lower e.kind) := by
  have hresult : (runWithin n bs entry tracing p).result = .error (.lower e) := by
    have hlog : (Machine.ofBuiltins bs tracing).log = #[] := rfl
    simp only [runWithin, hlog, h]
  cases verdict with
  | ok v => simp [Outcome.EndsAs, Outcome.Returns, hresult]
  | error k =>
    cases k with
    | resolve k => simp [Outcome.EndsAs, hresult]
    | lower k => simp [Outcome.EndsAs, hresult, eq_comm]
    | eval k => simp [Outcome.EndsAs, Outcome.Returns, hresult]

/-- A program that compiles is not refused. -/
lemma endsAs_compiled {bs : Builtins} {entry : String} {tracing : Bool} {p : Program Span}
    {c : Compiled} {log : Array Event} (h : compile bs.names entry p #[] = .ok c log) {n : ℕ}
    {verdict : Except Failure.Kind Int64}
    (hends : (runWithin n bs entry tracing p).EndsAs verdict) :
    (∃ v, verdict = .ok v) ∨ ∃ k, verdict = .error (.eval k) := by
  have hresult : ∀ f, (runWithin n bs entry tracing p).result = .error f → ∃ o, f = .eval o := by
    intro f hf
    have hlog : (Machine.ofBuiltins bs tracing).log = #[] := rfl
    simp only [runWithin, hlog, h] at hf
    split at hf
    · exact absurd hf (by simp)
    · exact ⟨_, (Except.error.inj hf).symm⟩
  cases verdict with
  | ok v => exact Or.inl ⟨v, rfl⟩
  | error k =>
    cases k with
    | resolve k =>
      obtain ⟨e, he, -⟩ := hends
      obtain ⟨o, ho⟩ := hresult _ he
      exact absurd ho (by simp)
    | lower k =>
      obtain ⟨e, he, -⟩ := hends
      obtain ⟨o, ho⟩ := hresult _ he
      exact absurd ho (by simp)
    | eval k => exact Or.inr ⟨k, rfl⟩

/-! ### Compiled programs -/

lemma ByName.envAlpha_standard : EnvAlpha (· = ·) standard standard where
  bound := by
    rintro z _ rfl
    rfl
  objects := by
    rintro z _ o o' rfl ho ho'
    obtain rfl := Option.some.inj (ho.symm.trans ho')
    have hmem := mem_of_lookup_eq_some ho
    rw [standard, List.mem_reverse, List.mem_map] at hmem
    obtain ⟨p, -, hp⟩ := hmem
    obtain ⟨rfl, rfl⟩ := Prod.mk.inj hp
    exact .builtin p .nil

/-- A program whose term differs only in the names of variables ends as the program does. -/
lemma endsAs_of_alpha {entry : String} {p p' : Program Span} {c c' : Compiled}
    {log log' : Array Event} (h : compile Builtins.standard.names entry p #[] = .ok c log)
    (h' : compile Builtins.standard.names entry p' #[] = .ok c' log')
    (hterm : c.term.Alpha (· = ·) c'.term) {tracing : Bool} {verdict : Except Failure.Kind Int64}
    (hends : ∃ n, (runWithin n .standard entry tracing p).EndsAs verdict) :
    ∃ n, (runWithin n .standard entry tracing p').EndsAs verdict := by
  obtain ⟨n, hn⟩ := hends
  rcases endsAs_compiled h hn with ⟨v, rfl⟩ | ⟨k, rfl⟩
  · refine (exists_returns_ok_iff h' tracing).2 ?_
    exact ByName.evaluates_int_of_alpha hterm ByName.envAlpha_standard
      ((exists_returns_ok_iff h tracing).1 ⟨n, hn⟩)
  · refine (exists_returns_error_iff h' tracing).2 ?_
    obtain ⟨e, rfl, he⟩ := (exists_returns_error_iff h tracing).1 ⟨n, hn⟩
    exact ByName.evaluates_error_of_alpha hterm ByName.envAlpha_standard he

/-- A program that resolves is refused by lowering, or it compiles to what it is lowered to. -/
lemma compile_cases_of_resolve {names : List String} {p : Program Span} {r : Resolution}
    {log log₁ : Array Event} (h : resolve names 0 p log = .ok r log₁) (entry : String) :
    ∃ log₂, (∃ e l, r.lower r.classify entry log₂ = .error e l ∧
        compile names entry p log = .error (.lower e) l) ∨
      ∃ t l l', r.lower r.classify entry log₂ = .ok t l ∧
        compile names entry p log = .ok ⟨r, r.classify, t⟩ l' := by
  rcases compile_cases names entry p log with ⟨_, _, herror, -⟩ | ⟨r', _, log₂, hr', hlower⟩
  · exact absurd (h.symm.trans herror) (by simp)
  · obtain ⟨rfl, -⟩ := EStateM.Result.ok.inj (h.symm.trans hr')
    exact ⟨log₂, hlower⟩

/-! ### Renamed programs -/

namespace Renaming

variable {ν : Renaming} {names : List String} {r : Resolution} {ids ids' : List DispatchId}
  {entry : String}

/-- Lowering accepts the renamed program just if it accepts the program, and else it refuses both
for the same kind of error. -/
lemma lower_alike (hr : r.WellScoped names ids) (hr' : (ν.resolution r).WellScoped names ids')
    (hs : ν.Suits r) (hentry : ν.scope = r.program.ann.scope → ν.name ≠ entry ∧ ν.fresh ≠ entry)
    (log log' : Array Event) :
    (∃ t t' l l', r.lower r.classify entry log = .ok t l ∧
      (ν.resolution r).lower (ν.resolution r).classify entry log' = .ok t' l') ∨
    ∃ e e' l l', r.lower r.classify entry log = .error e l ∧
      (ν.resolution r).lower (ν.resolution r).classify entry log' = .error e' l' ∧
      e.kind = e'.kind := by
  have hbound : entry ∈ boundNames (ν.resolution r).program.defs ↔
      entry ∈ boundNames r.program.defs := by
    show entry ∈ boundNames (r.program.defs.map _) ↔ _
    simp only [mem_boundNames, List.mem_map, exists_exists_and_eq_and]
    refine exists_congr fun d => and_congr_right fun hd => ?_
    obtain ⟨id, hid⟩ := exists_mem_zip_of_mem_right hr.program_group.length hd
    rw [name_eq_entry_iff hr hentry hid, hs.isDiscard_rename]
  have hlive : liveIdentsOfDefs (ν.resolution r).program.defs
      = (liveIdentsOfDefs r.program.defs).map (Ident.rename (ν.use r.tree)) := by
    show liveIdentsOfDefs (r.program.defs.map _) = _
    rw [← renameDefs_eq_map, liveIdentsOfDefs_rename]
    exact fun i => hs.binds.isDiscard_bound _ _
  have hdenotes : ∀ i ∈ liveIdentsOfDefs r.program.defs,
      (ν.resolution r).tree.denotes (i.rename (ν.use r.tree)) = r.tree.denotes i := by
    intro i hi
    have hmem := (liveIdentsOfDefs_sublist r.program.defs).subset hi
    obtain ⟨d, hd, hi⟩ := mem_identsOfDefs.1 hmem
    refine denotes_use hs.unbound hs.ne fun heq => hs.unused ?_
    rw [← heq]
    exact mem_namesOfDefs.2 ⟨d, hd, Or.inr (List.mem_append_right _ (mem_names_of_mem_idents hi))⟩
  rcases lower_cases hr entry with ⟨hnone, hthrow⟩ | ⟨hsome, hmeets⟩
  · rcases lower_cases hr' entry with ⟨-, hthrow'⟩ | ⟨hsome', -⟩
    · rw [hthrow, hthrow']
      exact Or.inr ⟨_, _, _, _, rfl, rfl, rfl⟩
    · exact absurd (hbound.1 hsome') hnone
  · rcases lower_cases hr' entry with ⟨hnone', -⟩ | ⟨-, hmeets'⟩
    · exact absurd (hbound.2 hsome) hnone'
    rw [hlive] at hmeets'
    rcases hmeets log with ⟨t, l, hok, hall⟩ | ⟨i, hi, hnone, l, herror⟩
    · rcases hmeets' log' with ⟨t', l', hok', -⟩ | ⟨i, hi, hnone, -⟩
      · exact Or.inl ⟨t, t', l, l', hok, hok'⟩
      · obtain ⟨j, hj, rfl⟩ := List.mem_map.1 hi
        exact absurd ((hdenotes j hj).symm.trans hnone) (hall j hj)
    · rcases hmeets' log' with ⟨t', l', hok', hall⟩ | ⟨i', -, -, l', herror'⟩
      · exact absurd ((hdenotes i hi).trans hnone) (hall _ (List.mem_map_of_mem hi))
      · exact Or.inr ⟨_, _, l, l', herror, herror', rfl⟩

/-- Compilation accepts the renamed program just if it accepts the program, with a term that differs
only in the names of variables, and else it refuses both for the same kind of error. -/
lemma compile_alike {p p' : Program Span} {log log' : Array Event}
    (hresolve : resolve names 0 p #[] = .ok r log)
    (hresolve' : resolve names 0 p' #[] = .ok (ν.resolution r) log') (hs : ν.Suits r)
    (hentry : ν.scope = r.program.ann.scope → ν.name ≠ entry ∧ ν.fresh ≠ entry)
    (hscope : ν.scope ≠ ScopeTree.root) (hif : "if" ≠ ν.fresh) (heq : "==" ≠ ν.fresh) :
    (∃ c c' l l', compile names entry p #[] = .ok c l ∧ compile names entry p' #[] = .ok c' l' ∧
      c.term.Alpha (· = ·) c'.term) ∨
    ∃ e e' l l', compile names entry p #[] = .error (.lower e) l ∧
      compile names entry p' #[] = .error (.lower e') l' ∧ e.kind = e'.kind := by
  obtain ⟨-, ids, hr⟩ := resolve_wellScoped hresolve
  obtain ⟨-, ids', hr'⟩ := resolve_wellScoped hresolve'
  obtain ⟨log₁, hcompile⟩ := compile_cases_of_resolve hresolve entry
  obtain ⟨log₁', hcompile'⟩ := compile_cases_of_resolve hresolve' entry
  rcases lower_alike hr hr' hs hentry log₁ log₁' with
    ⟨t, t', l, l', hok, hok'⟩ | ⟨e, e', l, l', herror, herror', hkind⟩
  · rw [hok] at hcompile
    rw [hok'] at hcompile'
    obtain ⟨_, _, hne, -⟩ | ⟨_, _, l₂, heq₂, hc⟩ := hcompile
    · exact absurd hne (by simp)
    obtain ⟨_, _, hne, -⟩ | ⟨_, _, l₂', heq₂', hc'⟩ := hcompile'
    · exact absurd hne (by simp)
    obtain ⟨rfl, -⟩ := EStateM.Result.ok.inj heq₂
    obtain ⟨rfl, -⟩ := EStateM.Result.ok.inj heq₂'
    exact Or.inl ⟨_, _, l₂, l₂', hc, hc',
      alpha_lower hr hentry hr' hs hscope hif heq ⟨_, _, hok⟩ ⟨_, _, hok'⟩⟩
  · rw [herror] at hcompile
    rw [herror'] at hcompile'
    obtain ⟨_, l₂, heq₂, hc⟩ | ⟨_, _, _, hne, -⟩ := hcompile
    · obtain ⟨_, l₂', heq₂', hc'⟩ | ⟨_, _, _, hne, -⟩ := hcompile'
      · obtain ⟨rfl, -⟩ := EStateM.Result.error.inj heq₂
        obtain ⟨rfl, -⟩ := EStateM.Result.error.inj heq₂'
        exact Or.inr ⟨_, _, l₂, l₂', hc, hc', hkind⟩
      · exact absurd hne (by simp)
    · exact absurd hne (by simp)

end Renaming

/-- The names of parameters and definitions do not matter.  In a program that resolves, give one of
them, but not the entry point, a name that the program does not use and that is not that of a
builtin operation: if neither name is made up by lowering, the program runs to the same integer or
fails in the same way as before. -/
theorem rename_invariant {p : Program Span} {r : Resolution} {log : Array Event}
    (hresolve : resolve Builtins.standard.names 0 p #[] = .ok r log) {ν : Renaming} {e : Entry}
    (hbound : r.tree.entry? ν.scope ν.name = some e) (he : e ≠ .builtin) {entry : String}
    (hentry : ν.scope = r.program.ann.scope → ν.name ≠ entry ∧ ν.fresh ≠ entry)
    (hbinds : ν.Binds) (hp : ν.fresh ∉ p.names) (hnames : ν.fresh ∉ Builtins.standard.names)
    (hapart : ν.Apart) (tracing : Bool) (verdict : Except Failure.Kind Int64) :
    (∃ n, (runWithin n .standard entry tracing p).EndsAs verdict) ↔
      ∃ n, (runWithin n .standard entry tracing (ν.program r)).EndsAs verdict := by
  obtain ⟨rfl, ids, hr⟩ := resolve_wellScoped hresolve
  have hscope : ν.scope ≠ ScopeTree.root := by
    intro hroot
    rw [hroot, ScopeTree.entry_of_scope hr.root] at hbound
    obtain ⟨y, -, hy⟩ := List.mem_map.1 (mem_of_lookup_eq_some hbound)
    exact he (Prod.mk.inj hy).2.symm
  obtain ⟨hunbound, log', hresolve'⟩ :=
    Renaming.resolve_rename hbinds hscope hresolve hp hnames #[]
  have hs : ν.Suits r := by
    refine ⟨hbinds, hapart, fun heq => ?_, hunbound, by rwa [Program.names_map] at hp⟩
    rw [heq, hunbound] at hbound
    exact absurd hbound (by simp)
  rcases Renaming.compile_alike hresolve hresolve' hs hentry hscope
      (fun h => hnames (h ▸ by decide)) (fun h => hnames (h ▸ by decide)) with
    ⟨c, c', l, l', hc, hc', halpha⟩ | ⟨f, f', l, l', hc, hc', hkind⟩
  · refine ⟨endsAs_of_alpha hc hc' halpha, endsAs_of_alpha hc' hc (halpha.symm.mono ?_)⟩
    exact fun z z' _ hz => hz.symm
  · simp only [endsAs_refused_iff hc, endsAs_refused_iff hc', hkind]

/-- `f n = if n then (\fact -> * n fact) (f (- n 1)) else 1` and `main = f 3`, for any name of the
function. -/
def factorialAs (f : String) : Program Span where
  defs :=
    [⟨⟨f, .nowhere⟩, [⟨"n", .nowhere⟩],
      .ite (.ident ⟨"n", .nowhere⟩)
        (.call
          (.lam [⟨"fact", .nowhere⟩]
            (.callAll (.ident ⟨"*", .nowhere⟩)
              [.ident ⟨"n", .nowhere⟩, .ident ⟨"fact", .nowhere⟩] .nowhere) .nowhere)
          (.call (.ident ⟨f, .nowhere⟩)
            (.callAll (.ident ⟨"-", .nowhere⟩) [.ident ⟨"n", .nowhere⟩, .int 1 .nowhere] .nowhere)
            .nowhere) .nowhere)
        (.int 1 .nowhere) .nowhere, .nowhere⟩,
     ⟨⟨"main", .nowhere⟩, [], .call (.ident ⟨f, .nowhere⟩) (.int 3 .nowhere) .nowhere, .nowhere⟩]
  ann := .nowhere

/-- The function gets the name of a variable of the fixed-point combinator, and the parameter that
hides it keeps its name. -/
theorem rename_invariant_factorial : ∃ r log,
    resolve Builtins.standard.names 0 (factorialAs "fact") #[] = .ok r log ∧
    (⟨1, "fact", "x"⟩ : Renaming).program r = factorialAs "x" ∧
    ∃ n, (runWithin n .standard "main" false (factorialAs "x")).EndsAs (.ok 6) := by
  have hresolve : (value? (resolve Builtins.standard.names 0 (factorialAs "fact") #[])).map
      (fun r => (r.tree.entry? 1 "fact", (⟨1, "fact", "x"⟩ : Renaming).program r))
      = some (some (.binding 0), factorialAs "x") := by
    cbv
  obtain ⟨r, hr, hpair⟩ := Option.map_eq_some_iff.1 hresolve
  obtain ⟨hbound, hprogram⟩ := Prod.mk.inj hpair
  obtain ⟨log, hr⟩ := value?_eq_some.1 hr
  refine ⟨r, log, hr, hprogram, ?_⟩
  have hfirst : ∀ x, x.toList.head? ≠ some '<' → ¬ Generated x := fun x hx h => hx h.head?
  have hends : (runWithin 100 .standard "main" false (factorialAs "fact")).EndsAs (.ok 6) := by
    show (runWithin 100 .standard "main" false (factorialAs "fact")).result = .ok (.int 6)
    decide +kernel
  rw [← hprogram]
  exact (rename_invariant hr hbound (by decide) (fun _ => by decide) ⟨by decide, by decide⟩
    (by decide) (by decide) ⟨hfirst _ (by decide), hfirst _ (by decide)⟩ false (.ok 6)).1
    ⟨100, hends⟩

/-- `main = (\x -> if x then 1 else 2) 5`, for any name of the parameter. -/
def branchingAs (x : String) : Program Span where
  defs :=
    [⟨⟨"main", .nowhere⟩, [],
      .call
        (.lam [⟨x, .nowhere⟩]
          (.ite (.ident ⟨x, .nowhere⟩) (.int 1 .nowhere) (.int 2 .nowhere) .nowhere) .nowhere)
        (.int 5 .nowhere) .nowhere, .nowhere⟩]
  ann := .nowhere

/-- A parameter called `<if>` catches the variable of the conditional: the name occurs nowhere in
the program, but the renamed program fails. -/
theorem rename_captures : ∃ r log,
    resolve Builtins.standard.names 0 (branchingAs "x") #[] = .ok r log ∧
    r.tree.entry? 3 "x" = some .parameter ∧ "<if>" ∉ (branchingAs "x").names ∧
    "<if>" ∉ Builtins.standard.names ∧ "<if>" ≠ discard ∧
    (⟨3, "x", "<if>"⟩ : Renaming).program r = branchingAs "<if>" ∧
    (run .standard {} false (branchingAs "x")).EndsAs (.ok 1) ∧
    (run .standard {} false (branchingAs "<if>")).EndsAs (.error (.eval .notAFunction)) := by
  have hresolve : (value? (resolve Builtins.standard.names 0 (branchingAs "x") #[])).map
      (fun r => (r.tree.entry? 3 "x", (⟨3, "x", "<if>"⟩ : Renaming).program r))
      = some (some .parameter, branchingAs "<if>") := by
    rfl
  obtain ⟨r, hr, hpair⟩ := Option.map_eq_some_iff.1 hresolve
  obtain ⟨hbound, hprogram⟩ := Prod.mk.inj hpair
  obtain ⟨log, hr⟩ := value?_eq_some.1 hr
  have hfails : (run .standard {} false (branchingAs "<if>")).result
      = .error (.eval (.failed (.notAFunction "5"))) := by
    decide +kernel
  refine ⟨r, log, hr, hbound, by decide, by decide, by decide, hprogram, ?_, _, hfails, rfl⟩
  show (run .standard {} false (branchingAs "x")).result = .ok (.int 1)
  decide +kernel

end Letrec
