import Mathlib
import Letrec.Compilation
import Letrec.Proofs.Meaning
import Letrec.Proofs.Passing.Completeness

/-!
# An operation that returns its argument unforced

An operation may return its argument as it stands.  Such an operation is almost the identity
function.  The machine takes what the operation returns for a value, so evaluation may end with a
thunk (`raw_not_identity`).  If it is then forced, and again until it is no thunk, the end is the
one that the program has with the identity function in place of the operation, unless an operation
that wants an integer has found a thunk in its place (`raw_delivers`).
-/

namespace Letrec

/-! ### Ends of runs -/

/-- A function or a builtin operation. -/
def Term.IsFunction : Term → Prop
  | closure _ | builtin _ => True
  | _ => False

/-- The run ends with this integer, with a function, or with an error of this kind. -/
def EndsAs : Except EvalError.Kind (Option Int64) → EStateM.Result Halt Machine Term → Prop
  | .ok (some i), s => ∃ m, s = .ok (.int i) m
  | .ok none, s => ∃ v m, s = .ok v m ∧ v.IsFunction
  | .error k, s => ∃ e m, s = .error (.failed e) m ∧ e.kind = k

/-- The run ends with an error about a thunk that was found in place of an integer. -/
def Stalled (s : EStateM.Result Halt Machine Term) : Prop :=
  ∃ e m, s = .error (.failed e) m ∧ e.FoundThunk

/-- The end of a run without a limit on the nesting, if what it returns is forced until it is no
thunk. -/
inductive Delivers : Term → Env → Machine → EStateM.Result Halt Machine Term → Prop
  | ends {t env m n s} : evaluate none n t env m = s → EvalM.Finished EvalM.OutOfFuel s →
      (∀ a m', s ≠ .ok (.thunk a) m') → Delivers t env m s
  | thunk {t env m n a m' s} : evaluate none n t env m = .ok (.thunk a) m' →
      Delivers (.thunk a) [] m' s → Delivers t env m s

namespace ByName

/-- What is said of an answer by name: an integer, a function, or the kind of an error. -/
def shape (r : Except EvalError Object) : Except EvalError.Kind (Option Int64) :=
  (r.map fun o => o.int?.toOption).mapError EvalError.kind

/-- Without operations that pass their argument on, the machine ends as evaluation by name. -/
lemma endsAs_iff {W : World} {m : Machine} (hW : W.Describes m.heap) {env : Letrec.Env} {ρ : Env}
    (henv : W.DenotesEnv env ρ) {t : Term} (ht : t.Lowered)
    {r : Except EvalError.Kind (Option Int64)} :
    (∃ n, EndsAs r (Letrec.evaluate none n t env m)) ↔ ∃ r', Evaluates t ρ r' ∧ shape r' = r := by
  constructor
  · rintro ⟨n, hn⟩
    obtain ⟨hok, herror, -⟩ := evaluates_of_evaluate (n := n) hW henv ht
    match r, hn with
    | .ok (some i), ⟨m', hv⟩ =>
      obtain ⟨w, hw, hshown, -⟩ := hok _ m' hv
      obtain rfl := Object.shown?_eq_int hshown.symm
      exact ⟨_, hw, rfl⟩
    | .ok none, ⟨v, m', hv, hfun⟩ =>
      obtain ⟨w, hw, hshown, -⟩ := hok v m' hv
      refine ⟨_, hw, ?_⟩
      cases w with
      | int i =>
        obtain rfl := shown?_eq_int hshown
        exact hfun.elim
      | _ => rfl
    | .error k, ⟨e, m', he, hk⟩ => exact ⟨_, herror e m' he, congrArg _ hk⟩
  · rintro ⟨r', hr', rfl⟩
    obtain ⟨n, ⟨v, m', w, hv, rfl, hshown, hsome⟩ | ⟨e, m', he, rfl⟩⟩ :=
      evaluate_of_evaluates hW henv ht hr'
    · refine ⟨n, ?_⟩
      cases w with
      | int i =>
        obtain rfl := shown?_eq_int hshown
        exact ⟨m', hv⟩
      | pair u ρ' => exact absurd hsome (by simp [Object.shown?])
      | _ =>
        refine ⟨v, m', hv, ?_⟩
        cases v <;> simp_all [shown?, Object.shown?, Term.IsFunction]
    · exact ⟨n, e, m', he, rfl⟩

namespace Passing

open EvalM

section Delivers

variable {W : World} {m : Machine}

lemma thunk_simulates (n : ℕ) (hW : Describes W m.heap) {a : Addr} {o : Object}
    (ha : W (.thunk a) = some o) (env : Letrec.Env) :
    Simulates W m (Letrec.evaluate none n (.thunk a) env) fun k => force (evaluate k) o := by
  cases n with
  | zero => exact .outOfFuel
  | succ n =>
    refine Ensures.nested (p := Reached W fun k => force (evaluate k) o)
      (fun _ hl => absurd hl (by simp)) fun m' hm' => ?_
    rw [← hm'] at hW
    exact forceThunk_simulates (evaluate_sound n) hW ha

lemma thunk_finishes {k : ℕ} (hW : Describes W m.heap) {a : Addr} {o : Object}
    (ha : W (.thunk a) = some o) (env : Letrec.Env) {r : Except EvalError Object}
    (hr : (force (evaluate k) o).Gives r) :
    Finishes (fun n => Letrec.evaluate none n (.thunk a) env) m := by
  refine .of_succ (.nested ?_)
  exact forceThunk_finishes
    (m := { m with depth := m.depth + 1, peak := max m.peak (m.depth + 1) })
    (finishes_of_gives k) hW ha hr

/-- The end is the answer of the computations that the run leads to. -/
lemma stalled_or_endsAs {t : Term} {env : Letrec.Env} {s : EStateM.Result Halt Machine Term}
    (h : Delivers t env m s) {x : ℕ → Answer}
    (hx : ∀ n, Simulates W m (Letrec.evaluate none n t env) x) :
    Stalled s ∨ ∃ r, Yields x r ∧ EndsAs (shape r) s := by
  induction h generalizing W x with
  | @ends t env m n s heval hfinished hthunk =>
    obtain ⟨hok, herror, hmissing⟩ := ensures_iff.1 (hx n)
    subst heval
    cases hs : Letrec.evaluate none n t env m with
    | ok v m' =>
      obtain ⟨W', o, -, hW', hv, hleads⟩ := hok v m' hs
      rcases hW'.isValue_or hv with hval | ⟨a, u, ρ, rfl, rfl⟩
      · refine Or.inr ⟨_, hleads.yields _ (forces_self hval), ?_⟩
        cases hW'.object v o hv with
        | int i => exact ⟨m', rfl⟩
        | closure => exact ⟨_, m', rfl, trivial⟩
        | builtin => exact ⟨_, m', rfl, trivial⟩
        | raw => exact ⟨_, m', rfl, trivial⟩
        | thunk => exact hval.elim
      · exact absurd hs (hthunk a m')
    | error e m' =>
      cases e with
      | failed e =>
        rcases herror e m' hs with hfound | ⟨e', hk, he⟩
        · exact Or.inl ⟨e, m', rfl, hfound⟩
        · exact Or.inr ⟨_, he, e, m', rfl, hk.symm⟩
      | missingOperand => exact absurd hs (hmissing m')
      | outOfFuel => exact absurd rfl (hfinished _ m' hs)
  | @thunk t env m n a m' s heval _ ih =>
    obtain ⟨W', o, -, hW', ha, hleads⟩ := (hx n).reached heval
    refine (ih fun n => thunk_simulates n hW' ha []).imp_right ?_
    exact fun ⟨r, hr, hs⟩ => ⟨r, hleads.yields r hr, hs⟩

lemma exists_delivers_or_thunk {t : Term} {env : Letrec.Env}
    (h : Finishes (fun n => Letrec.evaluate none n t env) m) :
    (∃ s, Delivers t env m s) ∨ ∃ n a m', Letrec.evaluate none n t env m = .ok (.thunk a) m' := by
  obtain ⟨n, hn⟩ := h
  by_cases hthunk : ∃ a m', Letrec.evaluate none n t env m = .ok (.thunk a) m'
  · exact Or.inr ⟨n, hthunk⟩
  · exact Or.inl ⟨_, .ends rfl hn fun a m' heq => hthunk ⟨a, m', heq⟩⟩

/-- Where the computations end, forcing comes to an end: every thunk that is handed on takes a
smaller bound. -/
lemma exists_delivers {k : ℕ} {t : Term} {env : Letrec.Env} {x : ℕ → Answer} (hgrows : Growing x)
    (hx : ∀ n, Simulates W m (Letrec.evaluate none n t env) x)
    (hfinishes : Finishes (fun n => Letrec.evaluate none n t env) m)
    {r : Except EvalError Object} (hr : (x k).Gives r) : ∃ s, Delivers t env m s := by
  induction k generalizing W m t env x with
  | zero =>
    rcases exists_delivers_or_thunk hfinishes with hs | ⟨n, a, m', hthunk⟩
    · exact hs
    · obtain ⟨W', o, -, hW', ha, hleads⟩ := (hx n).reached hthunk
      obtain ⟨c, ρ, -, rfl, -⟩ := hW'.thunk ha
      exact absurd (hleads.gives 0 r (hgrows (Nat.le_succ 0) r hr)) Partial.never_gives
  | succ k ih =>
    rcases exists_delivers_or_thunk hfinishes with hs | ⟨n, a, m', hthunk⟩
    · exact hs
    · obtain ⟨W', o, -, hW', ha, hleads⟩ := (hx n).reached hthunk
      have hr' := hleads.gives k r hr
      obtain ⟨s, hs⟩ := ih (force_growing o) (fun n => thunk_simulates n hW' ha [])
        (thunk_finishes hW' ha [] hr') hr'
      exact ⟨s, .thunk hthunk hs⟩

end Delivers

/-- The machine delivers what computations end to which every run of it leads. -/
lemma delivers_iff {W : World} {m : Machine} {t : Term} {env : Letrec.Env} {x : ℕ → Answer}
    (hgrows : Growing x) (hx : ∀ n, Simulates W m (Letrec.evaluate none n t env) x)
    (hfinishes : ∀ r, Yields x r → Finishes (fun n => Letrec.evaluate none n t env) m) :
    (∀ s, Delivers t env m s → Stalled s ∨ ∃ r, Yields x r ∧ EndsAs (shape r) s) ∧
      ∀ r, Yields x r → ∃ s, Delivers t env m s ∧ (Stalled s ∨ EndsAs (shape r) s) := by
  refine ⟨fun s hs => stalled_or_endsAs hs hx, fun r hr => ?_⟩
  obtain ⟨k, hk⟩ := hr
  obtain ⟨s, hs⟩ := exists_delivers hgrows hx (hfinishes r ⟨k, hk⟩) hk
  refine ⟨s, hs, (stalled_or_endsAs hs hx).imp_right ?_⟩
  rintro ⟨r', hr', hends⟩
  rwa [Yields.unique hgrows ⟨k, hk⟩ hr']

end Passing

end ByName

/-! ### The operation and the identity function -/

/-- The standard operations and one that returns its argument unforced. -/
def Builtins.withRaw : Builtins := standard.insert "raw" 1 (Probe.op "raw" .raw)

/-- `\x. x`. -/
def Closure.identity : Closure := { param := "x", body := .var "x", env := [] }

/-- The standard operations and the identity function. -/
def Heap.withIdentity : Heap := Builtins.standard.heap.pushClosure .identity

/-- The standard operations under their names, and the identity function under the name of the
operation that returns its argument. -/
def Env.withIdentity : Env := Builtins.standard.env.extend "raw" (.closure 0)

section Identity

open ByName

lemma Builtins.heap_withRaw :
    Builtins.withRaw.heap = Builtins.standard.heap.pushBuiltin Passing.raw := rfl

lemma Builtins.env_withRaw : Builtins.withRaw.env
    = Builtins.standard.env.extend "raw" (.builtin Builtins.standard.heap.builtins.size) := by
  cbv

/-- The standard operations and the identity function, by name. -/
def ByName.withIdentity : ByName.Env :=
  ("raw", .closure "x" (.var "x") []) :: ByName.standard

lemma describes_withRaw : ∃ W : World, Passing.Describes W Builtins.withRaw.heap ∧
    W.DenotesEnv Builtins.withRaw.env ByName.withIdentity := by
  have hstandard : Passing.Describes (World.ofHeap Builtins.standard.heap)
      Builtins.standard.heap := by
    have hW := World.describes_ofHeap Builtins.standard.heap
    refine ⟨hW.int, fun t o ho => ?_⟩
    cases hW.object t o ho with
    | int v => exact .int v
    | closure hc hb henv => exact .closure hc hb henv
    | builtin hb hargs => exact .builtin hb hargs
    | thunk hc => exact absurd hc (by simp [Builtins.heap])
  obtain ⟨W, hgrows, hW, hnew⟩ := hstandard.pushRaw "x" []
  refine ⟨W, Builtins.heap_withRaw ▸ hW, ?_⟩
  rw [Builtins.env_withRaw]
  exact (denotesEnv_standard.mono hgrows).extend "raw" (.object hnew)

lemma describes_withIdentity : ∃ W : World, W.Describes Heap.withIdentity ∧
    W.DenotesEnv Env.withIdentity ByName.withIdentity := by
  have hnil : (World.ofHeap Builtins.standard.heap).DenotesEnv [] [] := .nil
  obtain ⟨W, hgrows, hW, hnew⟩ := (World.describes_ofHeap Builtins.standard.heap).pushClosure
    (x := "x") (b := .var "x") trivial hnil
  refine ⟨W, hW, (denotesEnv_standard.mono hgrows).extend "raw" (.object ?_)⟩
  exact hnew

/-- Over the standard operations and one that returns its argument unforced, let a program be
evaluated, and what it returns be forced until it is no thunk.  Unless this ends with an error about
a thunk, it ends as the program does with the identity function in place of the operation: with the
same integer, with a function, or with an error of the same kind.  And it ends wherever the program
does with the identity function. -/
theorem raw_delivers {p : Program Span} {entry : String} {c : Compiled} {log log' : Array Event}
    (h : compile Builtins.withRaw.names entry p log = .ok c log') {m m' : Machine}
    (hm : m.heap = Builtins.withRaw.heap) (hm' : m'.heap = Heap.withIdentity) :
    (∀ s, Delivers c.term Builtins.withRaw.env m s →
      Stalled s ∨ ∃ r n, EndsAs r s ∧ EndsAs r (evaluate none n c.term Env.withIdentity m')) ∧
    ∀ r n, EndsAs r (evaluate none n c.term Env.withIdentity m') →
      ∃ s, Delivers c.term Builtins.withRaw.env m s ∧ (Stalled s ∨ EndsAs r s) := by
  have hif : "if" ∈ Builtins.withRaw.names := List.mem_of_getElem? (i := 11) rfl
  have heq : "==" ∈ Builtins.withRaw.names := List.mem_of_getElem? (i := 8) rfl
  have ht := (compile_closed h hif heq).lowered
  obtain ⟨W, hW, henv⟩ := describes_withRaw
  obtain ⟨W', hW', henv'⟩ := describes_withIdentity
  rw [← hm] at hW
  rw [← hm'] at hW'
  obtain ⟨hsound, hcomplete⟩ := Passing.delivers_iff (evaluate_growing c.term ByName.withIdentity)
    (fun n => (Passing.evaluate_sound n).lowered hW henv ht)
    fun r ⟨k, hk⟩ => Passing.finishes_of_gives k hk hW henv ht
  constructor
  · intro s hs
    refine (hsound s hs).imp_right ?_
    rintro ⟨r, hr, hends⟩
    obtain ⟨n, hn⟩ := (endsAs_iff hW' henv' ht).2 ⟨r, hr, rfl⟩
    exact ⟨_, n, hends, hn⟩
  · intro r n hn
    obtain ⟨r, hr, rfl⟩ := (endsAs_iff hW' henv' ht).1 ⟨n, hn⟩
    exact hcomplete r hr

end Identity

/-- `main = f (1 + 2)`, for any function. -/
def appliedToSum (f : Expr Span) : Program Span where
  defs :=
    [⟨⟨"main", .nowhere⟩, [],
      .call f
        (.callAll (.ident ⟨"+", .nowhere⟩) [.int 1 .nowhere, .int 2 .nowhere] .nowhere) .nowhere,
      .nowhere⟩]
  ann := .nowhere

theorem raw_delivers_sum : ∃ c log,
    compile Builtins.withRaw.names "main" (appliedToSum (.ident ⟨"raw", .nowhere⟩)) #[]
      = .ok c log ∧
    EndsAs (.ok (some 3))
      (evaluate none 20 c.term Env.withIdentity { heap := Heap.withIdentity }) ∧
    ∃ s, Delivers c.term Builtins.withRaw.env { heap := Builtins.withRaw.heap } s ∧
      (Stalled s ∨ EndsAs (.ok (some 3)) s) := by
  have hthree : ((value? (compile Builtins.withRaw.names "main"
      (appliedToSum (.ident ⟨"raw", .nowhere⟩)) #[])).bind fun c =>
      value? (evaluate none 20 c.term Env.withIdentity { heap := Heap.withIdentity }))
      = some (.int 3) := by
    decide +kernel
  obtain ⟨c, hc, hthree⟩ := Option.bind_eq_some_iff.1 hthree
  obtain ⟨log, hc⟩ := value?_eq_some.1 hc
  have hends : EndsAs (.ok (some 3))
      (evaluate none 20 c.term Env.withIdentity { heap := Heap.withIdentity }) :=
    value?_eq_some.1 hthree
  exact ⟨c, log, hc, hends, (raw_delivers hc rfl rfl).2 _ 20 hends⟩

/-- `\x -> x`. -/
def identityFunction : Expr Span := .lam [⟨"x", .nowhere⟩] (.ident ⟨"x", .nowhere⟩) .nowhere

theorem raw_not_identity :
    (∃ a, (run .withRaw {} false (appliedToSum (.ident ⟨"raw", .nowhere⟩))).result
      = .ok (.thunk a)) ∧
    (run .withRaw {} false (appliedToSum identityFunction)).result = .ok (.int 3) := by
  constructor
  · refine ⟨1, ?_⟩
    decide +kernel
  · decide +kernel

end Letrec
