import Mathlib
import Letrec.Compilation
import Letrec.Proofs.Success
import Letrec.Proofs.Evaluation.Ensures

/-!
# Evaluation as a sequence of steps

The evaluator calls itself, so the states between its start and its end do not show.  Here they are
states of a machine with a stack: what is under way, what is waiting for it, and the heap with all
else that evaluation keeps.  `Config.next` makes one step, and a state has at most one successor.

What the evaluator answers is where the steps lead, unless it was cut short by its bound:
`evaluate_leads`.
-/

namespace Letrec

/-- What waits for a value. -/
inductive Frame where
  /-- An evaluation that is counted as under way. -/
  | leave
  /-- The argument of a call whose function is evaluated. -/
  | argument (arg : Term) (env : Env)
  /-- The argument of a call whose function is forced. -/
  | supply (arg : Term)
  /-- The memo cell of a thunk. -/
  | memoize (a : Addr)
  /-- A builtin operation that has forced a term. -/
  | resume (next : Term → Action)

/-- What is under way. -/
inductive Control where
  /-- A term is evaluated. -/
  | eval (t : Term) (env : Env)
  /-- A thunk is forced. -/
  | force (a : Addr)
  /-- A function is called. -/
  | call (f arg : Term)
  /-- A builtin operation acts. -/
  | perform (act : Action)
  /-- A value is handed to what waits for it. -/
  | value (v : Term)
  /-- What waits is given up. -/
  | fail (h : Halt)

/-- A state between two steps. -/
structure Config where
  /-- What is under way. -/
  control : Control
  /-- What waits for it, the innermost first. -/
  stack : List Frame
  /-- The heap, the depth, the records and the reports. -/
  machine : Machine

namespace Config

/-- Force a term that stands on its own. -/
def forcing : Term → Control
  | .thunk a => .force a
  | t => .eval t []

/-- The evaluation of a term has been counted. -/
def evaluating (t : Term) (env : Env) (K : List Frame) (m : Machine) : Config :=
  match t with
  | .int _ | .closure _ | .builtin _ => ⟨.value t, K, m⟩
  | .thunk a => ⟨.force a, K, m⟩
  | .lam x b =>
    let made := m.newClosure { param := x, body := b, env }
    ⟨.value made.1, K, made.2⟩
  | .var x =>
    match env.lookup? x with
    | some (.thunk a) => ⟨.force a, K, m⟩
    | some b => ⟨.eval b env, K, m⟩
    | none => ⟨.fail (.failed (.unboundVariable x)), K, m⟩
  | .app f a => ⟨.eval f env, .argument a env :: K, m⟩

/-- A builtin operation gets one more argument. -/
def supplying (a : Addr) (arg : Term) (K : List Frame) (m : Machine) : Config :=
  let b := m.heap.builtin a
  let all := b.supplied ++ [arg]
  if b.arity < all.length then
    ⟨.fail (.failed (.tooManyArguments b.name b.arity all.length)), K, m⟩
  else if all.length < b.arity then
    let made := m.newBuiltin { b with supplied := all }
    ⟨.value made.1, K, made.2⟩
  else
    ⟨.perform (b.op all), K, m.trace fun _ => .invoking b.name⟩

/-- A builtin operation acts. -/
def performing (act : Action) (K : List Frame) (m : Machine) : Config :=
  match act with
  | .done t => ⟨.value t, K, m⟩
  | .fail e => ⟨.fail (.failed e), K, m⟩
  | .missingOperand => ⟨.fail .missingOperand, K, m⟩
  | .force t next => ⟨forcing t, .resume next :: K, m⟩
  | .asInt t otherwise next =>
    match m.heap.asInt? t with
    | some i => ⟨.perform (next i), K, m⟩
    | none => ⟨.fail (.failed (otherwise (m.heap.text t))), K, m⟩
  | .record label t next => ⟨.perform next, K, m.record label t⟩

/-- An evaluation is no longer under way. -/
def left (m : Machine) : Machine := { m with depth := m.depth - 1 }

/-- A value is handed to what waits for it. -/
def returning (v : Term) (f : Frame) (K : List Frame) (m : Machine) : Config :=
  match f with
  | .leave => ⟨.value v, K, left m⟩
  | .argument arg env =>
    match EvalM.suspend arg env m with
    | .ok u m' => ⟨.call v u, K, m'⟩
    | .error h m' => ⟨.fail h, K, m'⟩
  | .supply arg => ⟨.call v arg, K, m⟩
  | .memoize a => ⟨.value (m.memoize a v).1, K, (m.memoize a v).2⟩
  | .resume next => ⟨.perform (next v), K, m⟩

/-- The next state, with a limit on the nesting of evaluations or none. -/
def next (limit : Option ℕ) : Config → Option Config
  | ⟨.eval t env, K, m⟩ =>
    match limit.filter (· ≤ m.depth) with
    | some l => some ⟨.fail (.failed (.recursionLimit l)), K, m⟩
    | none =>
      some (evaluating t env (.leave :: K)
        { m with depth := m.depth + 1, peak := max m.peak (m.depth + 1) })
  | ⟨.force a, K, m⟩ =>
    let c := m.heap.thunk a
    match c.memo with
    | some v => some ⟨.value v, K, m⟩
    | none =>
      some ⟨.eval c.term c.env, .memoize a :: K, m.trace fun h => .forcing a (h.text c.term)⟩
  | ⟨.call f arg, K, m⟩ =>
    match f with
    | .closure a =>
      let c := m.heap.closure a
      some ⟨.eval c.body (c.env.extend c.param arg), K, m⟩
    | .builtin a => some (supplying a arg K m)
    | .thunk a => some ⟨.force a, .supply arg :: K, m⟩
    | f => some ⟨.fail (.failed (.notAFunction (m.heap.text f))), K, m⟩
  | ⟨.perform act, K, m⟩ => some (performing act K m)
  | ⟨.value v, f :: K, m⟩ => some (returning v f K m)
  | ⟨.fail h, .leave :: K, m⟩ => some ⟨.fail h, K, left m⟩
  | ⟨.fail h, _ :: K, m⟩ => some ⟨.fail h, K, m⟩
  | ⟨.value _, [], _⟩ | ⟨.fail _, [], _⟩ => none

/-- One step. -/
def Steps (limit : Option ℕ) (s s' : Config) : Prop := s.next limit = some s'

/-- Any number of steps. -/
def Reaches (limit : Option ℕ) : Config → Config → Prop := Relation.ReflTransGen (Steps limit)

/-! ### Where the steps lead -/

variable {limit : Option ℕ} {s s' : Config} {K : List Frame} {m : Machine}

/-- The steps lead to the result of a computation and leave what waits for it, unless the
computation was cut short. -/
def Leads (limit : Option ℕ) (s : Config) (K : List Frame) :
    EStateM.Result Halt Machine Term → Prop
  | .ok v m => Reaches limit s ⟨.value v, K, m⟩
  | .error h m => h ≠ .outOfFuel → Reaches limit s ⟨.fail h, K, m⟩

lemma Leads.value (v : Term) : Leads limit ⟨.value v, K, m⟩ K (.ok v m) := .refl

lemma Leads.failed (h : Halt) : Leads limit ⟨.fail h, K, m⟩ K (.error h m) := fun _ => .refl

lemma Leads.of_reaches {r : EStateM.Result Halt Machine Term} (h : Reaches limit s s')
    (h' : Leads limit s' K r) : Leads limit s K r := by
  cases r with
  | ok v m => exact h.trans h'
  | error e m => exact fun he => h.trans (h' he)

lemma Leads.step {r : EStateM.Result Halt Machine Term} (h : s.next limit = some s')
    (h' : Leads limit s' K r) : Leads limit s K r :=
  .of_reaches (Relation.ReflTransGen.single h) h'

/-- A computation and what is done with its value by the frame that waits for it. -/
lemma Leads.bind {x : EvalM Term} {g : Term → EvalM Term} {f : Frame} (hf : f ≠ .leave)
    (hx : Leads limit s (f :: K) (x m))
    (hg : ∀ v m', Leads limit ⟨.value v, f :: K, m'⟩ K (g v m')) :
    Leads limit s K ((x >>= g) m) := by
  show Leads limit s K (EStateM.bind x g m)
  unfold EStateM.bind
  cases hxm : x m with
  | ok v m' =>
    rw [hxm] at hx
    exact .of_reaches hx (hg v m')
  | error h m' =>
    rw [hxm] at hx
    intro hh
    -- a frame that counts no evaluation just drops out
    refine (hx hh).tail ?_
    cases f with
    | leave => exact absurd rfl hf
    | _ => rfl

/-- An evaluation that is counted. -/
lemma Leads.nested {x : EvalM Term} {t : Term} {env : Env}
    (hx : ∀ m, Leads limit (evaluating t env (.leave :: K) m) (.leave :: K) (x m)) :
    Leads limit ⟨.eval t env, K, m⟩ K (EvalM.nested limit x m) := by
  unfold EvalM.nested
  cases hl : limit.filter (· ≤ m.depth) with
  | some l =>
    have hstep : next limit ⟨.eval t env, K, m⟩
        = some ⟨.fail (.failed (.recursionLimit l)), K, m⟩ := by
      rw [next, hl]
    exact .step hstep (.failed _)
  | none =>
    dsimp only
    generalize hm : ({ m with depth := m.depth + 1, peak := max m.peak (m.depth + 1) } : Machine)
      = m₁
    have hstep : next limit ⟨.eval t env, K, m⟩ = some (evaluating t env (.leave :: K) m₁) := by
      rw [next, hl, ← hm]
    have hrun := Leads.step hstep (hx m₁)
    cases hxm : x m₁ with
    | ok v m' =>
      rw [hxm] at hrun
      exact Relation.ReflTransGen.tail hrun rfl
    | error h m' =>
      rw [hxm] at hrun
      exact fun hh => Relation.ReflTransGen.tail (hrun hh) rfl

end Config

/-! ### The rules -/

namespace EvalM

open Config

variable {limit : Option ℕ}

/-- The steps lead to what the evaluator answers. -/
def LedBy (limit : Option ℕ) (ev : Evaluator) : Prop :=
  ∀ t env K m, Leads limit ⟨.eval t env, K, m⟩ K (ev t env m)

section Rules

variable {ev : Evaluator} (hev : LedBy limit ev) {K : List Frame} {m : Machine}

include hev

lemma forceThunk_leads (a : Addr) : Leads limit ⟨.force a, K, m⟩ K (forceThunk ev a m) := by
  cases hmemo : (m.heap.thunk a).memo with
  | some v =>
    have hforce : forceThunk ev a m = .ok v m := by
      simp [forceThunk, readHeap, bind, EStateM.bind, hmemo, pure, EStateM.pure]
    have hstep : next limit ⟨.force a, K, m⟩ = some ⟨.value v, K, m⟩ := by
      simp [next, hmemo]
    rw [hforce]
    exact .step hstep (.value v)
  | none =>
    have hforce : forceThunk ev a m = (ev (m.heap.thunk a).term (m.heap.thunk a).env >>=
        fun v => modifyGet (·.memoize a v))
          (m.trace fun h => .forcing a (h.text (m.heap.thunk a).term)) := by
      simp [forceThunk, readHeap, bind, EStateM.bind, hmemo, modify, modifyGet,
        MonadStateOf.modifyGet, EStateM.modifyGet]
    have hstep : next limit ⟨.force a, K, m⟩
        = some ⟨.eval (m.heap.thunk a).term (m.heap.thunk a).env, .memoize a :: K,
          m.trace fun h => .forcing a (h.text (m.heap.thunk a).term)⟩ := by
      simp [next, hmemo]
    rw [hforce]
    refine .step hstep (.bind (by simp) (hev _ _ _ _) fun v m' => ?_)
    exact .step rfl (.value _)

lemma force_leads (t : Term) : Leads limit ⟨forcing t, K, m⟩ K (force ev t m) := by
  cases t with
  | thunk a => exact forceThunk_leads hev a
  | _ => exact hev _ _ _ _

lemma perform_leads (act : Action) : Leads limit ⟨.perform act, K, m⟩ K (perform ev act m) := by
  induction act generalizing m with
  | done t => exact .step rfl (.value t)
  | fail e => exact .step rfl (.failed _)
  | missingOperand => exact .step rfl (.failed _)
  | force t next ih =>
    exact .step rfl (.bind (by simp) (force_leads hev t) fun v m' => .step rfl (ih v))
  | asInt t otherwise next ih =>
    cases hi : m.heap.asInt? t with
    | some i =>
      have hperform : perform ev (.asInt t otherwise next) m = perform ev (next i) m := by
        simp [perform, readHeap, bind, EStateM.bind, hi]
      rw [hperform]
      exact .step (by simp [Config.next, performing, hi]) (ih i)
    | none =>
      have hperform : perform ev (.asInt t otherwise next) m
          = .error (.failed (otherwise (m.heap.text t))) m := by
        simp [perform, readHeap, bind, EStateM.bind, hi, EvalM.fail, throw, throwThe,
          MonadExceptOf.throw, EStateM.throw]
      rw [hperform]
      exact .step (by simp [Config.next, performing, hi]) (.failed _)
  | record label t next ih => exact .step rfl ih

lemma applyBuiltin_leads (a : Addr) (arg : Term) :
    Leads limit (supplying a arg K m) K (applyBuiltin ev a [arg] m) := by
  unfold supplying
  dsimp only
  have happly : applyBuiltin ev a [arg] m =
      (if (m.heap.builtin a).arity < ((m.heap.builtin a).supplied ++ [arg]).length then
        fail (.tooManyArguments (m.heap.builtin a).name (m.heap.builtin a).arity
          ((m.heap.builtin a).supplied ++ [arg]).length)
      else if ((m.heap.builtin a).supplied ++ [arg]).length < (m.heap.builtin a).arity then
        modifyGet (·.newBuiltin { m.heap.builtin a with
          supplied := (m.heap.builtin a).supplied ++ [arg] })
      else do
        modify (·.trace fun _ => .invoking (m.heap.builtin a).name)
        perform ev ((m.heap.builtin a).op ((m.heap.builtin a).supplied ++ [arg]))) m := rfl
  rw [happly]
  split_ifs
  · exact .failed _
  · exact .value _
  · exact perform_leads hev _

lemma call_leads (n : ℕ) (f arg : Term) :
    Leads limit ⟨.call f arg, K, m⟩ K (call ev n f arg m) := by
  induction n generalizing f m with
  | zero =>
    cases f with
    -- the bound is used up, and then nothing is said
    | thunk a => exact fun h => absurd rfl h
    | closure a => exact .step rfl (hev _ _ _ _)
    | builtin a => exact .step rfl (applyBuiltin_leads hev a arg)
    | _ => exact .step rfl (.failed _)
  | succ n ih =>
    cases f with
    | thunk a =>
      exact .step rfl (.bind (by simp) (forceThunk_leads hev a) fun v m' => .step rfl (ih v))
    | closure a => exact .step rfl (hev _ _ _ _)
    | builtin a => exact .step rfl (applyBuiltin_leads hev a arg)
    | _ => exact .step rfl (.failed _)

lemma step_leads (n : ℕ) (t : Term) (env : Env) :
    Leads limit (evaluating t env K m) K (step ev n t env m) := by
  cases t with
  | int v => exact .value _
  | closure a => exact .value _
  | builtin a => exact .value _
  | thunk a => exact forceThunk_leads hev a
  | lam x b => exact .value _
  | var x =>
    unfold evaluating step
    dsimp only
    cases env.lookup? x with
    | none => exact .failed _
    | some b =>
      cases b with
      | thunk a => exact forceThunk_leads hev a
      | _ => exact hev _ _ _ _
  | app f a =>
    refine .bind (by simp) (hev _ _ _ _) fun v m' => ?_
    show Leads limit _ K (EStateM.bind (suspend a env) (call ev n v) m')
    unfold EStateM.bind
    cases hs : suspend a env m' with
    | ok u m₁ =>
      have hstep : next limit ⟨.value v, .argument a env :: K, m'⟩ = some ⟨.call v u, K, m₁⟩ := by
        simp [next, returning, hs]
      exact .step hstep (call_leads hev n v u)
    | error h m₁ =>
      have hstep : next limit ⟨.value v, .argument a env :: K, m'⟩ = some ⟨.fail h, K, m₁⟩ := by
        simp [next, returning, hs]
      exact .step hstep (.failed h)

end Rules

/-- The evaluator answers, within every bound that is large enough, what the steps lead to. -/
theorem evaluate_leads (limit : Option ℕ) (n : ℕ) : LedBy limit (evaluate limit n) := by
  induction n with
  | zero => exact fun _ _ _ _ h => absurd rfl h
  | succ n ih => exact fun t env K m => .nested fun m' => step_leads ih n t env

end EvalM

end Letrec
