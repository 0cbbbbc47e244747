import Mathlib
import Letrec.Proofs.Sharing.Times

/-!
# Code that is bound to a variable

A run that starts with a term that has `code` only as the argument of one binding `(\x. rest) code`
evaluates the code only when a thunk is forced that was made where this binding was entered
(`Ranked.owned`).

Two terms are not told apart if they are equal, so the code must not occur a second time.
`Guarded` says so, and it is kept up by every step (`Steps.guards`).
-/

namespace Letrec

namespace Term

variable {x y : String} {rest code t f a b : Term}

/-- How many symbols a term has. -/
def symbols : Term → ℕ
  | .lam _ b => b.symbols + 1
  | .app f a => f.symbols + a.symbols + 1
  | _ => 1

/-- The term `code` occurs only as the argument of the binding `(\x. rest) code`. -/
def Guarded : Term → String → Term → Term → Prop
  | .var y, _, _, code => .var y ≠ code
  | .lam y b, x, rest, code => .lam y b ≠ code ∧ b.Guarded x rest code
  | .app f a, x, rest, code => .app f a ≠ code ∧ f.Guarded x rest code ∧
      (a.Guarded x rest code ∨ a = code ∧ f = .lam x rest)
  | .int _, _, _, _ | .closure _, _, _, _ | .thunk _, _, _, _ | .builtin _, _, _, _ => True

/-- A term that is to be evaluated is not guarded against itself. -/
lemma not_guarded_self (h : code.isReady = false) : ¬ code.Guarded x rest code := by
  cases code with
  | var y => exact fun hg => hg rfl
  | lam y b => exact fun hg => hg.1 rfl
  | app f a => exact fun hg => hg.1 rfl
  | _ => exact absurd h (by simp [isReady])

/-- A term does not occur in a smaller one. -/
lemma guarded_of_symbols_lt (h : t.symbols < code.symbols) : t.Guarded x rest code := by
  have hne : ∀ {u : Term}, u.symbols < code.symbols → u ≠ code := fun hu heq => (heq ▸ hu).ne rfl
  induction t with
  | var y => exact hne h
  | lam y b ih => exact ⟨hne h, ih ((Nat.lt_succ_self _).trans h)⟩
  | app f a ihf iha =>
    simp only [symbols] at h
    exact ⟨hne (by simpa only [symbols] using h), ihf (by omega), Or.inl (iha (by omega))⟩
  | _ => trivial

lemma Guarded.body (h : (Term.lam y b).Guarded x rest code ∨ .lam y b = code) :
    b.Guarded x rest code := by
  rcases h with h | rfl
  · exact h.2
  · exact guarded_of_symbols_lt (Nat.lt_succ_self _)

lemma Guarded.fn (h : (Term.app f a).Guarded x rest code ∨ .app f a = code) :
    f.Guarded x rest code := by
  rcases h with h | rfl
  · exact h.2.1
  · exact guarded_of_symbols_lt (by simp only [symbols]; omega)

lemma Guarded.arg (h : (Term.app f a).Guarded x rest code ∨ .app f a = code) :
    a.Guarded x rest code ∨ a = code ∧ f = .lam x rest := by
  rcases h with h | rfl
  · exact h.2.2
  · exact Or.inl (guarded_of_symbols_lt (by simp only [symbols]; omega))

/-- Objects of the heap are no code. -/
lemma guarded_of_has {h : Heap} (ht : h.Has t) : t.Guarded x rest code := by
  cases t with
  | var y => exact ht.elim
  | lam y b => exact ht.elim
  | app f a => exact ht.elim
  | _ => trivial

end Term

/-! ### What a state holds -/

namespace Config

section

variable (limit : Option ℕ) (start : Config) (x : String) (rest code : Term)

/-- The thunk is the one that is made where the binding was entered, before the time `n`. -/
def Makes (n : ℕ) (a : Addr) : Prop :=
  ∃ e s, e < n ∧ start.after? limit e = some s ∧ s.Evaluates (.app (.lam x rest) code) ∧
    s.machine.heap.thunks.size = a

/-- The code is evaluated for the value of the thunk. -/
def Enters (a : Addr) (s : Config) : Prop :=
  (∃ env, s.control = .eval code env) ∧ ∃ K, s.stack = .memoize a :: K

end

end Config

section

variable (x : String) (rest code : Term)

/-- Functions and suspended computations do not hold the code, but for the thunks in `P`. -/
structure Heap.Guarded (P : Addr → Prop) (h : Heap) : Prop where
  closure : ∀ {a : Addr} {c}, h.closures[a]? = some c → c.body.Guarded x rest code
  thunk : ∀ {a : Addr} {c}, h.thunks[a]? = some c → c.term.Guarded x rest code ∨ c.term = code ∧ P a

/-- An argument that waits is not the code. -/
def Frame.Guarded : Frame → Prop
  | .argument arg _ => arg.Guarded x rest code
  | _ => True

end

namespace Heap.Guarded

variable {x : String} {rest code : Term} {P Q : Addr → Prop} {h : Heap}

lemma mono (hg : h.Guarded x rest code P) (hPQ : ∀ a, P a → Q a) : h.Guarded x rest code Q :=
  ⟨hg.closure, fun ha => (hg.thunk ha).imp_right fun h => ⟨h.1, hPQ _ h.2⟩⟩

lemma pushClosure (hg : h.Guarded x rest code P) {c : Closure} (hc : c.body.Guarded x rest code) :
    (h.pushClosure c).Guarded x rest code P where
  closure ha := by
    rcases getElem?_push_eq_some ha with ha | ⟨-, rfl⟩
    · exact hg.closure ha
    · exact hc
  thunk := hg.thunk

lemma pushThunk (hg : h.Guarded x rest code P) {c : Thunk}
    (hc : c.term.Guarded x rest code ∨ c.term = code ∧ P h.thunks.size) :
    (h.pushThunk c).Guarded x rest code P where
  closure := hg.closure
  thunk ha := by
    rcases getElem?_push_eq_some ha with ha | ⟨rfl, rfl⟩
    · exact hg.thunk ha
    · exact hc

lemma pushBuiltin (hg : h.Guarded x rest code P) (b : Builtin) :
    (h.pushBuiltin b).Guarded x rest code P :=
  ⟨hg.closure, hg.thunk⟩

lemma memoize (hg : h.Guarded x rest code P) (a : Addr) (v : Term) :
    (h.memoize a v).Guarded x rest code P where
  closure := hg.closure
  thunk {b c} hb := by
    obtain ⟨c', hc', hterm, -⟩ := thunk_of_memoize hb
    rw [hterm]
    exact hg.thunk hc'

end Heap.Guarded

namespace Config

section

variable (x : String) (rest code : Term) (P : Addr → Prop)

/-- The binding has been entered, and the code waits to be suspended: the function around the rest
is made and handed to it. -/
def Pending (s : Config) : Prop :=
  P s.machine.heap.thunks.size ∧ ∃ env K, (∀ f ∈ K, f.Guarded x rest code) ∧
    ((s.control = .eval (.lam x rest) env ∧ s.stack = .argument code env :: K) ∨
      ∃ v, s.control = .value v ∧
        (s.stack = .leave :: .argument code env :: K ∨ s.stack = .argument code env :: K))

/-- The code is nowhere but in the thunks in `P`, where one of them is evaluated, and where it waits
to be suspended. -/
structure Guards (s : Config) : Prop where
  heap : s.machine.heap.Guarded x rest code P
  control : ∀ t env, s.control = .eval t env →
    t.Guarded x rest code ∨ t = code ∧ ∃ a K, s.stack = .memoize a :: K ∧ P a
  stack : (∃ h, s.control = .fail h) ∨ (∀ f ∈ s.stack, f.Guarded x rest code) ∨
    s.Pending x rest code P

end

/-! ### Steps -/

variable {limit : Option ℕ} {x : String} {rest code : Term} {P Q : Addr → Prop} {s s' : Config}
  {K : List Frame} {m : Machine}

lemma Guards.mono (hs : s.Guards x rest code P) (hPQ : ∀ a, P a → Q a) :
    s.Guards x rest code Q where
  heap := hs.heap.mono hPQ
  control t env ht := (hs.control t env ht).imp_right fun ⟨htc, a, K, hK, ha⟩ =>
    ⟨htc, a, K, hK, hPQ a ha⟩
  stack := hs.stack.imp_right (Or.imp_right fun hpending => ⟨hPQ _ hpending.1, hpending.2⟩)

/-- A state that evaluates no term and where nothing waits to be suspended. -/
lemma Guards.of_stack {c : Control} (hheap : m.heap.Guarded x rest code P)
    (hc : ∀ t env, c ≠ .eval t env) (hK : ∀ f ∈ K, f.Guarded x rest code) :
    Guards x rest code P ⟨c, K, m⟩ :=
  ⟨hheap, fun t env h => absurd h (hc t env), Or.inr (Or.inl hK)⟩

lemma Guards.of_fail {h : Halt} (hheap : m.heap.Guarded x rest code P) :
    Guards x rest code P ⟨.fail h, K, m⟩ :=
  ⟨hheap, fun _ _ h => absurd h (by simp), Or.inl ⟨h, rfl⟩⟩

lemma Guards.of_eval {t : Term} {env : Env} (hheap : m.heap.Guarded x rest code P)
    (ht : t.Guarded x rest code) (hK : ∀ f ∈ K, f.Guarded x rest code) :
    Guards x rest code P ⟨.eval t env, K, m⟩ := by
  refine ⟨hheap, fun t' env' h => Or.inl ?_, Or.inr (Or.inl hK)⟩
  obtain ⟨rfl, -⟩ := Control.eval.inj h
  exact ht

lemma evaluating_guards {t : Term} {env : Env} (hheap : m.heap.Guarded x rest code P)
    (ht : t.Guarded x rest code ∨ t = code) (hK : ∀ f ∈ K, f.Guarded x rest code)
    (hlookup : ∀ y u, t = .var y → env.lookup? y = some u → m.heap.Has u)
    (hact : t = .app (.lam x rest) code → P m.heap.thunks.size) :
    (evaluating t env K m).Guards x rest code P := by
  cases t with
  | lam y b => exact .of_stack (hheap.pushClosure (Term.Guarded.body ht)) (by simp) hK
  | var y =>
    unfold evaluating
    dsimp only
    split
    · exact .of_stack hheap (by simp) hK
    · rename_i u _ hu
      exact .of_eval hheap (Term.guarded_of_has (hlookup y u rfl hu)) hK
    · exact .of_fail hheap
  | app f a =>
    have hf := Term.Guarded.fn ht
    rcases Term.Guarded.arg ht with ha | ⟨rfl, rfl⟩
    · exact .of_eval hheap hf (List.forall_mem_cons.2 ⟨ha, hK⟩)
    · refine ⟨hheap, fun t' env' h => Or.inl ?_,
        Or.inr (Or.inr ⟨hact rfl, env, K, hK, Or.inl ⟨rfl, rfl⟩⟩)⟩
      obtain ⟨rfl, -⟩ := Control.eval.inj h
      exact hf
  | _ => exact .of_stack hheap (by simp) hK

lemma supplying_guards (hheap : m.heap.Guarded x rest code P) (hK : ∀ f ∈ K, f.Guarded x rest code)
    (a : Addr) (arg : Term) : (supplying a arg K m).Guards x rest code P := by
  unfold supplying
  dsimp only
  split_ifs
  · exact .of_fail hheap
  · exact .of_stack (hheap.pushBuiltin _) (by simp) hK
  · refine .of_stack ?_ (by simp) hK
    rwa [EvalM.heap_trace]

lemma performing_guards (hheap : m.heap.Guarded x rest code P) (hK : ∀ f ∈ K, f.Guarded x rest code)
    {act : Action} (hforce : ∀ t next, act = .force t next → m.heap.Has t) :
    (performing act K m).Guards x rest code P := by
  cases act with
  | done t => exact .of_stack hheap (by simp) hK
  | fail e => exact .of_fail hheap
  | missingOperand => exact .of_fail hheap
  | force t next =>
    have hK' : ∀ f ∈ Frame.resume next :: K, f.Guarded x rest code :=
      List.forall_mem_cons.2 ⟨trivial, hK⟩
    have ht : t.Guarded x rest code := Term.guarded_of_has (hforce t next rfl)
    cases t with
    | thunk a => exact .of_stack hheap (by simp [forcing]) hK'
    | _ => exact .of_eval hheap ht hK'
  | asInt t otherwise next =>
    unfold performing
    dsimp only
    split
    · exact .of_stack hheap (by simp) hK
    · exact .of_fail hheap
  | record label t next => exact .of_stack hheap (by simp) hK

/-- The argument of a call is suspended; it may be the code. -/
lemma suspending_guards {arg v : Term} {env : Env} (hheap : m.heap.Guarded x rest code P)
    (hK : ∀ f ∈ K, f.Guarded x rest code)
    (harg : arg.Guarded x rest code ∨ arg = code ∧ P m.heap.thunks.size) :
    (returning v (.argument arg env) K m).Guards x rest code P := by
  rw [returning]
  rcases EvalM.suspend_cases arg env m with ⟨u, hu, -⟩ | ⟨m', hu, hheap'⟩
  · rw [hu]
    exact .of_stack hheap (by simp) hK
  · rw [hu]
    refine .of_stack ?_ (by simp) hK
    rw [hheap']
    exact hheap.pushThunk harg

lemma returning_guards {f : Frame} (hheap : m.heap.Guarded x rest code P)
    (hf : f.Guarded x rest code) (hK : ∀ f ∈ K, f.Guarded x rest code) (v : Term) :
    (returning v f K m).Guards x rest code P := by
  cases f with
  | argument arg env => exact suspending_guards hheap hK (Or.inl hf)
  | memoize a => exact .of_stack (hheap.memoize a v) (by simp) hK
  | _ => exact .of_stack hheap (by simp) hK

/-- While the code waits to be suspended, nothing but that happens. -/
lemma Pending.guards (h : Steps limit s s') (hheap : s.machine.heap.Guarded x rest code P)
    (hcontrol : ∀ t env, s.control = .eval t env → t.Guarded x rest code ∨ t = code)
    (hs : s.Pending x rest code P) : s'.Guards x rest code P := by
  obtain ⟨hP, env, K, hK, hs⟩ := hs
  obtain ⟨c, K', m⟩ := s
  rcases hs with ⟨hc, hK'⟩ | ⟨v, hc, hK' | hK'⟩
  · dsimp only at hc hK'
    subst hc hK'
    rw [Steps, next] at h
    split at h <;> obtain rfl := Option.some.inj h
    · exact .of_fail hheap
    · have hrest := Term.Guarded.body (hcontrol _ _ rfl)
      refine ⟨hheap.pushClosure hrest, fun t env h => absurd h (by simp [evaluating]), ?_⟩
      exact Or.inr (Or.inr ⟨hP, env, K, hK, Or.inr ⟨_, rfl, Or.inl rfl⟩⟩)
  · dsimp only at hc hK'
    subst hc hK'
    obtain rfl := Option.some.inj h
    refine ⟨hheap, fun t env h => absurd h (by simp [returning]), ?_⟩
    exact Or.inr (Or.inr ⟨hP, env, K, hK, Or.inr ⟨v, rfl, Or.inr rfl⟩⟩)
  · dsimp only at hc hK'
    subst hc hK'
    obtain rfl := Option.some.inj h
    exact suspending_guards hheap hK (Or.inr ⟨rfl, hP⟩)

lemma failing_guards {e : Halt} (h : Steps limit ⟨.fail e, K, m⟩ s')
    (hheap : m.heap.Guarded x rest code P) : s'.Guards x rest code P := by
  cases K with
  | nil => exact absurd h (by simp [Steps, next])
  | cons f K => cases f <;> obtain rfl := Option.some.inj h <;> exact .of_fail hheap

/-- Every step keeps the code where it was, if what it makes is in `P` when the binding is
entered. -/
lemma Steps.guards (h : Steps limit s s') (hranked : s.Ranked) (hs : s.Guards x rest code P)
    (hact : s.Evaluates (.app (.lam x rest) code) → P s.machine.heap.thunks.size) :
    s'.Guards x rest code P := by
  have hcontrol : ∀ t env, s.control = .eval t env → t.Guarded x rest code ∨ t = code :=
    fun t env ht => (hs.control t env ht).imp_right And.left
  obtain ⟨hheap, -, ⟨e, he⟩ | hK | hpending⟩ := hs
  · obtain ⟨c, K, m⟩ := s
    obtain rfl := he
    exact failing_guards h hheap
  · obtain ⟨c, K, m⟩ := s
    obtain ⟨rk, hw, hc⟩ := hranked
    cases c with
    | eval t env =>
      rw [Steps, next] at h
      split at h <;> obtain rfl := Option.some.inj h
      · exact .of_fail hheap
      · refine evaluating_guards hheap (hcontrol t env rfl) (List.forall_mem_cons.2 ⟨trivial, hK⟩)
          ?_ fun ht => hact ⟨env, by rw [ht]⟩
        rintro y u rfl hu
        cases hc with
        | covered hcovers _ => exact hcovers.bound _ (mem_of_lookup_eq_some hu)
        | object hknows => exact hknows.has.elim
    | force a =>
      have ha := Heap.getElem?_thunks hc.has
      rw [Steps, next] at h
      split at h <;> obtain rfl := Option.some.inj h
      · exact .of_stack hheap (by simp) hK
      · refine ⟨?_, fun t env ht => ?_, Or.inr (Or.inl (List.forall_mem_cons.2 ⟨trivial, hK⟩))⟩
        · dsimp only
          rwa [EvalM.heap_trace]
        · obtain ⟨rfl, -⟩ := Control.eval.inj ht
          exact (hheap.thunk ha).imp_right fun hcode => ⟨hcode.1, a, K, rfl, hcode.2⟩
    | call f arg =>
      cases f with
      | closure a =>
        obtain rfl := Option.some.inj h
        exact .of_eval hheap (hheap.closure (Heap.getElem?_closures hc.1.has)) hK
      | builtin a =>
        obtain rfl := Option.some.inj h
        exact supplying_guards hheap hK a arg
      | thunk a =>
        obtain rfl := Option.some.inj h
        exact .of_stack hheap (by simp) (List.forall_mem_cons.2 ⟨trivial, hK⟩)
      | _ =>
        obtain rfl := Option.some.inj h
        exact .of_fail hheap
    | perform act =>
      obtain rfl := Option.some.inj h
      obtain ⟨args, vs, hact', hsupplies⟩ := hc
      refine performing_guards hheap hK ?_
      rintro t next rfl
      cases hact' with
      | force ht _ => exact (hsupplies.known t ht).has
    | value v =>
      cases K with
      | nil => exact absurd h (by simp [Steps, next])
      | cons f K =>
        obtain rfl := Option.some.inj h
        rw [List.forall_mem_cons] at hK
        exact returning_guards hheap hK.1 hK.2 v
    | fail e => exact failing_guards h hheap
  · exact hpending.guards h hheap hcontrol

/-- The code is evaluated only when a thunk is forced. -/
lemma Steps.starts_of_enters {a : Addr} (h : Steps limit s s') (hranked : s.Ranked)
    (hs : s.Guards x rest code P) (hcode : code.isReady = false) (hs' : s'.Enters code a) :
    s.Starts a := by
  obtain ⟨⟨env, hcontrol⟩, K', hstack⟩ := hs'
  obtain ⟨c, K, m⟩ := s
  cases c with
  | eval t env =>
    rw [Steps, next] at h
    split at h <;> obtain rfl := Option.some.inj h
    · exact absurd hcontrol (by simp)
    · -- what is evaluated inside is counted, or an argument waits for it
      cases t with
      | var y =>
        unfold evaluating at hstack
        dsimp only at hstack
        split at hstack <;> exact absurd hstack (by simp)
      | app f a => exact absurd hstack (by simp [evaluating])
      | _ => exact absurd hcontrol (by simp [evaluating])
  | force b =>
    rw [Steps, next] at h
    split at h <;> obtain rfl := Option.some.inj h
    · exact absurd hcontrol (by simp)
    · rename_i hmemo
      obtain ⟨hframe, -⟩ := List.cons.inj hstack
      obtain rfl := Frame.memoize.inj hframe
      exact ⟨rfl, by rw [← Heap.memo_thunk]; exact hmemo⟩
  | call f arg =>
    cases f with
    | closure b =>
      obtain rfl := Option.some.inj h
      obtain ⟨rk, -, hc⟩ := hranked
      have hbody := hs.heap.closure (Heap.getElem?_closures hc.1.has)
      obtain ⟨heq, -⟩ := Control.eval.inj hcontrol
      rw [heq] at hbody
      exact absurd hbody (Term.not_guarded_self hcode)
    | builtin b =>
      obtain rfl := Option.some.inj h
      unfold supplying at hcontrol
      dsimp only at hcontrol
      split_ifs at hcontrol
    | _ =>
      obtain rfl := Option.some.inj h
      exact absurd hcontrol (by simp)
  | perform act =>
    obtain rfl := Option.some.inj h
    cases act with
    | asInt t otherwise next =>
      unfold performing at hcontrol
      dsimp only at hcontrol
      split at hcontrol <;> exact absurd hcontrol (by simp)
    | force t next => exact absurd hstack (by simp [performing])
    | _ => exact absurd hcontrol (by simp [performing])
  | value v =>
    cases K with
    | nil => exact absurd h (by simp [Steps, next])
    | cons f K =>
      obtain rfl := Option.some.inj h
      cases f with
      | argument arg env =>
        rw [returning] at hcontrol
        split at hcontrol <;> exact absurd hcontrol (by simp)
      | _ => exact absurd hcontrol (by simp [returning])
  | fail e => exact absurd (h.fail rfl ▸ hcontrol) (by simp)

/-! ### Runs -/

/-- The thunk that is made where a binding is entered, at the time `e`, begins to be evaluated at
the time `u`. -/
def StartsAt (limit : Option ℕ) (start : Config) (e u : ℕ) : Prop :=
  e < u ∧ ∃ s₀ s, start.after? limit e = some s₀ ∧ start.after? limit u = some s ∧
    s.Starts s₀.machine.heap.thunks.size

variable {start : Config} {n : ℕ}

/-- At every time of a run the code is only where a thunk holds it that was made where the binding
was entered. -/
lemma Ranked.guards (hranked : start.Ranked) (hstart : start.Guards x rest code fun _ => False)
    (h : start.after? limit n = some s) :
    s.Guards x rest code (Makes limit start x rest code n) := by
  induction n generalizing s with
  | zero =>
    obtain rfl := Option.some.inj h
    exact hstart.mono fun _ => False.elim
  | succ n ih =>
    obtain ⟨s₀, hs₀, hstep⟩ := exists_of_after?_succ h
    refine hstep.guards ((reaches_of_after? hs₀).ranked hranked)
      ((ih hs₀).mono fun a ⟨e, s, hlt, hmade⟩ => ⟨e, s, by omega, hmade⟩) ?_
    exact fun hact => ⟨n, s₀, Nat.lt_succ_self n, hs₀, hact, rfl⟩

/-- In a run, the code is evaluated only when a thunk is forced that was made where the binding was
entered. -/
theorem Ranked.owned (hranked : start.Ranked)
    (hstart : start.Guards x rest code fun _ => False) (hcode : code.isReady = false)
    (h : EvaluatesAt limit start code n) :
    ∃ e u, n = u + 1 ∧ EvaluatesAt limit start (.app (.lam x rest) code) e ∧
      StartsAt limit start e u := by
  obtain ⟨s, hs, env, hcontrol⟩ := h
  rcases (hranked.guards hstart hs).control code env hcontrol with
    hguarded | ⟨-, a, K, hstack, e, s₀, hlt, hs₀, hact, rfl⟩
  · exact absurd hguarded (Term.not_guarded_self hcode)
  · obtain ⟨u, rfl⟩ : ∃ u, n = u + 1 := ⟨n - 1, by omega⟩
    obtain ⟨s₁, hs₁, hstep⟩ := exists_of_after?_succ hs
    have hstarts := hstep.starts_of_enters ((reaches_of_after? hs₁).ranked hranked)
      (hranked.guards hstart hs₁) hcode ⟨⟨env, hcontrol⟩, K, hstack⟩
    refine ⟨e, u, rfl, ⟨s₀, hs₀, hact⟩, lt_of_le_of_ne (by omega) ?_, s₀, s₁, hs₀, hs₁, hstarts⟩
    -- the binding is evaluated at the one time, and a thunk forced at the other
    rintro rfl
    obtain ⟨env', hbinding⟩ := hact
    obtain rfl := Option.some.inj (hs₀.symm.trans hs₁)
    exact absurd (hbinding.symm.trans hstarts.1) (by simp)

/-- At the start there is nothing but the term. -/
lemma guards_start {t : Term} (ht : t.Guarded x rest code) (bs : Builtins) (tracing : Bool)
    (log : Array Event) : (Config.start bs tracing log t).Guards x rest code fun _ => False := by
  refine .of_eval ⟨fun ha => ?_, fun ha => ?_⟩ ht (by simp)
  · exact absurd ha (by simp [Machine.ofBuiltins, Builtins.heap])
  · exact absurd ha (by simp [Machine.ofBuiltins, Builtins.heap])

end Config

end Letrec
