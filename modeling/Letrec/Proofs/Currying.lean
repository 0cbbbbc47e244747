import Mathlib
import Letrec.Proofs.Unshared.Simulation
import Letrec.Proofs.Links.Compose

/-!
# Arguments together and one by one

A function can be called with several arguments at once, or it can be applied to one after the
other.  A builtin operation tells the two apart only by the partial applications in between, which
nothing refers to once they have got their next argument; and an application to one argument is one
nested evaluation more, which counts only where there is a limit.  So without a limit both ways have
the same result and the same effects, object by object (`arguments_one_by_one`).

The one difference is that too many arguments for an operation are an error if they come together.
-/

namespace Letrec

open EvalM

/-! ### One argument at a time -/

/-- Call a function that has been forced with several arguments, one at a time. -/
def EvalM.applyEach (ev : Evaluator) (n : ℕ) : Term → List Term → EvalM Term
  | f, [] => pure f
  | f, arg :: args => call ev n f arg >>= fun g => applyEach ev n g args

lemma EvalM.applyEach_append (ev : Evaluator) (n : ℕ) (f : Term) (args : List Term) (arg : Term) :
    applyEach ev n f (args ++ [arg]) = applyEach ev n f args >>= fun g => call ev n g arg := by
  induction args generalizing f with
  | nil =>
    show call ev n f arg >>= pure = pure f >>= fun g => call ev n g arg
    rw [bind_pure, pure_bind]
  | cons a args ih =>
    show (call ev n f a >>= fun g => applyEach ev n g (args ++ [arg])) = _
    simp only [ih]
    exact (bind_assoc _ _ _).symm

lemma Heap.builtin_pushBuiltin (h : Heap) (b : Builtin) :
    (h.pushBuiltin b).builtin h.builtins.size = b := by
  simp [builtin, pushBuiltin]

/-- The result is not that an operation got too many arguments. -/
def Fits (r : EStateM.Result Halt Machine Term) : Prop :=
  ∀ name arity supplied m, r ≠ .error (.failed (.tooManyArguments name arity supplied)) m

namespace Comparison

variable {S : Comparison} {L : Links} {m m' : Machine} {n : ℕ}

section Rules

variable {ev : Evaluator} (hev : S.Follows ev)

include hev

/-- The right side has given its operation some of the arguments already. -/
lemma applyBuiltin_each_matched {a a' : Addr} {given args args' supplied' : List Term}
    (hne : args ≠ [])
    (hb : m'.heap.builtin a' = { m.heap.builtin a with supplied := supplied' })
    (hop : (m.heap.builtin a).op.Uniform S.base)
    (hgiven : List.Forall₂ L.Joins ((m.heap.builtin a).supplied ++ given) supplied')
    (hargs : List.Forall₂ L.Joins args args') (hm : S.JoinsMachine L m m')
    (hfits : Fits (applyBuiltin ev a (given ++ args) m)) :
    S.Matched L (applyBuiltin ev a (given ++ args) m)
      fun j => applyEach (evaluate S.limit j) j (.builtin a') args' m' := by
  induction hargs generalizing given a' m' supplied' with
  | nil => exact absurd rfl hne
  | @cons x x' args args' hx hargs ih =>
    have hall : List.Forall₂ L.Joins ((m.heap.builtin a).supplied ++ (given ++ [x]))
        (supplied' ++ [x']) := by
      rw [← List.append_assoc]
      exact List.rel_append hgiven (.cons hx .nil)
    cases hargs with
    | nil =>
      have heach : ∀ j, applyEach (evaluate S.limit j) j (.builtin a') [x'] m'
          = applyBuiltin (evaluate S.limit j) a' [x'] m' := by
        intro j
        rw [applyEach, call_builtin]
        exact congrFun (bind_pure _) m'
      simp only [heach]
      exact applyBuiltin_matched hev hb hop hall hm
    | @cons y y' args args' hy hargs =>
      -- more arguments follow, and there are not too many: the operation waits for the next one
      have hassoc : given ++ x :: y :: args = (given ++ [x]) ++ y :: args := by simp
      have hlt : (supplied' ++ [x']).length < (m.heap.builtin a).arity := by
        by_contra hnot
        refine hfits _ _ _ _ (applyBuiltin_of_lt ev ?_)
        have hlength := hall.length_eq
        simp only [List.length_append, List.length_cons, List.length_nil] at hlength hnot ⊢
        omega
      obtain ⟨b', hb'⟩ : ∃ b', b' = { m.heap.builtin a with supplied := supplied' ++ [x'] } :=
        ⟨_, rfl⟩
      have hpush : ∀ j, applyBuiltin (evaluate S.limit j) a' [x'] m'
          = .ok (.builtin m'.heap.builtins.size) (m'.newBuiltin b').2 := by
        intro j
        have hwaits : ((m'.heap.builtin a').supplied ++ [x']).length
            < (m'.heap.builtin a').arity := by
          rw [hb]
          exact hlt
        rw [applyBuiltin_of_gt _ hwaits, hb, hb']
      have heach : ∀ j, applyEach (evaluate S.limit j) j (.builtin a') (x' :: y' :: args') m'
          = applyEach (evaluate S.limit j) j (.builtin m'.heap.builtins.size) (y' :: args')
            (m'.newBuiltin b').2 := by
        intro j
        rw [applyEach, call_builtin]
        exact bind_of_ok (hpush j)
      simp only [heach]
      have hm₁ : S.JoinsMachine L m (m'.newBuiltin b').2 :=
        hm.withHeap (hm.heap.extend (Heap.keeps_refl _) (ByName.World.keeps_pushBuiltin _ b'))
          fun hexact =>
            ⟨(hm.reports hexact).closures, (hm.reports hexact).thunks, (hm.reports hexact).address⟩
      have hread : (m'.newBuiltin b').2.heap.builtin m'.heap.builtins.size
          = { m.heap.builtin a with supplied := supplied' ++ [x'] } :=
        (Heap.builtin_pushBuiltin _ _).trans hb'
      rw [hassoc] at hfits ⊢
      exact ih (by simp) hread hall hm₁ hfits

/-- A function that has been forced, with its arguments together and one at a time. -/
lemma applyForced_matched {f f' : Term} {args args' : List Term} (hf : L.Joins f f')
    (hargs : List.Forall₂ L.Joins args args') (hready : ∀ t ∈ args, t.isReady = true)
    (hm : S.JoinsMachine L m m') (hfits : Fits (applyForced ev n f args m)) :
    S.Matched L (applyForced ev n f args m)
      fun j => applyEach (evaluate S.limit j) j f' args' m' := by
  induction args generalizing L f f' args' m m' with
  | nil =>
    obtain ⟨⟩ := hargs
    exact .ok hf hm
  | cons x args ih =>
    obtain _ | ⟨hx, hargs⟩ := hargs
    rename_i x' args'
    by_cases hbuiltin : ∃ a, f = .builtin a
    · obtain ⟨a, rfl⟩ := hbuiltin
      cases hf with
      | builtin ha =>
        obtain ⟨supplied', hb, hop, hsupplied⟩ := hm.heap.builtin ha
        have hgiven : List.Forall₂ L.Joins ((m.heap.builtin a).supplied ++ []) supplied' := by
          rwa [List.append_nil]
        have heach := applyBuiltin_each_matched hev (List.cons_ne_nil x args) hb hop hgiven
          (.cons hx hargs) hm hfits
        exact heach
    · have hstep : applyForced ev n f (x :: args)
          = call ev n f x >>= fun g => applyForced ev n g args := by
        cases f with
        | builtin a => exact absurd ⟨a, rfl⟩ hbuiltin
        | _ => rfl
      rw [hstep] at hfits ⊢
      refine .bind_of (y := fun j => call (evaluate S.limit j) j f' x')
        (z := fun j g => applyEach (evaluate S.limit j) j g args')
        (call_matched hev n 0 hf hx (hready x List.mem_cons_self) hm)
        fun L' v v' m₁ m₁' hL hv hm₁ hrun _ => ?_
      rw [bind_of_ok hrun] at hfits
      exact ih hv (hargs.imp fun _ _ h => h.mono hL)
        (fun t ht => hready t (List.mem_cons_of_mem x ht)) hm₁ hfits

/-- A function with its arguments together and one at a time. -/
lemma apply_matched {f f' : Term} {args args' : List Term} (hf : L.Joins f f')
    (hargs : List.Forall₂ L.Joins args args') (hready : ∀ t ∈ args, t.isReady = true)
    (hm : S.JoinsMachine L m m') (hfits : Fits (apply ev n f args m)) :
    S.Matched L (apply ev n f args m) fun j =>
      (force (evaluate S.limit j) f' >>= fun g => applyEach (evaluate S.limit j) j g args') m' := by
  have happly : apply ev n f args = force ev f >>= fun g => applyForced ev n g args := rfl
  rw [happly] at hfits ⊢
  refine .bind_of (y := fun j => force (evaluate S.limit j) f')
    (z := fun j g => applyEach (evaluate S.limit j) j g args') (force_matched hev hf hm)
    fun L' v v' m₁ m₁' hL hv hm₁ hrun _ => ?_
  rw [bind_of_ok hrun] at hfits
  exact applyForced_matched hev hv (hargs.imp fun _ _ h => h.mono hL) hready hm₁ hfits

end Rules

/-! ### Nested applications -/

/-- Calls with one argument at a time are what nested applications evaluate to. -/
lemma apps_matched {base : Links} {f : Term} {args : List Term} (env : Env)
    (hf : L.Joins f f) (hready : f.isReady = true)
    (hargs : ∀ t ∈ args, L.Joins t t ∧ t.isReady = true)
    (hm : (plain none True base).JoinsMachine L m m') :
    (plain none True base).Matched L
      ((force (evaluate none n) f >>= fun g => applyEach (evaluate none n) n g args) m)
      fun j => evaluate none j (.apps f args) env m' := by
  have hfollows := plain_follows none True base n
  have hentered : ∀ {L : Links} {m m' : Machine}, (plain none True base).JoinsMachine L m m' →
      (plain none True base).JoinsMachine L m m'.entered :=
    fun {_ m _} hm => hm.of_depth rfl m.depth _ m.peak _
  induction args using List.reverseRecOn generalizing L m m' with
  | nil =>
    have hpure : (force (evaluate none n) f >>= fun g => applyEach (evaluate none n) n g [])
        = force (evaluate none n) f := bind_pure _
    rw [hpure]
    have hcode := hfollows.code (show L.JoinsCode _ [] _ env from .of_joins hf hready) hm
    cases hf with
    | thunk ha =>
      exact .succ (.nested_right rfl (forceThunk_matched hfollows ha (hentered hm)))
    | _ => exact hcode
  | append_singleton args arg ih =>
    have hbind : (force (evaluate none n) f >>= fun g =>
          applyEach (evaluate none n) n g (args ++ [arg]))
        = (force (evaluate none n) f >>= fun g => applyEach (evaluate none n) n g args) >>=
          fun g => call (evaluate none n) n g arg := by
      simp only [applyEach_append]
      exact (bind_assoc _ _ _).symm
    have happs : Term.apps f (args ++ [arg]) = .app (.apps f args) arg := by
      simp [Term.apps]
    rw [hbind, happs]
    refine .succ (.nested_right rfl ?_)
    refine .bind (y := fun j => evaluate none j (.apps f args) env)
      (z := fun j g => suspend arg env >>= call (evaluate none j) j g)
      (ih hf (fun t ht => hargs t (List.mem_append_left _ ht)) (hentered hm))
      fun L' v v' m₁ m₁' hL hv hm₁ => ?_
    obtain ⟨harg, hready'⟩ := hargs arg (List.mem_append_right _ (List.mem_singleton_self _))
    have hsuspend : suspend arg env m₁' = .ok arg m₁' := by
      rw [suspend_of_isReady hready']
      rfl
    simp only [bind_of_ok hsuspend]
    exact call_matched hfollows n 0 hv (harg.mono hL) hready' hm₁

end Comparison

open Comparison

/-- From a closed heap and without a limit: an operation that gets some of its arguments and then
the others has the result and the effects of getting them all at once; and if a function is applied
to several arguments at once and no operation gets too many, then evaluating the function applied to
one after the other has the same result and the same effects. -/
theorem arguments_one_by_one {m : Machine} (hm : m.heap.Closed) :
    (∀ (a : Addr) (xs ys : List Term), m.heap.Has (.builtin a) →
      (∀ t ∈ xs ++ ys, m.heap.Has t) →
      (m.heap.builtin a).supplied.length + xs.length < (m.heap.builtin a).arity →
      let made := m.newBuiltin { m.heap.builtin a with
        supplied := (m.heap.builtin a).supplied ++ xs }
      (∀ ev, applyBuiltin ev a xs m = .ok made.1 made.2) ∧
      EndAlike (SameRun m.heap)
        (fun n => applyBuiltin (evaluate none n) a (xs ++ ys) m)
        fun n => applyBuiltin (evaluate none n) m.heap.builtins.size ys made.2) ∧
    ∀ (f : Term) (args : List Term) (env : Env) (n : ℕ), m.heap.Has f →
      (∀ t ∈ args, m.heap.Has t) → Finished OutOfFuel (apply (evaluate none n) n f args m) →
      Fits (apply (evaluate none n) n f args m) →
      ∃ k, SameRun m.heap (apply (evaluate none n) n f args m)
        (evaluate none k (.apps f args) env m) := by
  have hself := joinsMachine_self (S := plain none True m.heap.selfLinks) hm rfl trivial
  have hsame : ∀ {r : EStateM.Result Halt Machine Term}
      {y : ℕ → EStateM.Result Halt Machine Term},
      (plain none True m.heap.selfLinks).Matched m.heap.selfLinks r y → Finished OutOfFuel r →
      ∃ k, SameRun m.heap r (y k) := by
    intro r y h hr
    obtain ⟨r', ⟨k, hk⟩, hjoins⟩ := h hr
    exact ⟨k, hk k le_rfl ▸ hjoins⟩
  constructor
  · intro a xs ys ha hargs hlt made
    rw [← List.length_append] at hlt
    refine ⟨fun ev => applyBuiltin_of_gt ev hlt, ?_⟩
    have hget : m.heap.builtins[a]? = some (m.heap.builtin a) := by
      have hlt : a < m.heap.builtins.size := ha
      rw [Heap.builtin, Array.getElem?_eq_getElem hlt, Option.getD_some]
    obtain ⟨hsupplied, hop⟩ := hm.builtin a _ hget
    have hall : List.Forall₂ m.heap.selfLinks.Joins
        ((m.heap.builtin a).supplied ++ (xs ++ ys)) ((m.heap.builtin a).supplied ++ (xs ++ ys)) :=
      List.forall₂_same.2 fun t ht => (List.mem_append.1 ht).elim
        (fun ht => (hsupplied t ht).joins) fun ht => (hargs t ht).holds.joins
    have hread : made.2.heap.builtin m.heap.builtins.size = { m.heap.builtin a with
        supplied := (m.heap.builtin a).supplied ++ xs } := Heap.builtin_pushBuiltin _ _
    have hkeeps : ByName.World.Keeps m.heap made.2.heap := ByName.World.keeps_pushBuiltin _ _
    have hfollows := plain_follows none True m.heap.selfLinks
    refine ⟨fun n hn => ?_, fun n hn => ?_⟩
    · have hm₁ : (plain none True m.heap.selfLinks).JoinsMachine m.heap.selfLinks m made.2 :=
        hself.withHeap (hself.heap.extend (Heap.keeps_refl _) hkeeps)
          fun hexact => ⟨rfl, rfl, (hself.reports hexact).address⟩
      have hsplit : List.Forall₂ m.heap.selfLinks.Joins ((m.heap.builtin a).supplied ++ (xs ++ ys))
          ((m.heap.builtin a).supplied ++ xs ++ ys) := by
        rwa [List.append_assoc]
      exact hsame (applyBuiltin_matched (hfollows n) hread hop hsplit hm₁) hn
    · have hm₁ : (plain none True m.heap.selfLinks).JoinsMachine m.heap.selfLinks made.2 m :=
        hself.withHeap (hself.heap.extend hkeeps (Heap.keeps_refl _))
          fun hexact => ⟨rfl, rfl, (hself.reports hexact).address⟩
      have hback : m.heap.builtin a = { made.2.heap.builtin m.heap.builtins.size with
          supplied := (m.heap.builtin a).supplied } := by
        rw [hread]
      have hop' : (made.2.heap.builtin m.heap.builtins.size).op.Uniform m.heap.selfLinks := by
        rwa [hread]
      have hsplit : List.Forall₂ m.heap.selfLinks.Joins
          ((made.2.heap.builtin m.heap.builtins.size).supplied ++ ys)
          ((m.heap.builtin a).supplied ++ (xs ++ ys)) := by
        rwa [hread, List.append_assoc]
      obtain ⟨k, hk⟩ := hsame (applyBuiltin_matched (hfollows n) hback hop' hsplit hm₁) hn
      exact ⟨k, hk.symm⟩
  · intro f args env n hf hargs hr hfits
    have hjoins : ∀ t ∈ args, m.heap.selfLinks.Joins t t := fun t ht => (hargs t ht).holds.joins
    obtain ⟨r', ⟨k, hk⟩, hresult⟩ := apply_matched (plain_follows none True m.heap.selfLinks n)
      hf.holds.joins (List.forall₂_same.2 hjoins) (fun t ht => (hargs t ht).isReady) hself hfits hr
    have hrun : SameRun m.heap _ r' := hresult
    have hnested := apps_matched (n := k) env hf.holds.joins hf.isReady
      (fun t ht => ⟨hjoins t ht, (hargs t ht).isReady⟩) hself
    have hmiddle : (force (evaluate none k) f >>=
        fun g => applyEach (evaluate none k) k g args) m = r' := hk k le_rfl
    rw [hmiddle] at hnested
    obtain ⟨j, hj⟩ := hsame hnested (hrun.finished hr)
    exact ⟨j, hrun.trans hj⟩

/-- The standard operations, and one that forces two arguments in turn, records what it gets and
returns the last. -/
def Builtins.sequencing : Builtins := Builtins.standard.insert "seq" 2 (Probe.op "seq" .seq)

theorem arguments_one_by_one_sequencing :
    let m := Machine.ofBuiltins .sequencing false
    (m.heap.builtin 12).name = "seq" ∧
    EndAlike (SameRun m.heap) (fun n => applyBuiltin (evaluate none n) 12 [.int 1, .builtin 0] m)
      (fun n => applyBuiltin (evaluate none n) m.heap.builtins.size [.builtin 0]
        (m.newBuiltin { m.heap.builtin 12 with supplied := [.int 1] }).2) ∧
    value? (apply (evaluate none 5) 5 (.builtin 12) [.int 1, .builtin 0] m) = some (.builtin 0) ∧
    (Unshared.after (apply (evaluate none 5) 5 (.builtin 12) [.int 1, .builtin 0] m)).ticks
      = #["seq 1", "seq <builtin !=>"] ∧
    ∃ k, SameRun m.heap (apply (evaluate none 5) 5 (.builtin 12) [.int 1, .builtin 0] m)
      (evaluate none k (.apps (.builtin 12) [.int 1, .builtin 0]) [] m) := by
  intro m
  have hclosed : m.heap.Closed :=
    (Builtins.uniform_standard.insert_probe "seq" 2 .seq).closed
  have hhas : m.heap.Has (.builtin 12) := by
    show 12 < Builtins.sequencing.heap.builtins.size
    decide +kernel
  have hargs : ∀ t ∈ [Term.int 1, .builtin 0], m.heap.Has t := by
    have hfirst : 0 < Builtins.sequencing.heap.builtins.size := by decide +kernel
    simp [Heap.Has, m, Machine.ofBuiltins, hfirst]
  have hsupplied : (m.heap.builtin 12).supplied = [] := by decide +kernel
  have hlt : (m.heap.builtin 12).supplied.length + [Term.int 1].length
      < (m.heap.builtin 12).arity := by
    decide +kernel
  obtain ⟨hsplit, honce⟩ := arguments_one_by_one hclosed
  obtain ⟨-, hsame⟩ := hsplit 12 [.int 1] [.builtin 0] hhas hargs hlt
  have hvalue : value? (apply (evaluate none 5) 5 (.builtin 12) [.int 1, .builtin 0] m)
      = some (.builtin 0) := by
    decide +kernel
  obtain ⟨m₁, hrun⟩ := value?_eq_some.1 hvalue
  rw [hsupplied] at hsame
  refine ⟨by decide +kernel, hsame, hvalue, by decide +kernel,
    honce (.builtin 12) _ [] 5 hhas hargs ?_ ?_⟩
  · rw [hrun]
    exact finished_value
  · rw [hrun]
    intro name arity supplied m' h
    cases h

end Letrec
