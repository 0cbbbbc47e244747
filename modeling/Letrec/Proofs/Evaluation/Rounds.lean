import Mathlib
import Letrec.Proofs.Evaluation.Once
import Letrec.Proofs.Links.Machine

/-!
# Rounds of evaluation

A call of a function goes on as the evaluation of its body, some rounds later (`Becomes`).  This is
about one evaluation within all bounds: the bounds that do not reach that far are too small for an
answer.

Where the evaluation on the way has forced thunks, they get the value that the later evaluation ends
with.  `Becomes` lists them.
-/

namespace Letrec.EvalM

variable {x y z : ℕ → EStateM.Result Halt Machine Term} {r : EStateM.Result Halt Machine Term}
  {F F' : List Ending} {P Q : List Addr} {a : Addr} {v : Term} {m : Machine}

/-- The run was cut short. -/
def Cut (r : EStateM.Result Halt Machine Term) : Prop := ∃ m, r = .error .outOfFuel m

/-- There is a bound from which on the answer is this value; below it the run is cut short. -/
def Takes (x : ℕ → EStateM.Result Halt Machine Term) (v : Term) (m : Machine) : Prop :=
  ∃ k, (∀ n < k, Cut (x n)) ∧ ∀ n, k ≤ n → x n = .ok v m

/-! ### The way back -/

/-- What is done when an evaluation has ended: it is no longer under way, or a thunk gets its
value. -/
inductive Ending where
  | leave
  | memoize (a : Addr)

namespace Ending

/-- The result after that. -/
def apply : Ending → EStateM.Result Halt Machine Term → EStateM.Result Halt Machine Term
  | .leave, r => leaving r
  | .memoize a, .ok v m => .ok (m.memoize a v).1 (m.memoize a v).2
  | .memoize _, .error e m => .error e m

/-- The thunk that gets a value. -/
def addr? : Ending → Option Addr
  | .leave => none
  | .memoize a => some a

end Ending

/-- The result after all of `F`, of which the last is done first. -/
def windUp (F : List Ending) (r : EStateM.Result Halt Machine Term) :
    EStateM.Result Halt Machine Term := F.foldr Ending.apply r

/-- The first run goes on as the second one within a bound that is smaller, or is cut short.  The
thunks `P` get the value that the second run ends with. -/
def Becomes (P : List Addr) (x y : ℕ → EStateM.Result Halt Machine Term) : Prop :=
  ∃ d e F, F.filterMap Ending.addr? = P ∧ e < d ∧ (∀ n < d, Cut (x n)) ∧
    ∀ n, x (n + d) = windUp F (y (n + e))

lemma windUp_append (F F' : List Ending) (r : EStateM.Result Halt Machine Term) :
    windUp (F ++ F') r = windUp F (windUp F' r) := List.foldr_append

lemma finished_apply (e : Ending) : Finished OutOfFuel (e.apply r) ↔ Finished OutOfFuel r := by
  cases e with
  | leave => exact finished_leaving
  | memoize a =>
    cases r with
    | ok v m => exact iff_of_true finished_value finished_value
    | error e m => exact Iff.rfl

lemma finished_windUp : Finished OutOfFuel (windUp F r) ↔ Finished OutOfFuel r := by
  induction F with
  | nil => exact Iff.rfl
  | cons e F ih => exact (finished_apply e).trans ih

lemma Cut.windUp (h : Cut r) : Cut (windUp F r) := by
  induction F with
  | nil => exact h
  | cons e F ih =>
    obtain ⟨m, hm⟩ := ih
    have hcons : EvalM.windUp (e :: F) r = e.apply (EvalM.windUp F r) := rfl
    cases e with
    | leave => exact ⟨m.left, by rw [hcons, hm]; rfl⟩
    | memoize a => exact ⟨m, by rw [hcons, hm]; rfl⟩

/-- Where no thunk gets the value, nothing happens to the heap. -/
lemma windUp_ok (hF : F.filterMap Ending.addr? = []) :
    ∃ m₁, m₁.heap = m.heap ∧ windUp F (.ok v m) = .ok v m₁ := by
  induction F with
  | nil => exact ⟨m, rfl, rfl⟩
  | cons e F ih =>
    cases e with
    | memoize a => exact absurd hF (by simp [Ending.addr?])
    | leave =>
      obtain ⟨m₁, hheap, hok⟩ := ih hF
      refine ⟨m₁.left, hheap, ?_⟩
      show leaving (windUp F (.ok v m)) = _
      rw [hok]
      rfl

/-- The value is remembered. -/
lemma bind_memoize (x : EvalM Term) (a : Addr) (m : Machine) :
    (x >>= fun v => modifyGet (·.memoize a v)) m = (Ending.memoize a).apply (x m) := by
  show EStateM.bind _ _ _ = _
  unfold EStateM.bind
  cases x m <;> rfl

lemma Takes.memoize (h : Takes x v m) (hnone : m.heap.memo? a = none) :
    ∃ m₁, m₁.heap = m.heap.memoize a v ∧ Takes (fun n => (Ending.memoize a).apply (x n)) v m₁ := by
  obtain ⟨k, hcut, hok⟩ := h
  refine ⟨(m.memoize a v).2, rfl, k, fun n hn => ?_, fun n hn => ?_⟩
  · obtain ⟨m', hm'⟩ := hcut n hn
    exact ⟨m', congrArg (Ending.memoize a).apply hm'⟩
  · have hv : (m.memoize a v).1 = v := by rw [Machine.memoize, hnone, Option.getD_none]
    dsimp only
    rw [hok n hn, Ending.apply, hv]

namespace Becomes

lemma trans (hxy : Becomes P x y) (hyz : Becomes Q y z) : Becomes (P ++ Q) x z := by
  obtain ⟨d, e, F, rfl, hed, hcut, hx⟩ := hxy
  obtain ⟨d', e', F', rfl, hed', hcut', hy⟩ := hyz
  -- if the second run starts within too small a bound, the first one needs more
  refine ⟨d + (d' - e), e - d' + e', F ++ F', List.filterMap_append, by omega, fun n hn => ?_,
    fun n => ?_⟩
  · rcases Nat.lt_or_ge n d with hlt | hle
    · exact hcut n hlt
    · obtain ⟨k, rfl⟩ := Nat.exists_eq_add_of_le' hle
      rw [hx k]
      exact (hcut' _ (by omega)).windUp
  · have hx' : x (n + (d + (d' - e))) = windUp F (y (n + (d' - e) + e)) := by
      rw [← hx]
      congr 1
      omega
    have hy' : y (n + (d' - e) + e) = windUp F' (z (n + (e - d' + e'))) := by
      obtain ⟨k, hk⟩ : ∃ k, n + (d' - e) + e = k + d' := ⟨n + (d' - e) + e - d', by omega⟩
      rw [hk, hy]
      congr 2
      omega
    rw [hx', hy', windUp_append]

/-- Two runs are the same within the bounds that are large enough for an answer. -/
lemma agree (hxy : Becomes P x y) {k : ℕ} (hcut : ∀ n < k, Cut (y n))
    (heq : ∀ n, k ≤ n → y n = z n) : Becomes P x z := by
  obtain ⟨d, e, F, rfl, hed, hcut', hx⟩ := hxy
  refine ⟨d + (k - e), e + (k - e), F, rfl, by omega, fun n hn => ?_, fun n => ?_⟩
  · rcases Nat.lt_or_ge n d with hlt | hle
    · exact hcut' n hlt
    · obtain ⟨j, rfl⟩ := Nat.exists_eq_add_of_le' hle
      rw [hx j]
      exact (hcut _ (by omega)).windUp
  · have hn : n + (d + (k - e)) = n + (k - e) + d := by omega
    have hn' : n + (k - e) + e = n + (e + (k - e)) := by omega
    rw [hn, hx, heq _ (by omega), hn']

/-- The value of the second run is remembered. -/
lemma memoize (hxy : Becomes P x y) (hy : ∀ n, y n = (Ending.memoize a).apply (z n)) :
    Becomes (P ++ [a]) x z := by
  obtain ⟨d, e, F, rfl, hed, hcut, hx⟩ := hxy
  refine ⟨d, e, F ++ [.memoize a], List.filterMap_append, hed, hcut, fun n => ?_⟩
  rw [hx, hy, windUp_append]
  rfl

lemma takes (hxy : Becomes [] x y) (hy : Takes y v m) :
    ∃ m₁, m₁.heap = m.heap ∧ Takes x v m₁ := by
  obtain ⟨d, e, F, hF, -, hcut, hx⟩ := hxy
  obtain ⟨k, hcut', hok⟩ := hy
  obtain ⟨m₁, hheap, hwind⟩ := windUp_ok (v := v) (m := m) hF
  refine ⟨m₁, hheap, d + (k - e), fun n hn => ?_, fun n hn => ?_⟩
  · rcases Nat.lt_or_ge n d with hlt | hle
    · exact hcut n hlt
    · obtain ⟨j, rfl⟩ := Nat.exists_eq_add_of_le' hle
      rw [hx j]
      exact (hcut' _ (by omega)).windUp
  · obtain ⟨j, rfl⟩ := Nat.exists_eq_add_of_le' (le_trans (Nat.le_add_right d _) hn)
    rw [hx, hok _ (by omega), hwind]

end Becomes

end Letrec.EvalM

namespace Letrec

/-! ### Leaving objects alone -/

namespace Heap

variable {D D' : Set Term} {h h₁ h₂ : Heap} {t : Term} {a : Addr}

/-- What has been added gets a value. -/
lemma keeps_memoize (hh : ByName.World.Keeps h h₁) (ha : .thunk a ∉ h.contents) (v : Term) :
    ByName.World.Keeps h (h₁.memoize a v) where
  closures := hh.closures
  builtins := hh.builtins
  thunks b c hc := by
    have hne : a ≠ b := by
      rintro rfl
      exact ha (thunk_mem_contents hc)
    rw [thunks_memoize, if_neg hne]
    exact hh.thunks b c hc

/-- The heap gets older, and the objects in `D` stay as they are. -/
structure Spares (D : Set Term) (h h₁ : Heap) : Prop where
  ages : h.Ages D D h₁
  same : ∀ t ∈ D, h₁.stored? t = h.stored? t

lemma Spares.trans (hh : h.Spares D h₁) (hh₁ : h₁.Spares D h₂) : h.Spares D h₂ :=
  ⟨hh.ages.trans hh₁.ages, fun t ht => (hh₁.same t ht).trans (hh.same t ht)⟩

lemma Spares.subset_contents (hh : h.Spares D h₁) (hD : D ⊆ h.contents) :
    D ⊆ h₁.contents := by
  intro t ht
  obtain ⟨o, ho⟩ := hD ht
  exact ⟨o, (hh.same t ht).trans ho⟩

/-- Objects are added. -/
lemma spares_of_keeps (hD : D ⊆ h.contents)
    (hh : ByName.World.Keeps h h₁) : h.Spares D h₁ := by
  refine ⟨ages_of_keeps hh fun t ht => Or.inl ht, fun t ht => ?_⟩
  obtain ⟨o, ho⟩ := hD ht
  rw [ho, stored?_of_keeps hh ho]

/-- If all objects stay as they are, the heap has only been added to. -/
lemma Spares.keeps (hh : h.Spares h.contents h₁) : ByName.World.Keeps h h₁ where
  closures := hh.ages.closure
  thunks a c hc := by
    have hsame := hh.same _ (thunk_mem_contents hc)
    obtain ⟨b, heq, hb⟩ := stored?_eq_thunk.1 (hsame.trans (stored?_eq_thunk.2 ⟨a, rfl, hc⟩))
    exact Term.thunk.inj heq ▸ hb
  builtins a c hc := by
    have hstored := stored?_eq_builtin.2 ⟨a, rfl, hc⟩
    obtain ⟨b, heq, hb⟩ := stored?_eq_builtin.1 ((hh.same _ ⟨_, hstored⟩).trans hstored)
    exact Term.builtin.inj heq ▸ hb

/-- A suspended function gets its value. -/
lemma spares_memoize {c : Thunk} {v : Term} (hc : h.thunks[a]? = some c) (hv : h.Makes c v)
    (ha : .thunk a ∉ D) : h.Spares D (h.memoize a v) := by
  refine ⟨ages_memoize_makes hc hv, fun t ht => stored?_memoize_of_ne v ?_⟩
  rintro rfl
  exact ha ht

/-- A suspended function gets a new closure for a value. -/
lemma spares_value {c : Thunk} {s : String} {b : Term} (hc : h.thunks[a]? = some c)
    (hterm : c.term = .lam s b) (ha : .thunk a ∉ D) :
    (h.pushClosure { param := s, body := b, env := c.env }).Spares D
      ((h.pushClosure { param := s, body := b, env := c.env }).memoize a
        (.closure h.closures.size)) :=
  spares_memoize ((ByName.World.keeps_pushClosure h _).thunks a c hc)
    ⟨s, b, _, hterm, rfl, h.closures_pushClosure _⟩ ha

/-- A thunk outside of `D` holds a function, or the closure that the function evaluates to. -/
def Suspends (D : Set Term) (h : Heap) (a : Addr) (s : String) (b : Term) (env : Env) : Prop :=
  .thunk a ∉ D ∧ ∃ c, h.thunks[a]? = some c ∧ c.term = .lam s b ∧ c.env = env ∧
    ∀ v, c.memo = some v → h.Makes c v

/-- A new thunk has no value yet. -/
lemma suspends_pushThunk (hD : D ⊆ h.contents) (s : String) (b : Term)
    (env : Env) : (h.pushThunk { term := .lam s b, env }).Suspends D h.thunks.size s b env := by
  refine ⟨fun hmem => ?_, { term := .lam s b, env }, ?_, rfl, rfl, fun v hv => ?_⟩
  · exact stored?_eq_none.1 (h.stored?_pushThunk { term := .lam s b, env }).1 (hD hmem)
  · simp [pushThunk]
  · cases hv

lemma Suspends.ages {s : String} {b : Term} {env : Env} (hf : h.Suspends D a s b env)
    (hh : h.Ages D D' h₁) : h₁.Suspends D' a s b env := by
  obtain ⟨ha, c, hc, hterm, henv, hmemo⟩ := hf
  obtain ⟨ha', c₁, hc₁, hterm₁, henv₁, -, hgot⟩ := hh.thunk a c hc ha
  refine ⟨ha', c₁, hc₁, hterm₁.trans hterm, henv₁.trans henv, fun v hv => ?_⟩
  rcases hgot v hv with hv | hv
  · exact (hmemo v hv).mono hh.closure hterm₁ henv₁
  · exact hv.mono (fun _ _ hc => hc) hterm₁ henv₁

/-- A thunk outside of `D` that holds something else than a function has no value yet. -/
def Waits (D : Set Term) (h : Heap) (a : Addr) : Prop :=
  .thunk a ∉ D ∧ ∃ c, h.thunks[a]? = some c ∧ c.memo = none ∧ ∀ s b, c.term ≠ .lam s b

lemma Waits.ages (ha : h.Waits D a) (hh : h.Ages D D' h₁) : h₁.Waits D' a := by
  obtain ⟨hmem, c, hc, hmemo, hterm⟩ := ha
  obtain ⟨hmem', c₁, hc₁, hterm₁, -, -, hgot⟩ := hh.thunk a c hc hmem
  refine ⟨hmem', c₁, hc₁, ?_, hterm₁ ▸ hterm⟩
  cases hv : c₁.memo with
  | none => rfl
  | some v =>
    rcases hgot v hv with hv | ⟨s, b, _, hlam, -⟩
    · exact absurd (hmemo.symm.trans hv) (by simp)
    · exact absurd hlam (hterm s b)

lemma Waits.memo? (ha : h.Waits D a) : h.memo? a = none := by
  obtain ⟨-, c, hc, hmemo, -⟩ := ha
  rw [memo?_eq hc, hmemo]

lemma thunks_memoize_of_ne {b : Addr} (hne : a ≠ b) (v : Term) :
    (h.memoize a v).thunks[b]? = h.thunks[b]? := by
  rw [thunks_memoize, if_neg hne]

end Heap

/-! ### Values of functions -/

namespace EvalM

variable {m : Machine} {env : Env} {s : String} {b : Term}

lemma cut_zero (t : Term) (env : Env) (m : Machine) : Cut (evaluate none 0 t env m) := ⟨m, rfl⟩

lemma evaluate_none_succ (n : ℕ) (t : Term) (env : Env) (m : Machine) :
    evaluate none (n + 1) t env m
      = leaving (step (evaluate none n) n t env m.entered) := nested_eq_leaving rfl

lemma takes_of_succ {t v : Term} {m₁ : Machine}
    (h : ∀ n, evaluate none (n + 1) t env m = .ok v m₁) :
    Takes (fun n => evaluate none n t env m) v m₁ := by
  refine ⟨1, fun n hn => ?_, fun n hn => ?_⟩
  · obtain rfl : n = 0 := by omega
    exact cut_zero _ _ _
  · obtain ⟨n, rfl⟩ := Nat.exists_eq_add_of_le' hn
    exact h n

/-- A function evaluates to a new closure. -/
lemma takes_lam (s : String) (b : Term) (env : Env) (m : Machine) : ∃ m₁ : Machine,
    m₁.heap = m.heap.pushClosure { param := s, body := b, env } ∧
      ∀ n, evaluate none (n + 1) (.lam s b) env m = .ok (.closure m.heap.closures.size) m₁ := by
  refine ⟨(m.entered.newClosure { param := s, body := b, env }).2.left, rfl, fun n => ?_⟩
  rw [evaluate_none_succ]
  rfl

/-! ### Forcing -/

lemma takes_ok {x : ℕ → EStateM.Result Halt Machine Term} {v : Term} (hx : ∀ n, x n = .ok v m) :
    Takes x v m := ⟨0, fun n hn => absurd hn n.not_lt_zero, fun n _ => hx n⟩

section Force

variable {a : Addr} {c : Thunk}

/-- A thunk without a value is evaluated, and gets the value. -/
lemma forceThunk_eq (hc : m.heap.thunks[a]? = some c) (hmemo : c.memo = none) :
    ∃ m₁ : Machine, m₁.heap = m.heap ∧
      ∀ ev : Evaluator, forceThunk ev a m = (Ending.memoize a).apply (ev c.term c.env m₁) := by
  have hread := Heap.thunk_eq hc
  have hunforced : (m.heap.thunk a).memo = none := (congrArg Thunk.memo hread).trans hmemo
  refine ⟨m.trace fun h => .forcing a (h.text (m.heap.thunk a).term), heap_trace _ _,
    fun ev => ?_⟩
  rw [forceThunk_of_unforced ev hunforced, bind_memoize, hread]

/-- A suspended function without a value gets a new closure. -/
lemma takes_force_lam {s' : String} (hc : m.heap.thunks[a]? = some c)
    (hterm : c.term = .lam s' b) (hmemo : c.memo = none) :
    ∃ m₁, m₁.heap = (m.heap.pushClosure { param := s', body := b, env := c.env }).memoize a
        (.closure m.heap.closures.size) ∧
      Takes (fun n => forceThunk (evaluate none n) a m) (.closure m.heap.closures.size) m₁ := by
  obtain ⟨m₁, hheap₁, hforce⟩ := forceThunk_eq hc hmemo
  obtain ⟨m₂, hheap₂, hlam⟩ := takes_lam s' b c.env m₁
  rw [hheap₁] at hheap₂ hlam
  have hnone : m₂.heap.memo? a = none := by
    rw [hheap₂, Heap.memo?, Heap.pushClosure, hc, Option.bind_some, hmemo]
  obtain ⟨m₃, hheap₃, htakes⟩ := (takes_of_succ hlam).memoize hnone
  simp only [hforce, hterm]
  exact ⟨m₃, hheap₂ ▸ hheap₃, htakes⟩

/-- A suspended function has the closure in its memo cell for a value, or a new one, which is
remembered. -/
lemma takes_force {D : Set Term} {s' : String} {env' : Env} (hf : m.heap.Suspends D a s' b env')
    (hD : D ⊆ m.heap.contents) : ∃ m₁ f,
      Takes (fun n => forceThunk (evaluate none n) a m) (.closure f) m₁ ∧
      m.heap.Spares D m₁.heap ∧
      m₁.heap.closures[f]? = some { param := s', body := b, env := env' } := by
  obtain ⟨ha, c, hc, hterm, rfl, hmade⟩ := hf
  cases hv : c.memo with
  | some v =>
    obtain ⟨x, b', f, hterm', rfl, hclosure⟩ := hmade v hv
    obtain ⟨rfl, rfl⟩ := Term.lam.inj (hterm.symm.trans hterm')
    have hmemo? : m.heap.memo? a = some (.closure f) := by
      rw [Heap.memo?_eq hc, hv]
    exact ⟨m, f, takes_ok fun n => forceThunk_of_memo? hmemo? _,
      Heap.spares_of_keeps hD (Heap.keeps_refl _), hclosure⟩
  | none =>
    obtain ⟨m₁, hheap, htakes⟩ := takes_force_lam hc hterm hv
    have hkeeps := ByName.World.keeps_pushClosure m.heap { param := s', body := b, env := c.env }
    have hclosure := m.heap.closures_pushClosure { param := s', body := b, env := c.env }
    refine ⟨m₁, _, htakes, ?_, hheap ▸ hclosure⟩
    rw [hheap]
    exact (Heap.spares_of_keeps hD hkeeps).trans (Heap.spares_value hc hterm ha)

/-- A variable forces what it stands for. -/
lemma becomes_var {u : Term} (hs : env.lookup? s = some u) (hu : u.isReady = true) :
    Becomes [] (fun n => evaluate none n (.var s) env m)
      fun n => force (evaluate none n) u m.entered := by
  refine ⟨1, 0, [.leave], rfl, Nat.one_pos, fun n hn => ?_, fun n => ?_⟩
  · obtain rfl : n = 0 := by omega
    exact cut_zero _ _ _
  · dsimp only
    rw [evaluate_none_succ]
    unfold step
    dsimp only
    rw [hs]
    -- objects and integers evaluate to themselves in every environment
    cases u with
    | thunk a => rfl
    | var x => cases hu
    | lam x b => cases hu
    | app f a => cases hu
    | _ => cases n <;> rfl

lemma takes_var {D : Set Term} {s' : String} {env' : Env} (hs : env.lookup? s = some (.thunk a))
    (hf : m.heap.Suspends D a s' b env') (hD : D ⊆ m.heap.contents) : ∃ m₁ f,
      Takes (fun n => evaluate none n (.var s) env m) (.closure f) m₁ ∧
      m.heap.Spares D m₁.heap ∧
      m₁.heap.closures[f]? = some { param := s', body := b, env := env' } := by
  obtain ⟨m₁, f, htakes, hspares, hclosure⟩ := takes_force (m := m.entered) hf hD
  obtain ⟨m₂, hheap, htakes'⟩ := (becomes_var hs rfl).takes htakes
  exact ⟨m₂, f, htakes', hheap ▸ hspares, hheap ▸ hclosure⟩

end Force

/-! ### Calls -/

/-- A compound argument is suspended in a new thunk. -/
lemma suspend_compound {t : Term} (ht : t.isReady = false) (hvar : ∀ x, t ≠ .var x) (env : Env)
    (m : Machine) : ∃ m₁, suspend t env m = .ok (.thunk m.heap.thunks.size) m₁ ∧
      m₁.heap = m.heap.pushThunk { term := t, env } := by
  rcases suspend_cases t env m with ⟨u, -, ⟨-, hready⟩ | ⟨x, hx, -⟩⟩ | h
  · exact absurd hready (by simp [ht])
  · exact absurd hx (hvar x)
  · exact h

section Call

variable {f arg u : Term} {m₁ m₂ : Machine}

/-- An application goes on as a call, once it is known what is called. -/
lemma becomes_call {v : Term} (hf : Takes (fun n => evaluate none n f env m.entered) v m₁)
    (harg : suspend arg env m₁ = .ok u m₂) :
    Becomes [] (fun n => evaluate none n (.app f arg) env m)
      fun n => call (evaluate none n) n v u m₂ := by
  obtain ⟨k, hcut, hok⟩ := hf
  have hstep : ∀ n, evaluate none (n + 1) (.app f arg) env m
      = leaving ((evaluate none n f env >>= fun f =>
        suspend arg env >>= call (evaluate none n) n f) m.entered) := fun n =>
    evaluate_none_succ n (.app f arg) env m
  refine ⟨k + 1, k, [.leave], rfl, Nat.lt_succ_self k, fun n hn => ?_, fun n => ?_⟩
  · cases n with
    | zero => exact cut_zero _ _ _
    | succ n =>
      obtain ⟨m', hm'⟩ := hcut n (by omega)
      dsimp only
      rw [hstep, bind_of_error hm']
      exact ⟨_, rfl⟩
  · dsimp only
    rw [← Nat.add_assoc, hstep, bind_of_ok (hok (n + k) (by omega)), bind_of_ok harg]
    rfl

/-- A call of a known function goes on as the evaluation of its body. -/
lemma becomes_app {g : Addr} {c : Closure}
    (hf : Takes (fun n => evaluate none n f env m.entered) (.closure g) m₁)
    (harg : suspend arg env m₁ = .ok u m₂) (hg : m₂.heap.closures[g]? = some c) :
    Becomes [] (fun n => evaluate none n (.app f arg) env m)
      fun n => evaluate none n c.body (c.env.extend c.param u) m₂ := by
  have hcall := becomes_call hf harg
  simp only [call_closure_of_get _ _ _ hg] at hcall
  exact hcall

end Call

/-- A function that is written down is called with another one. -/
lemma becomes_redex {D : Set Term} (hD : D ⊆ m.heap.contents) (s : String)
    (b : Term) (s' : String) (b' : Term) (env : Env) : ∃ m₁ a, m.heap.Spares D m₁.heap ∧
      m₁.heap.Suspends D a s' b' env ∧
      Becomes [] (fun n => evaluate none n (.app (.lam s b) (.lam s' b')) env m)
        fun n => evaluate none n b (env.extend s (.thunk a)) m₁ := by
  obtain ⟨m₁, hheap, hlam⟩ := takes_lam s b env m.entered
  obtain ⟨m₂, hsuspend, hheap'⟩ := suspend_compound (t := .lam s' b') rfl (by simp) env m₁
  have hspares : m.heap.Spares D m₁.heap :=
    hheap ▸ Heap.spares_of_keeps hD (ByName.World.keeps_pushClosure m.heap _)
  have hspares' : m₁.heap.Spares D m₂.heap :=
    hheap' ▸ Heap.spares_of_keeps (hspares.subset_contents hD)
      (ByName.World.keeps_pushThunk m₁.heap _)
  have hclosure : m₂.heap.closures[m.heap.closures.size]?
      = some { param := s, body := b, env } := by
    rw [hheap', hheap]
    simp [Heap.pushThunk, Heap.pushClosure, Machine.entered]
  exact ⟨m₂, _, hspares.trans hspares',
    hheap' ▸ Heap.suspends_pushThunk (hspares.subset_contents hD) s' b' env,
    becomes_app (takes_of_succ hlam) hsuspend hclosure⟩

end EvalM

end Letrec
