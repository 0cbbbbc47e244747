import Mathlib
import Letrec.Proofs.ByName.Recursive
import Letrec.Proofs.Evaluation.Rounds

/-!
# Selections on the machine

A selection tries the members of a table in order.  On the machine, each test suspends the members
that are left, and forces them if it fails.  So the selection goes on as the member that the tag
selects is forced, and the thunks of the tests that failed get the value of this member in the end
(`exists_demands_selection`).
-/

namespace Letrec

open ByName (selected? selected?_singleton ofNat_beq_iff)
open ByName.World (Keeps)

/-! ### What names stand for -/

/-- The name stands for a standard operation. -/
def BindsTo (h : Heap) (env : Env) (x : String) (p : Primitive) : Prop :=
  ∃ a, env.lookup? x = some (.builtin a) ∧ h.builtins[a]? = some (p.builtin [])

/-- The aliases stand for `if` and `==`. -/
structure BindsAliases (h : Heap) (env : Env) : Prop where
  cond : BindsTo h env ifAlias .conditional
  eq : BindsTo h env eqAlias (.comparison "==" (· == ·))

section Binds

variable {h h₁ : Heap} {env : Env} {p : Primitive} {s : String} {u : Term}

lemma BindsTo.mono {x : String} (hh : Keeps h h₁) (hx : BindsTo h env x p) :
    BindsTo h₁ env x p := by
  obtain ⟨a, ha, hp⟩ := hx
  exact ⟨a, ha, hh.builtins a _ hp⟩

lemma BindsAliases.mono (hh : Keeps h h₁) (ha : BindsAliases h env) : BindsAliases h₁ env :=
  ⟨ha.cond.mono hh, ha.eq.mono hh⟩

lemma BindsAliases.extend (ha : BindsAliases h env) (hif : ifAlias ≠ s) (heq : eqAlias ≠ s) :
    BindsAliases h (env.extend s u) := by
  obtain ⟨⟨a, ha, hp⟩, ⟨b, hb, hq⟩⟩ := ha
  exact ⟨⟨a, (lookup?_extend_of_ne hif env u).trans ha, hp⟩,
    ⟨b, (lookup?_extend_of_ne heq env u).trans hb, hq⟩⟩

end Binds

/-! ### What is passed -/

namespace Heap

variable {h h₁ h₂ : Heap} {D D' : Set Term} {t u v : Term} {env : Env} {a : Addr}

/-- An argument `t` is passed as `u`: as it is, as what a variable stands for, or suspended in a
thunk outside of `D`. -/
inductive Passes (D : Set Term) (h : Heap) (t : Term) (env : Env) : Term → Prop
  | new {a : Addr} : .thunk a ∉ D → h.thunks[a]? = some { term := t, env } →
      Passes D h t env (.thunk a)
  | same : t.isReady = true → Passes D h t env t
  | bound {x : String} {u : Term} : t = .var x → env.lookup? x = some u → Passes D h t env u

lemma Waits.mono (ha : h.Waits D a) (hh : Keeps h h₁) (hD : D' ⊆ D) : h₁.Waits D' a := by
  obtain ⟨hmem, c, hc, hunforced⟩ := ha
  exact ⟨fun hmem' => hmem (hD hmem'), c, hh.thunks a c hc, hunforced⟩

lemma Passes.mono (hu : h.Passes D t env u) (hh : Keeps h h₁) : h₁.Passes D t env u := by
  cases hu with
  | new ha hc => exact .new ha (hh.thunks _ _ hc)
  | same ht => exact .same ht
  | bound ht hx => exact .bound ht hx

lemma Passes.of_subset (hu : h.Passes D t env u) (hD : D' ⊆ D) : h.Passes D' t env u := by
  cases hu with
  | new ha hc => exact .new (fun hmem => ha (hD hmem)) hc
  | same ht => exact .same ht
  | bound ht hx => exact .bound ht hx

lemma Passes.memoize (hu : h.Passes D t env u) (ha : .thunk a ∈ D) :
    (h.memoize a v).Passes D t env u := by
  cases hu with
  | same ht => exact .same ht
  | bound ht hx => exact .bound ht hx
  | @new b hb hc =>
    have hne : a ≠ b := by
      rintro rfl
      exact hb ha
    exact .new hb (by rw [thunks_memoize, if_neg hne, hc])

end Heap

namespace EvalM

variable {m m₁ m₂ : Machine} {env : Env} {f arg u : Term} {P : List Addr}
  {x : ℕ → EStateM.Result Halt Machine Term}

lemma exists_passes (t : Term) (env : Env) (m : Machine) : ∃ u m₁, suspend t env m = .ok u m₁ ∧
    Keeps m.heap m₁.heap ∧ m₁.heap.Passes m.heap.contents t env u := by
  rcases suspend_cases t env m with ⟨u, hu, ⟨rfl, hready⟩ | ⟨s, hs, hlookup⟩⟩ | ⟨m₁, hu, hheap⟩
  · exact ⟨u, m, hu, Heap.keeps_refl _, .same hready⟩
  · exact ⟨u, m, hu, Heap.keeps_refl _, .bound hs hlookup⟩
  · obtain ⟨hnone, -⟩ := m.heap.stored?_pushThunk { term := t, env }
    refine ⟨_, m₁, hu, hheap ▸ ByName.World.keeps_pushThunk m.heap _, .new ?_ ?_⟩
    · exact Heap.stored?_eq_none.1 hnone
    · rw [hheap]
      exact m.heap.thunks_pushThunk _

/-! ### Operations -/

/-- An alias evaluates to its operation. -/
lemma takes_alias {s : String} {p : Primitive} (hs : BindsTo m.heap env s p) : ∃ m₁ g,
    m₁.heap = m.heap ∧ Takes (fun n => evaluate none n (.var s) env m) (.builtin g) m₁ ∧
      m₁.heap.builtins[g]? = some (p.builtin []) := by
  obtain ⟨g, hg, hp⟩ := hs
  have hvalue : Takes (fun n => force (evaluate none n) (.builtin g) m.entered) (.builtin g)
      m.entered.entered.left := takes_of_succ fun n => evaluate_none_succ n _ _ _
  obtain ⟨m₁, hheap, htakes⟩ := (becomes_var hg rfl).takes hvalue
  exact ⟨m₁, g, hheap, htakes, hheap ▸ hp⟩

section Operation

variable {g : Addr} {p : Primitive} {args : List Term}
  (hf : Takes (fun n => evaluate none n f env m.entered) (.builtin g) m₁)
  (harg : suspend arg env m₁ = .ok u m₂) (hg : m₂.heap.builtins[g]? = some (p.builtin args))

include hf harg hg

/-- With too few arguments an operation waits for more. -/
lemma takes_partial (hfew : (args ++ [u]).length < p.arity) : ∃ m₃,
    m₃.heap = m₂.heap.pushBuiltin (p.builtin (args ++ [u])) ∧
      Takes (fun n => evaluate none n (.app f arg) env m) (.builtin m₂.heap.builtins.size) m₃ := by
  have hread := Heap.builtin_eq hg
  have hcall : ∀ n, call (evaluate none n) n (.builtin g) u m₂
      = .ok (.builtin m₂.heap.builtins.size) (m₂.newBuiltin (p.builtin (args ++ [u]))).2 := by
    intro n
    rw [call_builtin, applyBuiltin_of_gt _ (by rwa [hread]), hread]
    rfl
  obtain ⟨m₃, hheap, htakes⟩ := (becomes_call hf harg).takes (takes_ok hcall)
  exact ⟨m₃, hheap, htakes⟩

/-- With all its arguments an operation is performed. -/
lemma becomes_operation (hall : (args ++ [u]).length = p.arity) : ∃ m₃, m₃.heap = m₂.heap ∧
    Becomes [] (fun n => evaluate none n (.app f arg) env m)
      fun n => perform (evaluate none n) (p.operation (args ++ [u])) m₃ := by
  have hread := Heap.builtin_eq hg
  have hcall := becomes_call hf harg
  have hperform : ∀ n, call (evaluate none n) n (.builtin g) u m₂
      = perform (evaluate none n) (p.operation (args ++ [u]))
          (m₂.trace fun _ => .invoking (m₂.heap.builtin g).name) := by
    intro n
    rw [call_builtin, applyBuiltin_of_eq _ (by rwa [hread])]
    simp only [hread]
    rfl
  simp only [hperform] at hcall
  exact ⟨_, heap_trace _ _, hcall⟩

end Operation

/-- Two integers are compared. -/
lemma takes_comparison (name : String) (f : Int64 → Int64 → Bool) (i j : Int64) (m : Machine) :
    ∃ m₁, m₁.heap = m.heap ∧ Takes (fun n => perform (evaluate none n)
      ((Primitive.comparison name f).operation [.int i, .int j]) m)
      (.int (if f i j then 1 else 0)) m₁ := by
  have hint : ∀ (i : Int64) (h : Heap), h.asInt? (.int i) = some i :=
    fun i h => Heap.asInt?_eq_some_iff.2 ⟨0, rfl⟩
  have hforce : ∀ (n : ℕ) (i : Int64) (m : Machine),
      force (evaluate none (n + 1)) (.int i) m = .ok (.int i) m.entered.left :=
    fun n i m => evaluate_none_succ n _ _ _
  refine ⟨m.entered.left.entered.left, rfl, 1, fun n hn => ?_, fun n hn => ?_⟩
  · obtain rfl : n = 0 := by omega
    exact ⟨m, rfl⟩
  · obtain ⟨n, rfl⟩ := Nat.exists_eq_add_of_le' hn
    show (force _ _ >>= fun v => perform _ (.asInt v _ _)) m = _
    rw [bind_of_ok (hforce n i m), perform_asInt_of_some _ (hint i _)]
    show (force _ _ >>= fun v => perform _ (.asInt v _ _)) _ = _
    rw [bind_of_ok (hforce n j _), perform_asInt_of_some _ (hint j _)]
    rfl

/-! ### Conditionals -/

/-- A conditional goes on as one of its branches once its condition is known. -/
lemma Becomes.perform_conditional {c t e : Term} {i : Int64} {m₁ : Machine}
    (hx : Becomes P x fun n => perform (evaluate none n) (Operation.conditional [c, t, e]) m)
    (hc : Takes (fun n => force (evaluate none n) c m) (.int i) m₁) :
    Becomes P x fun n => force (evaluate none n) (if i ≠ 0 then t else e) m₁ := by
  obtain ⟨k, hcut, hok⟩ := hc
  refine hx.agree (k := k) (fun n hn => ?_) fun n hn => ?_
  · obtain ⟨m', hm'⟩ := hcut n hn
    exact ⟨m', bind_of_error hm'⟩
  · have hint : m₁.heap.asInt? (.int i) = some i := Heap.asInt?_eq_some_iff.2 ⟨0, rfl⟩
    show (force _ c >>= fun v => perform _ (.asInt v _ _)) m = _
    rw [bind_of_ok (hok n hn), perform_asInt_of_some _ hint]
    show EStateM.bind _ pure m₁ = _
    unfold EStateM.bind
    cases force (evaluate none n) (if i ≠ 0 then t else e) m₁ <;> rfl

/-- The condition and the branches are passed one after another.  A compound condition is suspended
first. -/
lemma becomes_cond (hif : BindsTo m.heap env ifAlias .conditional) {c : Term}
    (hc : c.isReady = false) (hvar : ∀ x, c ≠ .var x) (t e : Term) : ∃ u w m₁,
    Becomes [] (fun n => evaluate none n (.cond c t e) env m) (fun n => perform (evaluate none n)
      (Operation.conditional [.thunk m.heap.thunks.size, u, w]) m₁) ∧
    Keeps (m.heap.pushThunk { term := c, env }) m₁.heap ∧
    m₁.heap.Passes (m.heap.pushThunk { term := c, env }).contents t env u ∧
    m₁.heap.Passes (m.heap.pushThunk { term := c, env }).contents e env w := by
  obtain ⟨m₁, g, hheap₁, hg₁, hb₁⟩ := takes_alias (m := m.entered.entered.entered) hif
  obtain ⟨m₂, hc, hheap₂⟩ := suspend_compound hc hvar env m₁
  have hb₂ : m₂.heap.builtins[g]? = some (Primitive.conditional.builtin []) := hheap₂ ▸ hb₁
  obtain ⟨m₃, hheap₃, hg₃⟩ := takes_partial hg₁ hc hb₂ (by simp [Primitive.arity])
  obtain ⟨u, m₄, hu, hkeeps₄, hpasses⟩ := exists_passes t env m₃
  have hb₄ := hkeeps₄.builtins _ _ (hheap₃ ▸ m₂.heap.builtins_pushBuiltin _)
  obtain ⟨m₅, hheap₅, hg₅⟩ := takes_partial hg₃ hu hb₄ (by simp [Primitive.arity])
  obtain ⟨w, m₆, hw, hkeeps₆, hpasses'⟩ := exists_passes e env m₅
  have hb₆ := hkeeps₆.builtins _ _ (hheap₅ ▸ m₄.heap.builtins_pushBuiltin _)
  obtain ⟨m₇, hheap₇, hbecomes⟩ := becomes_operation hg₅ hw hb₆ rfl
  -- the heap has only been added to
  have hkeeps₃ : Keeps m₂.heap m₃.heap := hheap₃ ▸ ByName.World.keeps_pushBuiltin m₂.heap _
  have hkeeps₅ : Keeps m₄.heap m₅.heap := hheap₅ ▸ ByName.World.keeps_pushBuiltin m₄.heap _
  have hcontents₃ := Heap.contents_mono hkeeps₃
  have hcontents₅ := hcontents₃.trans (Heap.contents_mono (hkeeps₄.trans hkeeps₅))
  have hheap₁' : m₁.heap = m.heap := hheap₁
  rw [hheap₁'] at hheap₂ hbecomes
  rw [← hheap₂]
  refine ⟨u, w, m₇, hbecomes, ?_, ?_, ?_⟩
  · rw [hheap₇]
    exact hkeeps₃.trans (hkeeps₄.trans (hkeeps₅.trans hkeeps₆))
  · rw [hheap₇]
    exact (hpasses.mono (hkeeps₅.trans hkeeps₆)).of_subset hcontents₃
  · rw [hheap₇]
    exact hpasses'.of_subset hcontents₅

/-! ### Tests -/

section Test

variable {tag : Int64} (htag : env.lookup? tagName = some (.int tag))

include htag

lemma takes_tagIs (heq : BindsTo m.heap env eqAlias (.comparison "==" (· == ·)))
    (id : DispatchId) : ∃ m₁, Keeps m.heap m₁.heap ∧
      Takes (fun n => evaluate none n (.tagIs id) env m)
        (.int (if tag == Int64.ofNat id then 1 else 0)) m₁ := by
  obtain ⟨m₁, g, hheap₁, hg, hb⟩ := takes_alias (m := m.entered.entered) heq
  have hvar : suspend (.var tagName) env m₁ = .ok (.int tag) m₁ := by
    rw [suspend_var_of_some htag]
    rfl
  obtain ⟨m₂, hheap₂, hg₂⟩ :=
    takes_partial hg hvar hb (by simp [Primitive.comparison, Primitive.arity])
  have hb₂ := m₁.heap.builtins_pushBuiltin
    ((Primitive.comparison "==" (· == ·)).builtin [.int tag])
  have hid : suspend (.ofId id) env m₂ = .ok (.ofId id) m₂ := rfl
  obtain ⟨m₃, hheap₃, hbecomes⟩ := becomes_operation hg₂ hid (hheap₂ ▸ hb₂) rfl
  obtain ⟨m₄, hheap₄, htakes⟩ := takes_comparison "==" (· == ·) tag (Int64.ofNat id) m₃
  obtain ⟨m₅, hheap₅, htakes'⟩ := hbecomes.takes htakes
  refine ⟨m₅, ?_, htakes'⟩
  rw [hheap₅, hheap₄, hheap₃, hheap₂, hheap₁]
  exact ByName.World.keeps_pushBuiltin m.heap _

/-- A suspended test gets its value. -/
lemma takes_test {a : Addr} {id : DispatchId} (heq : BindsTo m.heap env eqAlias
      (.comparison "==" (· == ·))) (ha : m.heap.thunks[a]? = some { term := .tagIs id, env }) :
    ∃ h₁ m₁, Keeps m.heap h₁ ∧
      m₁.heap = h₁.memoize a (.int (if tag == Int64.ofNat id then 1 else 0)) ∧
      Takes (fun n => force (evaluate none n) (.thunk a) m)
        (.int (if tag == Int64.ofNat id then 1 else 0)) m₁ := by
  obtain ⟨m₁, hheap₁, hforce⟩ := forceThunk_eq ha rfl
  obtain ⟨m₂, hkeeps, htakes⟩ := takes_tagIs (m := m₁) htag (hheap₁ ▸ heq) id
  rw [hheap₁] at hkeeps
  have hnone : m₂.heap.memo? a = none := Heap.memo?_eq (hkeeps.thunks a _ ha)
  obtain ⟨m₃, hheap₃, htakes'⟩ := htakes.memoize hnone
  exact ⟨m₂.heap, m₃, hkeeps, hheap₃, by simpa only [force, hforce] using htakes'⟩

/-- A test goes on as the branch that the tag selects is forced. -/
lemma becomes_test (ha : BindsAliases m.heap env) {id : DispatchId} (hid : id < dispatchIdBound)
    (t e : Term) : ∃ u m₁,
    Becomes [] (fun n => evaluate none n (.cond (.tagIs id) t e) env m)
      (fun n => force (evaluate none n) u m₁) ∧
    Keeps m.heap m₁.heap ∧
    m₁.heap.Passes m.heap.contents (if (id : ℤ) = tag.toInt then t else e) env u := by
  obtain ⟨u, w, m₁, hbecomes, hkeeps₁, hu, hw⟩ := becomes_cond ha.cond (c := .tagIs id) rfl
    (by simp [Term.tagIs, Term.apps]) t e
  have hkeeps := ByName.World.keeps_pushThunk m.heap { term := .tagIs id, env }
  have hthunk := m.heap.thunks_pushThunk { term := .tagIs id, env }
  have hnew := Heap.stored?_eq_none.1 (m.heap.stored?_pushThunk { term := .tagIs id, env }).1
  obtain ⟨h₁, m₂, hkeeps₂, hheap₂, htest⟩ := takes_test htag (ha.eq.mono (hkeeps.trans hkeeps₁))
    (hkeeps₁.thunks _ _ hthunk)
  have hpasses : ∀ {t u : Term},
      m₁.heap.Passes (m.heap.pushThunk { term := .tagIs id, env }).contents t env u →
      m₂.heap.Passes m.heap.contents t env u := by
    intro t u hu
    have hmemoized := (hu.mono hkeeps₂).memoize (v := .int (if tag == Int64.ofNat id then 1 else 0))
      (Heap.thunk_mem_contents hthunk)
    rw [← hheap₂] at hmemoized
    exact hmemoized.of_subset (Heap.contents_mono hkeeps)
  refine ⟨_, m₂, hbecomes.perform_conditional htest, ?_, ?_⟩
  · rw [hheap₂]
    exact Heap.keeps_memoize (hkeeps.trans (hkeeps₁.trans hkeeps₂)) hnew _
  · have hiff := ofNat_beq_iff hid tag
    cases hbeq : tag == Int64.ofNat id with
    | true =>
      rw [if_pos (hiff.1 hbeq)]
      exact hpasses hu
    | false =>
      rw [if_neg fun h => Bool.false_ne_true (hbeq.symm.trans (hiff.2 h))]
      exact hpasses hw

end Test

/-! ### Selections -/

/-- A run from the heap `h` goes on as the argument `code`, which has been passed as `u`, is forced.
The thunks `P`, which are new, get the value that this ends with. -/
structure Demands (h : Heap) (x : ℕ → EStateM.Result Halt Machine Term) (code : Term) (env : Env)
    (P : List Addr) (u : Term) (m : Machine) : Prop where
  becomes : Becomes P x fun n => force (evaluate none n) u m
  keeps : Keeps h m.heap
  nodup : P.Nodup
  waits : ∀ a ∈ P, m.heap.Waits h.contents a
  passes : m.heap.Passes (h.contents ∪ {t | ∃ a ∈ P, t = .thunk a}) code env u

section Demands

variable {h : Heap} {code : Term} (hx : Becomes [] x fun n => force (evaluate none n) u m₁)
  (hkeeps : Keeps h m₁.heap)

include hx hkeeps

lemma demands_of_passes (hu : m₁.heap.Passes h.contents code env u) :
    Demands h x code env [] u m₁ :=
  ⟨hx, hkeeps, List.nodup_nil, by simp, hu.of_subset (by simp)⟩

/-- A suspended application is forced, which demands the argument. -/
lemma exists_demands_of_app (hu : m₁.heap.Passes h.contents (.app f arg) env u)
    (happ : ∀ m₂ : Machine, m₂.heap = m₁.heap → ∃ P w m₃,
      Demands m₂.heap (fun n => evaluate none n (.app f arg) env m₂) code env P w m₃) :
    ∃ P w m₃, Demands h x code env P w m₃ := by
  cases hu with
  | same hready => exact absurd hready (by simp [Term.isReady])
  | bound hvar => exact absurd hvar (by simp)
  | @new a ha hc =>
    obtain ⟨m₂, hheap, hforce⟩ := forceThunk_eq hc rfl
    obtain ⟨P, w, m₃, hdemands⟩ := happ m₂ hheap
    have hkeeps₃ : Keeps m₁.heap m₃.heap := hheap ▸ hdemands.keeps
    have hmem : .thunk a ∈ m₂.heap.contents := hheap ▸ Heap.thunk_mem_contents hc
    have hcontents : h.contents ⊆ m₂.heap.contents := hheap ▸ Heap.contents_mono hkeeps
    refine ⟨a :: P, w, m₃, (hx.memoize fun n => hforce _).trans hdemands.becomes,
      hkeeps.trans hkeeps₃, List.nodup_cons.2 ⟨fun haP => (hdemands.waits a haP).1 hmem,
        hdemands.nodup⟩, ?_, hdemands.passes.of_subset ?_⟩
    · refine List.forall_mem_cons.2 ⟨⟨ha, _, hkeeps₃.thunks a _ hc, rfl, by simp⟩, fun b hb => ?_⟩
      exact (hdemands.waits b hb).mono (Heap.keeps_refl _) hcontents
    · rintro t (ht | ⟨b, hb, rfl⟩)
      · exact Or.inl (hcontents ht)
      · rcases List.mem_cons.1 hb with rfl | hb
        · exact Or.inl hmem
        · exact Or.inr ⟨b, hb, rfl⟩

end Demands

/-- A selection demands the selected member. -/
lemma exists_demands_selection {tag : Int64} (htag : env.lookup? tagName = some (.int tag))
    (ha : BindsAliases m.heap env) {p q : DispatchId × Term} {ms : List (DispatchId × Term)}
    (hbound : ∀ r ∈ p :: q :: ms, r.1 < dispatchIdBound) {code : Term}
    (hcode : selected? tag (p :: q :: ms) = some code) :
    ∃ P u m₁,
      Demands m.heap (fun n => evaluate none n (.selection p (q :: ms)) env m) code env P u m₁ := by
  induction ms generalizing p q m with
  | nil =>
    obtain ⟨u, m₁, hbecomes, hkeeps, hpasses⟩ :=
      becomes_test htag ha (hbound p List.mem_cons_self) p.2 q.2
    rw [ByName.selected?_cons_cons, selected?_singleton, ← apply_ite some, Option.some.injEq]
      at hcode
    exact ⟨[], u, m₁, demands_of_passes hbecomes hkeeps (hcode ▸ hpasses)⟩
  | cons r ms ih =>
    obtain ⟨hp, hbound⟩ := List.forall_mem_cons.1 hbound
    obtain ⟨u, m₁, hbecomes, hkeeps, hpasses⟩ :=
      becomes_test htag ha hp p.2 (.selection q (r :: ms))
    rw [ByName.selected?_cons_cons] at hcode
    by_cases heq : (p.1 : ℤ) = tag.toInt
    · rw [if_pos heq, Option.some.injEq] at hcode
      rw [if_pos heq, hcode] at hpasses
      exact ⟨[], u, m₁, demands_of_passes hbecomes hkeeps hpasses⟩
    · rw [if_neg heq] at hcode hpasses
      refine exists_demands_of_app hbecomes hkeeps hpasses fun m₂ hheap => ?_
      exact ih (ha.mono (hheap ▸ hkeeps)) hbound hcode

end EvalM

end Letrec
