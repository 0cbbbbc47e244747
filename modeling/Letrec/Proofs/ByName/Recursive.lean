import Mathlib
import Letrec.Term.Recursive
import Letrec.Proofs.Lookup
import Letrec.Proofs.Follows
import Letrec.Proofs.ByName.Evaluation

/-!
# What the terms that encode recursion do

Evaluated by name, a fixed point is its body under a binding of the name to the fixed point again
(`IsFix.unfold`).  The object that it is again is not literally the same: each unfolding leaves one
more half of the combinator around.  `IsFix` describes all objects that arise.

A dispatch table applied to the number of a member is the code of that member (`slower_selection`),
provided that the aliases of `if` and `==` stand for the operations (`Aliased`).
-/

namespace Letrec.ByName

variable {ρ ρ' : Env} {t f a b c : Term} {o : Object} {x : String}

/-! ### Steps -/

lemma delays_evaluate (t : Term) (ρ : Env) :
    Delays (fun n => evaluate n t ρ) fun n => step (evaluate n) t ρ :=
  .of_succ (fun _ => Partial.never_gives) fun _ => rfl

lemma delays_var (h : ρ.lookup x = some o) :
    Delays (fun n => evaluate n (.var x) ρ) fun n => force (evaluate n) o := by
  refine .of_succ (fun _ => Partial.never_gives) fun n => ?_
  show step (evaluate n) (.var x) ρ = _
  simp only [step, h]

lemma delays_app : Delays (fun n => evaluate n (.app f a) ρ)
    fun n => evaluate n f ρ >>= fun w => apply (evaluate n) w (.pair a ρ) :=
  .of_succ (fun _ => Partial.never_gives) fun _ => rfl

lemma slower_int (v : Int64) :
    Slower (fun n => evaluate n (.int v) ρ) fun _ => pure (.int v) :=
  (delays_evaluate (.int v) ρ).slower (growing_const _)

lemma slower_lam : Slower (fun n => evaluate n (.lam x b) ρ) fun _ => pure (.closure x b ρ) :=
  (delays_evaluate (.lam x b) ρ).slower (growing_const _)

lemma slower_var {v : Object} (h : ρ.lookup x = some o)
    (hv : Slower (fun n => force (evaluate n) o) fun _ => pure v) :
    Slower (fun n => evaluate n (.var x) ρ) fun _ => pure v :=
  ((delays_var h).slower (force_growing o)).trans hv

/-- A call of a function that is known. -/
lemma delays_call (h : Slower (fun n => evaluate n f ρ) fun _ => pure (.closure x b ρ')) :
    Delays (fun n => evaluate n (.app f a) ρ) fun n => evaluate n b ((x, .pair a ρ) :: ρ') :=
  delays_app.trans_slower
    (h.bind_value (g := fun n w => apply (evaluate n) w (.pair a ρ)) (evaluate_growing f ρ)
      fun w => apply_growing w _)

lemma delays_redex : Delays (fun n => evaluate n (.app (.lam x b) a) ρ)
    fun n => evaluate n b ((x, .pair a ρ) :: ρ) := delays_call slower_lam

/-- An operation that is known waits for more arguments. -/
lemma slower_partial {p : Primitive} {l : List Object} (hlt : l.length + 1 < p.arity)
    (h : Slower (fun n => evaluate n f ρ) fun _ => pure (.builtin p l)) :
    Slower (fun n => evaluate n (.app f a) ρ)
      fun _ => pure (.builtin p (l ++ [.pair a ρ])) := by
  have happly : ∀ n, apply (evaluate n) (.builtin p l) (.pair a ρ)
      = pure (.builtin p (l ++ [.pair a ρ])) := by
    intro n
    unfold apply
    simp only [List.length_append, List.length_singleton, if_neg hlt.asymm, if_pos hlt]
  have hbind := h.bind_value (g := fun n w => apply (evaluate n) w (.pair a ρ))
    (evaluate_growing f ρ) fun w => apply_growing w _
  simp only [happly] at hbind
  exact (delays_app.slower ((evaluate_growing f ρ).bind fun w => apply_growing w _)).trans hbind

/-- An operation that is known runs with its last argument. -/
lemma delays_operation {p : Primitive} {l : List Object} (heq : l.length + 1 = p.arity)
    (h : Slower (fun n => evaluate n f ρ) fun _ => pure (.builtin p l)) :
    Delays (fun n => evaluate n (.app f a) ρ)
      fun n => p.run (force (evaluate n)) Object.int? .int id (l ++ [.pair a ρ]) := by
  have happly : ∀ n, apply (evaluate n) (.builtin p l) (.pair a ρ)
      = p.run (force (evaluate n)) Object.int? .int id (l ++ [.pair a ρ]) := by
    intro n
    unfold apply
    simp only [List.length_append, List.length_singleton, heq, lt_irrefl, if_false]
  have hbind := h.bind_value (g := fun n w => apply (evaluate n) w (.pair a ρ))
    (evaluate_growing f ρ) fun w => apply_growing w _
  simp only [happly] at hbind
  exact delays_app.trans_slower hbind

/-! ### Fixed points -/

/-- What the variable `x` of the combinator stands for, in the environment `ρ` of its halves. -/
inductive IsHalf (ρ : Env) : Object → Prop
  | whole : IsHalf ρ (.pair .yHalf ρ)
  | again {h : Object} : IsHalf ρ h → IsHalf ρ (.pair (.var "x") (("x", h) :: ρ))

/-- The environment of the halves of the combinator for a fixed point in `ρ`. -/
def halfEnv (self : String) (body : Term) (ρ : Env) : Env := ("f", .pair (.lam self body) ρ) :: ρ

/-- The object is the fixed point `self = body` in `ρ`, unfolded a number of times. -/
inductive IsFix (self : String) (body : Term) (ρ : Env) : Object → Prop
  | whole : IsFix self body ρ (.pair (.fix self body) ρ)
  | unfolded {h : Object} : IsHalf (halfEnv self body ρ) h →
      IsFix self body ρ (.pair (.app (.var "x") (.var "x")) (("x", h) :: halfEnv self body ρ))

/-- The body of a half of the combinator. -/
def halfBody : Term := .app (.var "f") (.app (.var "x") (.var "x"))

lemma IsHalf.slower (h : IsHalf ρ o) :
    Slower (fun n => force (evaluate n) o) fun _ => pure (.closure "x" halfBody ρ) := by
  induction h with
  | whole => exact slower_lam
  | again _ ih => exact slower_var rfl ih

/-- Once its half is known, a fixed point is its body. -/
lemma delays_halfBody {self : String} {body : Term} (o : Object) :
    Delays (fun n => evaluate n halfBody (("x", o) :: halfEnv self body ρ)) fun n =>
      evaluate n body
        ((self, .pair (.app (.var "x") (.var "x")) (("x", o) :: halfEnv self body ρ)) :: ρ) := by
  have hf : Slower (fun n => evaluate n (.var "f") (("x", o) :: halfEnv self body ρ))
      fun _ => pure (.closure self body ρ) :=
    slower_var (o := .pair (.lam self body) ρ) rfl slower_lam
  exact delays_call hf

/-- A fixed point is its body, where the name stands for the fixed point. -/
lemma IsFix.unfold {self : String} {body : Term} (h : IsFix self body ρ o) :
    ∃ o', IsFix self body ρ o' ∧
      Slower (fun n => force (evaluate n) o) fun n => evaluate n body ((self, o') :: ρ) := by
  cases h with
  | whole =>
    have hy : Delays (fun n => evaluate n (.fix self body) ρ)
        fun n => evaluate n (.app .yHalf .yHalf) (halfEnv self body ρ) := delays_redex
    have hhalf : Delays (fun n => evaluate n (.app .yHalf .yHalf) (halfEnv self body ρ)) fun n =>
        evaluate n halfBody (("x", .pair .yHalf (halfEnv self body ρ)) :: halfEnv self body ρ) :=
      delays_redex
    refine ⟨_, .unfolded .whole, (hy.slower (evaluate_growing _ _)).trans ?_⟩
    exact (hhalf.slower (evaluate_growing _ _)).trans
      ((delays_halfBody _).slower (evaluate_growing _ _))
  | @unfolded h hh =>
    have hx : Slower (fun n => evaluate n (.var "x") (("x", h) :: halfEnv self body ρ))
        fun _ => pure (.closure "x" halfBody (halfEnv self body ρ)) := slower_var rfl hh.slower
    refine ⟨_, .unfolded (.again hh), ?_⟩
    exact ((delays_call hx).slower (evaluate_growing _ _)).trans
      ((delays_halfBody _).slower (evaluate_growing _ _))

/-! ### Conditionals and tables -/

/-- The aliases of `if` and `==` stand for the operations. -/
structure Aliased (ρ : Env) : Prop where
  cond : Slower (fun n => evaluate n (.var ifAlias) ρ) fun _ => pure (.builtin .conditional [])
  eq : Slower (fun n => evaluate n (.var eqAlias) ρ)
    fun _ => pure (.builtin (.comparison "==" (· == ·)) [])

/-- What a name stands for does not depend on the other names. -/
lemma evaluate_var_congr (h : ρ.lookup x = ρ'.lookup x) (n : ℕ) :
    evaluate n (.var x) ρ = evaluate n (.var x) ρ' := by
  cases n with
  | zero => rfl
  | succ n =>
    show step (evaluate n) (.var x) ρ = step (evaluate n) (.var x) ρ'
    simp only [step, h]

lemma Aliased.extend (h : Aliased ρ) (hif : ifAlias ≠ x) (heq : eqAlias ≠ x) (o : Object) :
    Aliased ((x, o) :: ρ) := by
  have hcongr : ∀ y, y ≠ x → ∀ n, evaluate n (.var y) ((x, o) :: ρ) = evaluate n (.var y) ρ := by
    intro y hy
    refine evaluate_var_congr ?_
    rw [lookup_cons_ite, if_neg hy]
  constructor
  · simp only [hcongr ifAlias hif]
    exact h.cond
  · simp only [hcongr eqAlias heq]
    exact h.eq

/-- A conditional forces the condition and one of the branches. -/
lemma delays_cond (h : Aliased ρ) (p n : Term) :
    Delays (fun k => evaluate k (.cond c p n) ρ) fun k =>
      forceInteger (force (evaluate k)) Object.int? id .conditionNotInteger (.pair c ρ) >>= fun i =>
        evaluate k (if i ≠ 0 then p else n) ρ := by
  have hc : Slower (fun k => evaluate k (.app (.var ifAlias) c) ρ)
      fun _ => pure (.builtin .conditional [.pair c ρ]) := slower_partial (by decide) h.cond
  have hp : Slower (fun k => evaluate k (.app (.app (.var ifAlias) c) p) ρ)
      fun _ => pure (.builtin .conditional [.pair c ρ, .pair p ρ]) :=
    slower_partial (l := [.pair c ρ]) (Nat.lt_succ_self 2) hc
  have hrun : ∀ k, Primitive.conditional.run (force (evaluate k)) Object.int? .int id
        [.pair c ρ, .pair p ρ, .pair n ρ]
      = forceInteger (force (evaluate k)) Object.int? id .conditionNotInteger (.pair c ρ) >>=
        fun i => evaluate k (if i ≠ 0 then p else n) ρ := by
    intro k
    show (_ >>= fun i => force (evaluate k) (if i ≠ 0 then .pair p ρ else .pair n ρ)) = _
    congr 1
    funext i
    split_ifs <;> rfl
  simp only [← hrun]
  exact delays_operation (l := [.pair c ρ, .pair p ρ]) rfl hp

/-- An object that is known to be an integer. -/
lemma slower_forceInteger {v : Int64} (otherwise : String → EvalError)
    (h : Slower (fun n => force (evaluate n) o) fun _ => pure (.int v)) :
    Slower (fun n => forceInteger (force (evaluate n)) Object.int? id otherwise o)
      fun _ => pure v := by
  unfold forceInteger
  exact h.bind_value (force_growing o) fun w => growing_const _

/-- The test of a table whether the tag is a given number. -/
lemma slower_tagIs (h : Aliased ρ) {v : Int64}
    (htag : Slower (fun n => evaluate n (.var tagName) ρ) fun _ => pure (.int v))
    (i : DispatchId) : Slower (fun n => evaluate n (.tagIs i) ρ)
      fun _ => pure (.int (if v == Int64.ofNat i then 1 else 0)) := by
  have harg : Slower (fun n => evaluate n (.app (.var eqAlias) (.var tagName)) ρ)
      fun _ => pure (.builtin (.comparison "==" (· == ·)) [.pair (.var tagName) ρ]) :=
    slower_partial (by decide) h.eq
  let compared (x y : Int64) : Answer := pure (.int (if x == y then 1 else 0))
  let read (n : ℕ) (o : Object) : Partial EvalError Int64 :=
    forceInteger (force (evaluate n)) Object.int? id (.expectedInteger "==") o
  have hrun : Delays (fun n => evaluate n (.tagIs i) ρ) fun n =>
      read n (.pair (.var tagName) ρ) >>= fun x => read n (.pair (.ofId i) ρ) >>= compared x :=
    delays_operation (l := [.pair (.var tagName) ρ]) rfl harg
  have htag' := slower_forceInteger (o := .pair (.var tagName) ρ) (.expectedInteger "==") htag
  have hid := slower_forceInteger (o := .pair (.ofId i) ρ) (.expectedInteger "==")
    (slower_int (Int64.ofNat i))
  have hgrow : ∀ o, Growing (read · o) := forceInteger_growing force_growing _
  have hgrow' : ∀ x, Growing fun n => read n (.pair (.ofId i) ρ) >>= compared x :=
    fun x => (hgrow _).bind fun y => growing_const (compared x y)
  -- first the tag is known, then the number
  refine (hrun.slower ((hgrow _).bind hgrow')).trans ?_
  refine (htag'.bind_value (g := fun n x => read n (.pair (.ofId i) ρ) >>= compared x) (hgrow _)
    hgrow').trans ?_
  exact hid.bind_value (g := fun _ => compared v) (hgrow _) fun y => growing_const (compared v y)

lemma toInt_ofNat_id {i : ℕ} (hi : i < dispatchIdBound) : (Int64.ofNat i).toInt = i := by
  unfold dispatchIdBound at hi
  exact Int64.toInt_ofNat_of_lt (by omega)

lemma ofNat_beq_iff {i : ℕ} (hi : i < dispatchIdBound) (tag : Int64) :
    (tag == Int64.ofNat i) = true ↔ (i : ℤ) = tag.toInt := by
  rw [beq_iff_eq, ← Int64.toInt_inj, toInt_ofNat_id hi, eq_comm]

/-- The member that has the tag as its number, or else the last one. -/
def selected? (tag : Int64) (members : List (DispatchId × Term)) : Option Term :=
  ((members.find? fun m => (m.1 : ℤ) = tag.toInt).or members.getLast?).map Prod.snd

/-- The last member is not tested. -/
lemma selected?_singleton (tag : Int64) (m : DispatchId × Term) :
    selected? tag [m] = some m.2 := by
  unfold selected?
  by_cases h : (m.1 : ℤ) = tag.toInt
  · simp [h]
  · simp [h]

lemma selected?_cons_cons (tag : Int64) (m m' : DispatchId × Term)
    (ms : List (DispatchId × Term)) : selected? tag (m :: m' :: ms)
      = if (m.1 : ℤ) = tag.toInt then some m.2 else selected? tag (m' :: ms) := by
  unfold selected?
  rw [List.find?_cons, List.getLast?_cons_cons]
  by_cases h : (m.1 : ℤ) = tag.toInt
  · simp [h]
  · simp [h]

/-- The number of a member selects it. -/
lemma selected?_of_mem {members : List (DispatchId × Term)}
    (hbound : ∀ p ∈ members, p.1 < dispatchIdBound) (hnodup : (members.map Prod.fst).Nodup)
    {i : DispatchId} {code : Term} (hi : (i, code) ∈ members) :
    selected? (Int64.ofNat i) members = some code := by
  have htag : (Int64.ofNat i).toInt = i := toInt_ofNat_id (hbound _ hi)
  have hfind : members.find? (fun m => (m.1 : ℤ) = (Int64.ofNat i).toInt) = some (i, code) := by
    cases hfound : members.find? fun m => (m.1 : ℤ) = (Int64.ofNat i).toInt with
    | none => exact absurd (List.find?_eq_none.1 hfound _ hi) (by simp [htag])
    | some p =>
      -- no other member has the number
      have hp : p.1 = i := by simpa [htag] using List.find?_some hfound
      rw [List.inj_on_of_nodup_map hnodup (List.mem_of_find?_eq_some hfound) hi hp]
  rw [selected?, hfind, Option.some_or, Option.map_some]

/-- A table selects the code of the member that the tag is the number of, or that of the last one.
-/
lemma slower_selection (h : Aliased ρ) {tag : Int64} {code : Term}
    (htag : Slower (fun n => evaluate n (.var tagName) ρ) fun _ => pure (.int tag))
    {m : DispatchId × Term} {ms : List (DispatchId × Term)}
    (hbound : ∀ p ∈ m :: ms, p.1 < dispatchIdBound) (hcode : selected? tag (m :: ms) = some code) :
    Slower (fun n => evaluate n (.selection m ms) ρ) fun n => evaluate n code ρ := by
  induction ms generalizing m with
  | nil =>
    rw [selected?_singleton, Option.some.injEq] at hcode
    rw [← hcode]
    exact .refl _
  | cons m' ms ih =>
    rw [List.forall_mem_cons] at hbound
    -- the table is a chain of conditionals; the test of the first one is known
    have hcond := delays_cond h (c := .tagIs m.1) m.2 (.selection m' ms)
    have htest := slower_forceInteger (o := .pair (.tagIs m.1) ρ) .conditionNotInteger
      (slower_tagIs h htag m.1)
    have hgrow : Growing fun n => forceInteger (force (evaluate n)) Object.int? id
        .conditionNotInteger (.pair (.tagIs m.1) ρ) := forceInteger_growing force_growing _ _
    have hgrow' : ∀ j : Int64, Growing fun n =>
        evaluate n (if j ≠ 0 then m.2 else .selection m' ms) ρ := fun j => evaluate_growing _ _
    refine (hcond.slower (hgrow.bind hgrow')).trans ((htest.bind_value hgrow hgrow').trans ?_)
    rw [selected?_cons_cons] at hcode
    by_cases heq : (m.1 : ℤ) = tag.toInt
    · rw [if_pos heq, Option.some.injEq] at hcode
      simp only [(ofNat_beq_iff hbound.1 tag).2 heq, if_true, hcode]
      exact .refl _
    · rw [if_neg heq] at hcode
      have hne : (tag == Int64.ofNat m.1) = false :=
        Bool.eq_false_iff.2 fun h => heq ((ofNat_beq_iff hbound.1 tag).1 h)
      simp only [hne]
      exact ih hbound.2 hcode

/-- A table applied to a tag is the code of the member that the tag selects, where the table stands
for itself. -/
lemma delays_table {table : String} {ρ₀ : Env} {m : DispatchId × Term}
    {ms : List (DispatchId × Term)}
    (hf : Slower (fun n => evaluate n f ρ) fun n => force (evaluate n) o)
    (ho : IsFix table (.lam tagName (.selection m ms)) ρ₀ o) (h : Aliased ρ₀)
    (hif : ifAlias ≠ table) (heq : eqAlias ≠ table)
    (hbound : ∀ p ∈ m :: ms, p.1 < dispatchIdBound) {tag : Int64} {code : Term}
    (hcode : selected? tag (m :: ms) = some code) :
    ∃ o', IsFix table (.lam tagName (.selection m ms)) ρ₀ o' ∧
      Delays (fun n => evaluate n (.app f (.int tag)) ρ) fun n =>
        evaluate n code ((tagName, .pair (.int tag) ρ) :: (table, o') :: ρ₀) := by
  obtain ⟨o', ho', hunfold⟩ := ho.unfold
  refine ⟨o', ho', ?_⟩
  have hclosure : Slower (fun n => evaluate n f ρ)
      fun _ => pure (.closure tagName (.selection m ms) ((table, o') :: ρ₀)) :=
    hf.trans (hunfold.trans slower_lam)
  have haliased : Aliased ((tagName, .pair (.int tag) ρ) :: (table, o') :: ρ₀) :=
    (h.extend hif heq o').extend (by decide) (by decide) _
  have htag : Slower (fun n => evaluate n (.var tagName)
      ((tagName, .pair (.int tag) ρ) :: (table, o') :: ρ₀)) fun _ => pure (.int tag) :=
    slower_var (o := .pair (.int tag) ρ) rfl (slower_int _)
  exact (delays_call hclosure).trans_slower (slower_selection haliased htag hbound hcode)

/-- A reference to a member of a table is the code of the member, where the table stands for itself.
-/
lemma delays_dispatch {table : String} {ρ₀ : Env} {m : DispatchId × Term}
    {ms : List (DispatchId × Term)} (hlookup : ρ.lookup table = some o)
    (ho : IsFix table (.lam tagName (.selection m ms)) ρ₀ o) (h : Aliased ρ₀)
    (hif : ifAlias ≠ table) (heq : eqAlias ≠ table)
    (hbound : ∀ p ∈ m :: ms, p.1 < dispatchIdBound) (hnodup : ((m :: ms).map Prod.fst).Nodup)
    {i : DispatchId} {code : Term} (hi : (i, code) ∈ m :: ms) :
    ∃ o', IsFix table (.lam tagName (.selection m ms)) ρ₀ o' ∧
      Delays (fun n => evaluate n (.dispatch table i) ρ) fun n =>
        evaluate n code ((tagName, .pair (.ofId i) ρ) :: (table, o') :: ρ₀) :=
  delays_table ((delays_var hlookup).slower (force_growing o)) ho h hif heq hbound
    (selected?_of_mem hbound hnodup hi)

end Letrec.ByName
