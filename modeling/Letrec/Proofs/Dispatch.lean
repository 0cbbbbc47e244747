import Mathlib
import Letrec.Proofs.ByName.Alike
import Letrec.Proofs.Forcing
import Letrec.Proofs.Meaning

/-!
# Dispatch tables

A table applied to a tag does what the member does that has the tag as its number, or the last
member if there is none (`dispatchTable_selects`).  The member finds the table itself under the
alias, so that a reference to a member is that member again.

The machine reaches the member with an alias that stands for the fixed point unfolded once, not for
the table.  Evaluated by name, the two are alike, which says what is seen of the results.  From a
closed heap the runs of the machine themselves are compared: the thunks of the table are joined with
each other, and the tests that fail on the way to the member leave thunks that nothing joins.
-/

namespace Letrec

open ByName (World Shown shown? selected?)

/-! ### Outcomes -/

/-- What is seen of the end of a run: a value or an error; nothing if the run was cut short. -/
def seen? : EStateM.Result Halt Machine Term → Option (Except EvalError Shown)
  | .ok v m => (shown? m.heap v).map .ok
  | .error (.failed e) _ => some (.error e)
  | .error _ _ => none

/-- Within large enough bounds, the same is seen of two runs. -/
structure SeenAlike (x y : ℕ → EStateM.Result Halt Machine Term) : Prop where
  same : ∀ r, (∃ n, seen? (x n) = some r) ↔ ∃ n, seen? (y n) = some r
  left : ∀ n, EvalM.Finished EvalM.OutOfFuel (x n) → (seen? (x n)).isSome
  right : ∀ n, EvalM.Finished EvalM.OutOfFuel (y n) → (seen? (y n)).isSome

lemma SeenAlike.of_seen {x y : ℕ → EStateM.Result Halt Machine Term}
    {P Q : Except EvalError Shown → Prop}
    (hx : (∀ r, (∃ n, seen? (x n) = some r) ↔ P r) ∧
      ∀ n, EvalM.Finished EvalM.OutOfFuel (x n) → (seen? (x n)).isSome)
    (hy : (∀ r, (∃ n, seen? (y n) = some r) ↔ Q r) ∧
      ∀ n, EvalM.Finished EvalM.OutOfFuel (y n) → (seen? (y n)).isSome)
    (h : ∀ r, P r ↔ Q r) : SeenAlike x y :=
  ⟨fun r => (hx.1 r).trans ((h r).trans (hy.1 r).symm), hx.2, hy.2⟩

namespace ByName

/-- What is seen of an answer. -/
def Sees (t : Term) (ρ : Env) : Except EvalError Shown → Prop
  | .ok s => ∃ w, Evaluates t ρ (.ok w) ∧ w.shown? = some s
  | .error e => Evaluates t ρ (.error e)

lemma Alike.shown?_eq {o o' : Object} (h : Alike o o') : o.shown? = o'.shown? := by
  have htext := h.text_eq
  cases h with
  | int v => rfl
  | closure => rfl
  | builtin => exact congrArg (fun s => some (Shown.builtin s)) htext
  | pair => rfl
  | fix ho ho' => cases ho <;> cases ho' <;> rfl

lemma AlikeEnv.sees {t : Term} {ρ ρ' : Env} (h : AlikeEnv ρ ρ') {r : Except EvalError Shown}
    (hr : Sees t ρ r) : Sees t ρ' r := by
  cases r with
  | ok s =>
    obtain ⟨w, hw, hs⟩ := hr
    obtain ⟨r', hr', hagree⟩ := Answered.yields (fun n => answered_evaluate n h) hw
    cases r' with
    | error e => exact hagree.elim
    | ok w' => exact ⟨w', hr', (Alike.shown?_eq hagree).symm.trans hs⟩
  | error e =>
    obtain ⟨r', hr', hagree⟩ := Answered.yields (fun n => answered_evaluate n h) hr
    cases r' with
    | error e' =>
      obtain rfl : e = e' := hagree
      exact hr'
    | ok w' => exact hagree.elim

/-- What is seen does not depend on how often the fixed points are unfolded. -/
lemma AlikeEnv.sees_iff {t : Term} {ρ ρ' : Env} (h : AlikeEnv ρ ρ') (r : Except EvalError Shown) :
    Sees t ρ r ↔ Sees t ρ' r := ⟨h.sees, h.symm.sees⟩

lemma sees_of_delays {t t' : Term} {ρ ρ' : Env}
    (h : Delays (fun n => evaluate n t ρ) fun n => evaluate n t' ρ') (r : Except EvalError Shown) :
    Sees t ρ r ↔ Sees t' ρ' r := by
  have hiff : ∀ s, Evaluates t ρ s ↔ Evaluates t' ρ' s := by
    refine fun s => ⟨?_, h.yields s⟩
    rintro ⟨n, hn⟩
    exact ⟨n, (h.slower (evaluate_growing t' ρ')).below n s hn⟩
  cases r with
  | ok s => exact exists_congr fun w => and_congr_left fun _ => hiff _
  | error e => exact hiff _

/-- What is seen of a run of the machine is what is seen of the answer by name. -/
lemma seen?_iff_sees {W : World} {m : Machine} (hW : W.Describes m.heap) {env : Letrec.Env}
    {ρ : Env} (henv : W.DenotesEnv env ρ) {t : Term} (ht : t.Lowered) :
    (∀ r, (∃ n, seen? (Letrec.evaluate none n t env m) = some r) ↔ Sees t ρ r) ∧
      ∀ n, EvalM.Finished EvalM.OutOfFuel (Letrec.evaluate none n t env m) →
        (seen? (Letrec.evaluate none n t env m)).isSome := by
  have hneed := fun n => evaluates_of_evaluate (n := n) hW henv ht
  refine ⟨fun r => ⟨?_, fun hr => ?_⟩, fun n hn => ?_⟩
  · rintro ⟨n, hn⟩
    cases hx : Letrec.evaluate none n t env m with
    | ok v m' =>
      obtain ⟨w, hw, hshown, -⟩ := (hneed n).1 v m' hx
      rw [hx, seen?, Option.map_eq_some_iff] at hn
      obtain ⟨s, hs, rfl⟩ := hn
      exact ⟨w, hw, hshown.symm.trans hs⟩
    | error e m' =>
      rw [hx] at hn
      cases e with
      | failed e =>
        obtain rfl := Option.some.inj hn
        exact (hneed n).2.1 e m' hx
      | _ => exact absurd hn (by simp [seen?])
  · cases r with
    | ok s =>
      obtain ⟨w, hw, hs⟩ := hr
      obtain ⟨n, ⟨v, m', w', hv, heq, hshown, -⟩ | ⟨e, m', -, heq⟩⟩ :=
        evaluate_of_evaluates hW henv ht hw
      · obtain rfl := Except.ok.inj heq
        exact ⟨n, by rw [hv, seen?, hshown, hs, Option.map_some]⟩
      · exact absurd heq (by simp)
    | error e =>
      obtain ⟨n, ⟨v, m', w', -, heq, -⟩ | ⟨e', m', he, heq⟩⟩ :=
        evaluate_of_evaluates hW henv ht hr
      · exact absurd heq (by simp)
      · obtain rfl := Except.error.inj heq
        exact ⟨n, by rw [he, seen?]⟩
  · cases hx : Letrec.evaluate none n t env m with
    | ok v m' =>
      obtain ⟨w, -, hshown, hsome⟩ := (hneed n).1 v m' hx
      rwa [seen?, hshown, Option.isSome_map]
    | error e m' =>
      cases e with
      | failed e => rfl
      | missingOperand => exact absurd hx ((hneed n).2.2 m')
      | outOfFuel => exact absurd rfl (hn _ _ hx)

/-- The tree of a term is forced as every object is that it denotes. -/
lemma Denotes.slower {W : World} {h : Heap} (hW : W.Describes h) {t : Term} {o : Object}
    (ht : W.Denotes t o) : ∃ o', W t = some o' ∧
      Slower (fun n => force (evaluate n) o) fun n => force (evaluate n) o' := by
  induction ht with
  | object ho => exact ⟨_, ho, .refl _⟩
  | @literal v ρ => exact ⟨.int v, hW.int v, slower_int v⟩
  | @«variable» t x o ρ hx _ ih =>
    obtain ⟨o', ho', hslower⟩ := ih
    exact ⟨o', ho', ((delays_var hx).slower (force_growing o)).trans hslower⟩

end ByName

/-! ### Tables -/

/-- The heap and the environment consist of values and of thunks, and what a thunk has stored is its
value. -/
def Readable (m : Machine) (env : Env) : Prop :=
  ∃ (W : World) (ρ : ByName.Env), W.Describes m.heap ∧ W.DenotesEnv env ρ

/-- The term is the table of the members, under the alias `z`. -/
structure IsTable (members : List (DispatchId × Term)) (z : String) (table : Term) : Prop where
  lowered : ∀ m ∈ members, m.2.Lowered
  bound : ∀ m ∈ members, m.1 < dispatchIdBound
  nodup : (members.map Prod.fst).Nodup
  alias_eq : dispatchAlias? (members.map Prod.fst) = some z
  table_eq : Term.dispatchTable? z members = some table

section Tables

open ByName

lemma BindsTo.slower {W : World} {h : Heap} (hW : W.Describes h) {env : Letrec.Env} {ρ : ByName.Env}
    (henv : W.DenotesEnv env ρ) {x : String} {p : Primitive} (hx : BindsTo h env x p) :
    Slower (fun n => ByName.evaluate n (.var x) ρ) fun _ => pure (.builtin p []) := by
  obtain ⟨a, ha, hp⟩ := hx
  rcases henv.lookup x with ⟨hnone, -⟩ | ⟨t, o, ht, ho, hdenotes⟩
  · exact absurd (ha.symm.trans hnone) (by simp)
  · obtain rfl := Option.some.inj (ha.symm.trans ht)
    obtain ⟨o', ho', hslower⟩ := Denotes.slower hW hdenotes
    obtain ⟨q, supplied, args, hq, rfl, hargs⟩ := hW.builtin ho'
    obtain ⟨rfl, rfl⟩ := Primitive.builtin_injective (Option.some.inj (hp.symm.trans hq))
    obtain rfl := List.forall₂_nil_left_iff.1 hargs
    exact slower_var ho hslower

lemma BindsAliases.aliased {W : World} {h : Heap} (hW : W.Describes h) {env : Letrec.Env}
    {ρ : ByName.Env} (henv : W.DenotesEnv env ρ) (ha : BindsAliases h env) : Aliased ρ :=
  ⟨ha.cond.slower hW henv, ha.eq.slower hW henv⟩

namespace IsTable

variable {members : List (DispatchId × Term)} {z : String} {table : Term}
  (h : IsTable members z table)

include h

lemma exists_selection : ∃ m ms, members = m :: ms ∧
    table = .fix z (.lam tagName (.selection m ms)) := by
  have htable := h.table_eq
  cases members with
  | nil => exact absurd htable (by simp [Term.dispatchTable?])
  | cons m ms => exact ⟨m, ms, rfl, (Option.some.inj htable).symm⟩

lemma alias_ne : ifAlias ≠ z ∧ eqAlias ≠ z := by
  obtain ⟨id, -, rfl⟩ := Option.map_eq_some_iff.1 h.alias_eq
  exact ⟨(tableAlias_ne id).1.symm, (tableAlias_ne id).2.1.symm⟩

lemma table_lowered : table.Lowered := by
  obtain ⟨m, ms, rfl, rfl⟩ := h.exists_selection
  have hselection : ∀ (m : DispatchId × Term) ms, (∀ p ∈ m :: ms, p.2.Lowered) →
      (Term.selection m ms).Lowered := by
    intro m ms hms
    induction ms generalizing m with
    | nil => exact hms m (List.mem_singleton_self m)
    | cons m' ms ih =>
      rw [List.forall_mem_cons] at hms
      exact ⟨⟨⟨trivial, ⟨trivial, trivial⟩, trivial⟩, hms.1⟩, ih m' hms.2⟩
  exact ⟨by decide, hselection m ms h.lowered⟩

lemma exists_selected (tag : Int64) :
    ∃ code, selected? tag members = some code ∧ code.Lowered := by
  obtain ⟨m, ms, hmembers, -⟩ := h.exists_selection
  have hsome : ((members.find? fun m => (m.1 : ℤ) = tag.toInt).or members.getLast?).isSome := by
    simp [hmembers]
  obtain ⟨p, hp⟩ := Option.isSome_iff_exists.1 hsome
  have hmem : p ∈ members := by
    rcases Option.or_eq_some_iff.1 hp with hp | ⟨-, hp⟩
    · exact List.mem_of_find?_eq_some hp
    · exact List.mem_of_getLast? hp
  exact ⟨p.2, by rw [selected?, hp, Option.map_some], h.lowered p hmem⟩

/-- What is seen of a table that is applied to a tag is what is seen of the selected member. -/
lemma sees_iff {f : Term} {ρ ρ₀ ρ' : ByName.Env}
    (hf : Slower (fun n => ByName.evaluate n f ρ) fun n => ByName.evaluate n table ρ₀)
    (haliased : Aliased ρ₀) {tag : Int64} {code : Term} (hcode : selected? tag members = some code)
    (hρ' : ρ' = (tagName, .pair (.int tag) ρ) :: (z, .pair table ρ₀) :: ρ₀)
    (r : Except EvalError Shown) : Sees (.app f (.int tag)) ρ r ↔ Sees code ρ' r := by
  obtain ⟨hif, heq⟩ := h.alias_ne
  obtain ⟨m, ms, rfl, rfl⟩ := h.exists_selection
  obtain ⟨o', ho', hdelays⟩ :=
    delays_table (o := .pair _ ρ₀) hf .whole haliased hif heq h.bound hcode
  rw [sees_of_delays hdelays, hρ']
  -- the fixed point that the machine has reached, and the table that it is
  have halike : Alike o' (.pair (.fix z (.lam tagName (.selection m ms))) ρ₀) :=
    .fix ho' .whole rfl (AlikeEnv.refl ρ₀).objects
  exact AlikeEnv.sees_iff (.cons tagName (.refl _) (.cons z halike (.refl ρ₀))) r

end IsTable

end Tables

/-! ### Calls of tables -/

section Calls

open EvalM Comparison
open ByName.World (Keeps)

variable {h : Heap} {m m₁ : Machine} {env env' : Env} {z s : String} {b : Term} {a g : Addr}

/-- A run gives the function that is the body of a fixed point, where the name stands for a new
thunk of the fixed point. -/
def TakesBody (h : Heap) (x : ℕ → EStateM.Result Halt Machine Term) (z s : String) (b : Term)
    (env : Env) (g a : Addr) (m : Machine) : Prop :=
  Takes x (.closure g) m ∧ h.Unfolds m.heap z (.lam s b) env a ∧
    m.heap.closures[g]? = some { param := s, body := b, env := env.extend z (.thunk a) }

/-- The fixed point of a function evaluates to the function. -/
lemma exists_takesBody_fix (z s : String) (b : Term) (env : Env) (m : Machine) : ∃ g a m₁,
    TakesBody m.heap (fun n => evaluate none n (.fix z (.lam s b)) env m) z s b env g a m₁ := by
  have hself : SelfThunk m.heap.contents m.heap z (.lam s b) env
      { term := .fix z (.lam s b), env } := .whole rfl rfl
  obtain ⟨m₁, a, hrenews, hbecomes⟩ := hself.unfolds fun _ ht => ht
  obtain ⟨m₂, hheap₂, hvalue⟩ := takes_lam s b (env.extend z (.thunk a)) m₁
  obtain ⟨m₃, hheap₃, htakes⟩ := hbecomes.takes (takes_of_succ hvalue)
  rw [← hheap₃] at hheap₂
  refine ⟨_, a, m₃, htakes, hrenews.unfolds.mono ?_, ?_⟩
  · rw [hheap₂]
    exact ByName.World.keeps_pushClosure m₁.heap _
  · rw [hheap₂]
    exact m₁.heap.closures_pushClosure _

/-- So does a variable that stands for a new thunk of the fixed point. -/
lemma exists_takesBody_var (hz : env'.lookup? z = some (.thunk a)) (hh : Keeps h m.heap)
    (ha : .thunk a ∉ h.contents)
    (hc : m.heap.thunks[a]? = some { term := .fix z (.lam s b), env }) : ∃ g a m₁,
    TakesBody h (fun n => evaluate none n (.var z) env' m) z s b env g a m₁ := by
  obtain ⟨m₁, hheap₁, hforce⟩ := forceThunk_eq (m := m.entered) hc rfl
  obtain ⟨g, a', m₂, htakes, hunfolds, hclosure⟩ := exists_takesBody_fix z s b env m₁
  rw [hheap₁] at hunfolds
  have hnone : m₂.heap.memo? a = none := Heap.memo?_eq (hunfolds.keeps.thunks a _ hc)
  obtain ⟨m₃, hheap₃, htakes'⟩ := htakes.memoize hnone
  have hforced : Takes (fun n => force (evaluate none n) (.thunk a) m.entered) (.closure g) m₃ := by
    simpa only [force, hforce] using htakes'
  obtain ⟨m₄, hheap₄, htakes₄⟩ := (becomes_var hz rfl).takes hforced
  rw [hheap₃] at hheap₄
  refine ⟨g, a', m₄, htakes₄, ?_, ?_⟩
  · rw [hheap₄]
    exact hunfolds.memoize hh ha hc (by simp [Term.fix])
  · rw [hheap₄]
    exact hclosure

namespace IsTable

variable {members : List (DispatchId × Term)} {table code : Term} {tag : Int64}
  (ht : IsTable members z table) (hm : m.heap.Closed) (henv : ∀ p ∈ env, m.heap.Has p.2)
  (haliases : BindsAliases m.heap env)

include ht hm henv haliases

/-- A call of the body of the table ends as the selected member. -/
lemma endAlike {f : Term} {m₀ m' : Machine} {a' : Addr} {p : DispatchId × Term}
    {ms : List (DispatchId × Term)} (hmembers : members = p :: ms)
    (hf : TakesBody m.heap (fun n => evaluate none n f env' m₀.entered) z tagName
      (.selection p ms) env g a m₁)
    (hunfolds' : m.heap.Unfolds m'.heap z (.lam tagName (.selection p ms)) env a')
    (hcode : selected? tag members = some code) :
    EndAlike ReadAlike (fun n => evaluate none n (.app f (.int tag)) env' m₀) fun n =>
      evaluate none n code ((env.extend z (.thunk a')).extend tagName (.int tag)) m' := by
  obtain rfl := hmembers
  obtain ⟨htakes, hunfolds, hclosure⟩ := hf
  have harg : suspend (.int tag) env' m₁ = .ok (.int tag) m₁ := rfl
  have hbecomes := becomes_app htakes harg hclosure
  -- nothing is free in lowered terms that is not bound in the closed heap
  have hself : ∀ {t : Term}, t.Lowered → m.heap.selfLinks.JoinsCode t env t env :=
    fun hlowered => (Heap.holds_of_lowered hlowered).joinsCode (fun _ _ => rfl)
      fun _ _ _ hu => Heap.has_of_lookup? henv hu
  obtain ⟨code', hcode', hlowered⟩ := ht.exists_selected tag
  obtain rfl := Option.some.inj (hcode.symm.trans hcode')
  have hbody : m.heap.selfLinks.JoinsCode (.lam z (.lam tagName (.selection p ms))) env
      (.lam z (.lam tagName (.selection p ms))) env := by
    have htableLowered := ht.table_lowered
    rw [← Option.some.inj ht.table_eq] at htableLowered
    exact hself (t := .lam z (.lam tagName (.selection p ms))) htableLowered.2
  have hjoins : ∀ a a' : Addr, Links.JoinsCode (insert (.thunk a, .thunk a') m.heap.selfLinks) code
      ((env.extend z (.thunk a)).extend tagName (.int tag)) code
      ((env.extend z (.thunk a')).extend tagName (.int tag)) := by
    intro a a'
    have hlam := hself (t := .lam z (.lam tagName code)) hlowered
    exact ((hlam.mono (Set.subset_insert _ _)).body (.thunk (Set.mem_insert _ _)) rfl).body
      (.int tag) rfl
  obtain ⟨hif, heq⟩ := ht.alias_ne
  have ha : BindsAliases m₁.heap ((env.extend z (.thunk a)).extend tagName (.int tag)) :=
    ((haliases.mono hunfolds.keeps).extend hif heq).extend (by decide) (by decide)
  have htag : ((env.extend z (.thunk a)).extend tagName (.int tag)).lookup? tagName
      = some (.int tag) := List.lookup_cons_self
  refine ⟨fun n hn => ?_, fun n hn => ?_⟩
  · have hh := unfolds_joins hm hbody hunfolds hunfolds'
    have hmatched : (unfolding m.heap.selfLinks [] []).Matched _
        (evaluate none n (.app f (.int tag)) env' m₀) fun k => evaluate none k code _ m' :=
      .becomes_left hbecomes
        (fun k _ => selection_left hh (hjoins _ _) hlowered ht.bound k htag ha hcode)
        List.nodup_nil (List.disjoint_nil_left _)
    exact hmatched.exists_readAlike hn
  · have hh := unfolds_joins hm hbody hunfolds' hunfolds
    have hmatched : (unfolding m.heap.selfLinks [] []).Matched _ (evaluate none n code _ m')
        fun k => evaluate none k (.app f (.int tag)) env' m₀ :=
      .becomes_right hbecomes (selection_right hh (hjoins _ _) hlowered ht.bound n htag ha hcode)
        List.nodup_nil (List.disjoint_nil_left _)
    obtain ⟨k, hk⟩ := hmatched.exists_readAlike hn
    exact ⟨k, hk.symm⟩

/-- From a closed heap, a table that is applied to a tag ends as the selected member. -/
lemma app_endAlike (hcode : selected? tag members = some code) :
    EndAlike ReadAlike (fun n => evaluate none n (.app table (.int tag)) env m) fun n =>
      evaluate none n code ((env.extend z (m.newThunk table env).1).extend tagName (.int tag))
        (m.newThunk table env).2 := by
  obtain ⟨p, ms, hmembers, htable⟩ := ht.exists_selection
  have hthunk : (m.newThunk table env).1 = .thunk m.heap.thunks.size := by
    simp only [Machine.newThunk, EvalM.heap_trace]
  have hheap : (m.newThunk table env).2.heap = m.heap.pushThunk { term := table, env } := by
    simp only [Machine.newThunk, EvalM.heap_trace]
  have hunfolds : m.heap.Unfolds (m.newThunk table env).2.heap z
      (.lam tagName (.selection p ms)) env m.heap.thunks.size :=
    hheap ▸ Heap.unfolds_pushThunk (Heap.keeps_refl _) rfl (.whole htable rfl)
  obtain ⟨g, a, m₁, hf⟩ := exists_takesBody_fix z tagName (.selection p ms) env m.entered
  rw [hthunk]
  rw [← htable] at hf
  exact ht.endAlike hm henv haliases hmembers hf hunfolds hcode

/-- So does a reference to a member through a new thunk of the table. -/
lemma dispatch_endAlike {m' : Machine} (hkeeps : Keeps m.heap m'.heap)
    (hnew : .thunk a ∉ m.heap.contents) (hthunk : m'.heap.thunks[a]? = some { term := table, env })
    (hz : env'.lookup? z = some (.thunk a)) {id : DispatchId} (hmem : (id, code) ∈ members) :
    EndAlike ReadAlike (fun n => evaluate none n (.dispatch z id) env' m') fun n =>
      evaluate none n code ((env.extend z (.thunk a)).extend tagName (.ofId id)) m' := by
  obtain ⟨p, ms, hmembers, htable⟩ := ht.exists_selection
  have hunfolds : m.heap.Unfolds m'.heap z (.lam tagName (.selection p ms)) env a :=
    ⟨hkeeps, hnew, _, hthunk, rfl, .whole htable rfl⟩
  rw [htable] at hthunk
  obtain ⟨g, a', m₁, hf⟩ := exists_takesBody_var (m := m'.entered) hz hkeeps hnew hthunk
  exact ht.endAlike hm henv haliases hmembers hf hunfolds
    (ByName.selected?_of_mem ht.bound ht.nodup hmem)

end IsTable

end Calls

section Readable

variable {m : Machine} {env : Env} {members : List (DispatchId × Term)} {z : String} {table : Term}

namespace IsTable

variable (htable : IsTable members z table) (hreads : Readable m env)

include htable hreads

/-- Where heap and environment can be read, the same is seen of a table that is applied to a tag and
of the selected member. -/
lemma app_seenAlike (haliases : BindsAliases m.heap env) {tag : Int64} {code : Term}
    (hcode : selected? tag members = some code) :
    SeenAlike (fun n => evaluate none n (.app table (.int tag)) env m) fun n =>
      evaluate none n code ((env.extend z (m.newThunk table env).1).extend tagName (.int tag))
        (m.newThunk table env).2 := by
  have hlowered := htable.table_lowered
  obtain ⟨code', hcode', hcodeLowered⟩ := htable.exists_selected tag
  obtain rfl := Option.some.inj (hcode.symm.trans hcode')
  obtain ⟨W, ρ, hW, henv⟩ := hreads
  -- the world of the machine with the thunk of the table
  obtain ⟨W', hgrows, hW', hself⟩ := hW.pushThunk hlowered henv
  have hheap : (m.newThunk table env).2.heap = m.heap.pushThunk { term := table, env } := by
    simp only [Machine.newThunk, EvalM.heap_trace]
  have hthunk : (m.newThunk table env).1 = .thunk m.heap.thunks.size := by
    simp only [Machine.newThunk, EvalM.heap_trace]
  rw [← hheap] at hW'
  have henv' : W'.DenotesEnv
      ((env.extend z (m.newThunk table env).1).extend tagName (.int tag))
      ((tagName, .pair (.int tag) ρ) :: (z, .pair table ρ) :: ρ) := by
    rw [hthunk]
    exact ((henv.mono hgrows).extend z (.object hself)).extend tagName .literal
  have happ : (Term.app table (.int tag)).Lowered := ⟨hlowered, trivial⟩
  exact .of_seen (ByName.seen?_iff_sees hW henv happ)
    (ByName.seen?_iff_sees hW' henv' hcodeLowered)
    (htable.sees_iff (.refl _) (haliases.aliased hW henv) hcode rfl)

/-- The same is seen of a reference to a member and of the member, at any time. -/
lemma dispatch_seenAlike {env₀ : Env} (haliases : BindsAliases m.heap env₀) {a : Addr} {c : Thunk}
    (halias : env.lookup? z = some (.thunk a)) (hthunk : m.heap.thunks[a]? = some c)
    (hterm : c.term = table) (hcenv : c.env = env₀) {id : DispatchId} {code : Term}
    (hmem : (id, code) ∈ members) :
    SeenAlike (fun n => evaluate none n (.dispatch z id) env m) fun n =>
      evaluate none n code ((env₀.extend z (.thunk a)).extend tagName (.ofId id)) m := by
  obtain ⟨W, ρ, hW, henv⟩ := hreads
  rcases henv.lookup z with ⟨hnone, -⟩ | ⟨t, o, ht, ho, hdenotes⟩
  · exact absurd (halias.symm.trans hnone) (by simp)
  obtain rfl := Option.some.inj (halias.symm.trans ht)
  obtain ⟨o', ho', hslower⟩ := ByName.Denotes.slower hW hdenotes
  obtain ⟨c', ρ₀, hc', rfl, -, henv₀, -⟩ := hW.thunk ho'
  obtain rfl := Option.some.inj (hthunk.symm.trans hc')
  rw [hterm] at ho' hslower
  rw [hcenv] at henv₀
  have hvar : Slower (fun n => ByName.evaluate n (.var z) ρ)
      fun n => ByName.evaluate n table ρ₀ :=
    ((ByName.delays_var ho).slower (ByName.force_growing o)).trans hslower
  have hcode := ByName.selected?_of_mem htable.bound htable.nodup hmem
  have henv' : W.DenotesEnv ((env₀.extend z (.thunk a)).extend tagName (.ofId id))
      ((tagName, .pair (.ofId id) ρ) :: (z, .pair table ρ₀) :: ρ₀) :=
    (henv₀.extend z (.object ho')).extend tagName .literal
  have hdispatch : (Term.dispatch z id).Lowered := ⟨trivial, trivial⟩
  exact .of_seen (ByName.seen?_iff_sees hW henv hdispatch)
    (ByName.seen?_iff_sees hW henv' (htable.lowered _ hmem))
    (htable.sees_iff hvar (haliases.aliased hW henv₀) hcode rfl)

end IsTable

end Readable

/-- In an environment in which the aliases stand for `if` and `==`, a table that is applied to an
integer returns what the member returns that has the integer as its number, or the last member if
there is none, where the alias stands for the table and the name of the tag for the integer.
Wherever the alias stands for the table, a reference to a member returns what the member does.

This is so for what is seen of a result where the heap and the environment consist of values and
thunks, whatever has been forced since the table was made, and for the kinds and texts of results
from every closed heap, as long as the table has not been forced. -/
theorem dispatchTable_selects {m : Machine} {env : Env} (haliases : BindsAliases m.heap env)
    {members : List (DispatchId × Term)} {z : String} {table : Term}
    (htable : IsTable members z table) :
    (Readable m env → ∀ tag : Int64, ∃ code, selected? tag members = some code ∧
      SeenAlike (fun n => evaluate none n (.app table (.int tag)) env m)
        fun n => evaluate none n code
          ((env.extend z (m.newThunk table env).1).extend tagName (.int tag))
          (m.newThunk table env).2) ∧
    (∀ (m' : Machine) (env' : Env) (a : Addr) (c : Thunk), Readable m' env' →
      BindsAliases m'.heap env → env'.lookup? z = some (.thunk a) →
      m'.heap.thunks[a]? = some c → c.term = table → c.env = env →
      ∀ id code, (id, code) ∈ members →
        SeenAlike (fun n => evaluate none n (.dispatch z id) env' m')
          fun n => evaluate none n code
            ((env.extend z (.thunk a)).extend tagName (.ofId id)) m') ∧
    (m.heap.Closed → (∀ p ∈ env, m.heap.Has p.2) →
      (∀ tag : Int64, ∃ code, selected? tag members = some code ∧
        EndAlike ReadAlike (fun n => evaluate none n (.app table (.int tag)) env m)
          fun n => evaluate none n code
            ((env.extend z (m.newThunk table env).1).extend tagName (.int tag))
            (m.newThunk table env).2) ∧
      ∀ (m' : Machine) (env' : Env) (a : Addr), World.Keeps m.heap m'.heap →
        .thunk a ∉ m.heap.contents → m'.heap.thunks[a]? = some { term := table, env } →
        env'.lookup? z = some (.thunk a) → ∀ id code, (id, code) ∈ members →
          EndAlike ReadAlike (fun n => evaluate none n (.dispatch z id) env' m')
            fun n => evaluate none n code
              ((env.extend z (.thunk a)).extend tagName (.ofId id)) m') := by
  refine ⟨fun hreads tag => ?_, ?_, fun hm henv => ⟨fun tag => ?_, ?_⟩⟩
  · obtain ⟨code, hcode, -⟩ := htable.exists_selected tag
    exact ⟨code, hcode, htable.app_seenAlike hreads haliases hcode⟩
  · intro m' env' a c hreads haliases' hz hthunk hterm hcenv id code hmem
    exact htable.dispatch_seenAlike hreads haliases' hz hthunk hterm hcenv hmem
  · obtain ⟨code, hcode, -⟩ := htable.exists_selected tag
    exact ⟨code, hcode, htable.app_endAlike hm henv haliases hcode⟩
  · intro m' env' a hkeeps hnew hthunk hz id code hmem
    exact htable.dispatch_endAlike hm henv haliases hkeeps hnew hthunk hz hmem

/-- Two members; the first one refers to the second. -/
def chained : List (DispatchId × Term) :=
  [(5, .apps (.var "+") [.int 1, .dispatch (tableAlias 3) 3]), (3, .int 41)]

/-- The table of the two members. -/
def chainedTable : Term :=
  .dispatchTable (tableAlias 3) (5, .apps (.var "+") [.int 1, .dispatch (tableAlias 3) 3])
    [(3, .int 41)]

/-- The standard operations, and `if` and `==` once more under their aliases. -/
def aliasedEnv : Env :=
  (Builtins.standard.env.extend ifAlias (.builtin 11)).extend eqAlias (.builtin 8)

lemma denotesEnv_aliasedEnv :
    ∃ ρ, (World.ofHeap Builtins.standard.heap).DenotesEnv aliasedEnv ρ := by
  have hunfolds : ∀ (a : Addr) (p : Primitive),
      Builtins.standard.entries[a]? = some (p.builtin []) →
      (World.ofHeap Builtins.standard.heap).Denotes (.builtin a) (.builtin p []) := by
    intro a p hp
    refine .object (World.ofHeap_eq_some.2 (.builtin (s := []) ?_ rfl (by simp)))
    simpa [Builtins.heap] using hp
  refine ⟨_, (denotesEnv_standard.extend ifAlias (hunfolds 11 .conditional ?_)).extend eqAlias
    (hunfolds 8 (.comparison "==" (· == ·)) ?_)⟩
  · rw [Builtins.standard_entries]
    rfl
  · rw [Builtins.standard_entries]
    rfl

theorem dispatchTable_selects_chained :
    let m := Machine.ofBuiltins .standard false
    let env := (aliasedEnv.extend (tableAlias 3) (m.newThunk chainedTable aliasedEnv).1)
    let m' := (m.newThunk chainedTable aliasedEnv).2
    Readable m aliasedEnv ∧ BindsAliases m.heap aliasedEnv ∧
    IsTable chained (tableAlias 3) chainedTable ∧
    selected? 5 chained = some (.apps (.var "+") [.int 1, .dispatch (tableAlias 3) 3]) ∧
    SeenAlike (fun n => evaluate none n (.app chainedTable (.int 5)) aliasedEnv m)
      (fun n => evaluate none n (.apps (.var "+") [.int 1, .dispatch (tableAlias 3) 3])
        (env.extend tagName (.int 5)) m') ∧
    SeenAlike (fun n => evaluate none n (.dispatch (tableAlias 3) 3) env m')
      (fun n => evaluate none n (.int 41) (env.extend tagName (.ofId 3)) m') ∧
    m.heap.Closed ∧ (∀ p ∈ aliasedEnv, m.heap.Has p.2) ∧
    EndAlike ReadAlike (fun n => evaluate none n (.app chainedTable (.int 5)) aliasedEnv m)
      (fun n => evaluate none n (.apps (.var "+") [.int 1, .dispatch (tableAlias 3) 3])
        (env.extend tagName (.int 5)) m') ∧
    EndAlike ReadAlike (fun n => evaluate none n (.dispatch (tableAlias 3) 3) env m')
      fun n => evaluate none n (.int 41) (env.extend tagName (.ofId 3)) m' := by
  intro m env m'
  have hW := World.describes_ofHeap m.heap
  obtain ⟨ρ, henv⟩ := denotesEnv_aliasedEnv
  have hreads : Readable m aliasedEnv := ⟨_, ρ, hW, henv⟩
  have hentry : ∀ (a : Addr) (p : Primitive), Primitive.standard[a]? = some p →
      Builtins.standard.heap.builtins[a]? = some (p.builtin []) := by
    intro a p hp
    simp [Builtins.heap, Builtins.standard_entries, hp]
  have haliases : BindsAliases m.heap aliasedEnv :=
    ⟨⟨11, rfl, hentry 11 _ rfl⟩, ⟨8, rfl, hentry 8 _ rfl⟩⟩
  have haliases' : BindsAliases m'.heap aliasedEnv :=
    ⟨⟨11, rfl, hentry 11 _ rfl⟩, ⟨8, rfl, hentry 8 _ rfl⟩⟩
  have htable : IsTable chained (tableAlias 3) chainedTable := by
    refine ⟨?_, ?_, ?_, rfl, rfl⟩
    · unfold chained
      decide
    · unfold chained dispatchIdBound
      decide
    · decide
  have hselected : selected? 5 chained
      = some (.apps (.var "+") [.int 1, .dispatch (tableAlias 3) 3]) := by
    decide
  have hclosed : m.heap.Closed := Builtins.closed_standard
  have hhas : ∀ p ∈ aliasedEnv, m.heap.Has p.2 := by
    have hstandard : ∀ p ∈ Builtins.standard.env, m.heap.Has p.2 := Builtins.standard.has_env
    have hbuiltin : ∀ a < 12, m.heap.Has (.builtin a) := by
      intro a ha
      simpa [m, Heap.Has, Machine.ofBuiltins, Builtins.heap, Builtins.standard_entries,
        Primitive.standard] using ha
    exact List.forall_mem_cons.2 ⟨hbuiltin 8 (by decide), List.forall_mem_cons.2
      ⟨hbuiltin 11 (by decide), hstandard⟩⟩
  obtain ⟨happlied, hreferred, hends⟩ := dispatchTable_selects haliases htable
  obtain ⟨code, hcode, hsame⟩ := happlied hreads 5
  obtain rfl := Option.some.inj (hselected.symm.trans hcode)
  obtain ⟨W', hgrows, hW', hself⟩ := hW.pushThunk htable.table_lowered henv
  have hreads' : Readable m' env :=
    ⟨W', _, hW', (henv.mono hgrows).extend (tableAlias 3) (.object hself)⟩
  obtain ⟨hended, hends'⟩ := hends hclosed hhas
  obtain ⟨code', hcode', halike⟩ := hended 5
  obtain rfl := Option.some.inj (hselected.symm.trans hcode')
  have hmem : (3, .int 41) ∈ chained := by simp [chained]
  have hnew : .thunk 0 ∉ m.heap.contents := by
    rintro ⟨o, ho⟩
    exact absurd ho (by simp [m, Heap.stored?, Machine.ofBuiltins, Builtins.heap])
  exact ⟨hreads, haliases, htable, hselected, hsame,
    hreferred m' env 0 { term := chainedTable, env := aliasedEnv } hreads' haliases'
      List.lookup_cons_self rfl rfl rfl 3 (.int 41) hmem, hclosed, hhas, halike,
    hends' m' env 0 (World.keeps_pushThunk m.heap _) hnew rfl List.lookup_cons_self 3 (.int 41)
      hmem⟩

end Letrec
