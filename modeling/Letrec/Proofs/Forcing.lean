import Mathlib
import Letrec.Proofs.Evaluation.Selection
import Letrec.Proofs.Unfolding

/-!
# Forcing an argument is evaluating it

To pass an argument and to force it later comes to the same as to evaluate it where the argument has
been left alone, on a heap that is joined to the first one (`Comparison.force_left`,
`Comparison.force_right`).  If the argument has been suspended, its value is remembered in a thunk
that has no link, so that the two runs still end in joined machines.  A selection is therefore the
selected member (`Comparison.selection_left`, `Comparison.selection_right`).
-/

namespace Letrec

open EvalM
open ByName (selected? selected?_singleton)
open ByName.World (Keeps)

namespace Comparison

variable {S : Comparison} {L L' base : Links} {P P' : List Addr} {D : Set Term} {a : Addr}
  {m m' : Machine} {h h' : Heap} {t t' u v v' : Term} {env env' : Env}
  {r : EStateM.Result Halt Machine Term} {x y : ℕ → EStateM.Result Halt Machine Term}

lemma Matched.of_takes (hx : Takes x v m) (hy : Takes y v' m') (hL : L ⊆ L')
    (hv : L'.Joins v v') (hm : S.JoinsMachine L' m m') (n : ℕ) : S.Matched L (x n) y := by
  obtain ⟨k, hcut, hok⟩ := hx
  obtain ⟨k', -, hok'⟩ := hy
  intro hr
  rcases Nat.lt_or_ge n k with hlt | hle
  · obtain ⟨m₁, hm₁⟩ := hcut n hlt
    exact absurd rfl (hr _ m₁ hm₁)
  · exact ⟨_, ⟨k', hok'⟩, hok n hle ▸ .ok hL hv hm⟩

/-- One more thunk waits on the left. -/
lemma JoinsHeap.waits_left (hh : (unfolding base P P').JoinsHeap L h h')
    (ha : h.Waits L.left a) : (unfolding base (a :: P) P').JoinsHeap L h h' :=
  hh.settle (.refl _ _) (.refl _ _) (List.forall_mem_cons.2 ⟨ha, hh.aside.1⟩) hh.aside.2

/-- One more thunk waits on the right. -/
lemma JoinsHeap.waits_right (hh : (unfolding base P P').JoinsHeap L h h')
    (ha : h'.Waits L.right a) : (unfolding base P (a :: P')).JoinsHeap L h h' :=
  hh.settle (.refl _ _) (.refl _ _) hh.aside.1 (List.forall_mem_cons.2 ⟨ha, hh.aside.2⟩)

lemma Matched.memoize_left (hr : (unfolding base (a :: P) P').Matched L r y) (ha : a ∉ P) :
    (unfolding base P P').Matched L ((Ending.memoize a).apply r) y := by
  intro hfinished
  obtain ⟨r', hk, hjoins⟩ := hr ((finished_apply _).1 hfinished)
  exact ⟨r', hk, hjoins.memoize_left ha⟩

lemma Matched.memoize_right (hr : (unfolding base P (a :: P')).Matched L r y) (ha : a ∉ P') :
    (unfolding base P P').Matched L r fun j => (Ending.memoize a).apply (y j) := by
  intro hfinished
  obtain ⟨r', ⟨k, hk⟩, hjoins⟩ := hr hfinished
  exact ⟨_, ⟨k, fun j hj => congrArg _ (hk j hj)⟩, hjoins.memoize_right ha⟩

/-! ### Suspended arguments -/

section Suspended

variable (hm : (unfolding base P P').JoinsMachine L m m') (ht : L.JoinsCode t env t' env') (n : ℕ)

include hm ht

lemma force_new_left (hthunk : m.heap.thunks[a]? = some { term := t, env })
    (ha : .thunk a ∉ L.left) (haP : a ∉ P) :
    (unfolding base P P').Matched L (force (evaluate none n) (.thunk a) m)
      fun j => evaluate none j t' env' m' := by
  have hterm := ht.term
  by_cases hlam : ∃ s b, t = .lam s b
  · -- a function has its value at once
    obtain ⟨s, b, rfl⟩ := hlam
    cases hterm with
    | @lam _ _ b' hb =>
      obtain ⟨m₁, hheap, htakes⟩ := takes_force_lam hthunk rfl rfl
      obtain ⟨m₁', hheap', hvalue⟩ := takes_lam s b' env' m'
      have hlinked : (unfolding base P P').JoinsHeap _
          (m.heap.pushClosure { param := s, body := b, env })
          (m'.heap.pushClosure { param := s, body := b', env := env' }) :=
        hm.heap.pushClosure ht
      have hjoined := hlinked.spares
        (Heap.spares_value hthunk rfl (by simpa using ha))
        (Heap.spares_of_keeps hlinked.right_subset (Heap.keeps_refl _))
      rw [← hheap, ← hheap'] at hjoined
      exact .of_takes htakes (takes_of_succ hvalue) (Set.subset_insert _ _)
        (.closure (Set.mem_insert _ _)) (.of_heap hjoined) n
  · obtain ⟨m₁, hheap, hforce⟩ := forceThunk_eq hthunk rfl
    have hwaits : m₁.heap.Waits L.left a :=
      ⟨ha, _, hheap ▸ hthunk, rfl, fun s b hlam' => hlam ⟨s, b, hlam'⟩⟩
    have hm₁ : (unfolding base (a :: P) P').JoinsMachine L m₁ m' :=
      .of_heap (JoinsHeap.waits_left (hheap ▸ hm.heap) hwaits)
    rw [force, hforce]
    exact ((unfolding_follows base (a :: P) P' n).code ht hm₁).memoize_left haP

lemma force_new_right (hthunk : m'.heap.thunks[a]? = some { term := t', env := env' })
    (ha : .thunk a ∉ L.right) (haP : a ∉ P') :
    (unfolding base P P').Matched L (evaluate none n t env m)
      fun j => force (evaluate none j) (.thunk a) m' := by
  have hterm := ht.term
  by_cases hlam : ∃ s b, t' = .lam s b
  · obtain ⟨s, b', rfl⟩ := hlam
    cases hterm with
    | @lam _ b _ hb =>
      obtain ⟨m₁, hheap, hvalue⟩ := takes_lam s b env m
      obtain ⟨m₁', hheap', htakes⟩ := takes_force_lam hthunk rfl rfl
      have hlinked : (unfolding base P P').JoinsHeap _
          (m.heap.pushClosure { param := s, body := b, env })
          (m'.heap.pushClosure { param := s, body := b', env := env' }) :=
        hm.heap.pushClosure ht
      have hjoined := hlinked.spares
        (Heap.spares_of_keeps hlinked.left_subset (Heap.keeps_refl _))
        (Heap.spares_value hthunk rfl (by simpa using ha))
      rw [← hheap, ← hheap'] at hjoined
      exact .of_takes (takes_of_succ hvalue) htakes (Set.subset_insert _ _)
        (.closure (Set.mem_insert _ _)) (.of_heap hjoined) n
  · obtain ⟨m₁, hheap, hforce⟩ := forceThunk_eq hthunk rfl
    have hwaits : m₁.heap.Waits L.right a :=
      ⟨ha, _, hheap ▸ hthunk, rfl, fun s b hlam' => hlam ⟨s, b, hlam'⟩⟩
    have hm₁ : (unfolding base P (a :: P')).JoinsMachine L m m₁ :=
      .of_heap (JoinsHeap.waits_right (hheap ▸ hm.heap) hwaits)
    simp only [force, hforce]
    exact ((unfolding_follows base P (a :: P') n).code ht hm₁).memoize_right haP

end Suspended

/-! ### Arguments -/

section Arguments

variable (hm : (unfolding base P P').JoinsMachine L m m') (ht : L.JoinsCode t env t' env')
  (hlowered : t.Lowered) (n : ℕ)

include hm ht hlowered

/-- What has been passed on the left is forced. -/
lemma force_left (hu : m.heap.Passes D t env u) (hL : L.left ⊆ D)
    (hP : ∀ a ∈ P, .thunk a ∈ D) :
    (unfolding base P P').Matched L (force (evaluate none n) u m)
      fun j => evaluate none j t' env' m' := by
  have hterm := ht.term
  have hfollows := unfolding_follows base P P' n
  cases hu with
  | new ha hthunk =>
    exact force_new_left hm ht n hthunk (fun hmem => ha (hL hmem)) fun hmem => ha (hP _ hmem)
  | same hready =>
    cases hterm with
    | int v => exact hfollows.code (.of_joins (.int v) rfl) hm
    | var => cases hready
    | lam => cases hready
    | app => cases hready
    | _ => exact hlowered.elim
  | @bound s _ hvar hs =>
    obtain rfl := hvar
    cases hterm
    obtain ⟨u', hs', hu, hready⟩ := (hs ▸ ht.var).exists_right
    refine .becomes_right (becomes_var hs' (hu.isReady_eq ▸ hready)) ?_ List.nodup_nil
      (List.disjoint_nil_left _)
    exact force_matched hfollows hu (.of_heap hm.heap)

/-- What has been passed on the right is forced. -/
lemma force_right (hu : m'.heap.Passes D t' env' u) (hL : L.right ⊆ D)
    (hP : ∀ a ∈ P', .thunk a ∈ D) :
    (unfolding base P P').Matched L (evaluate none n t env m)
      fun j => force (evaluate none j) u m' := by
  have hterm := ht.term
  have hfollows := unfolding_follows base P P'
  cases hu with
  | new ha hthunk =>
    exact force_new_right hm ht n hthunk (fun hmem => ha (hL hmem)) fun hmem => ha (hP _ hmem)
  | same hready =>
    cases hterm with
    | int v => exact (hfollows n).code (.of_joins (.int v) rfl) hm
    | var => cases hready
    | lam => cases hready
    | app => cases hready
    | _ => exact hlowered.elim
  | @bound s _ hvar hs =>
    obtain rfl := hvar
    cases hterm
    obtain ⟨u', hs', hu, hready⟩ := (hs ▸ ht.var).exists_left
    refine .becomes_left (becomes_var hs' hready) (fun k _ => ?_) List.nodup_nil
      (List.disjoint_nil_left _)
    exact force_matched (hfollows k) hu (.of_heap hm.heap)

end Arguments

/-! ### Selections -/

lemma demands_left (hx : Demands h x t env P u m)
    (hh : (unfolding base [] []).JoinsHeap L h m'.heap) (ht : L.JoinsCode t env t' env')
    (hlowered : t.Lowered) (n : ℕ) :
    (unfolding base [] []).Matched L (x n) fun j => evaluate none j t' env' m' := by
  have hL : L.left ⊆ h.contents := hh.left_subset
  have hm : (unfolding base P []).JoinsMachine L m m' :=
    .of_heap ((hh.extend hx.keeps (Heap.keeps_refl _)).settle (.refl _ _) (.refl _ _)
      (fun a ha => (hx.waits a ha).mono (Heap.keeps_refl _) hL) (by simp))
  refine .becomes_left hx.becomes (fun k _ => ?_) hx.nodup (List.disjoint_nil_right _)
  rw [List.append_nil]
  exact force_left hm ht hlowered k hx.passes (hL.trans Set.subset_union_left)
    fun a ha => Or.inr ⟨a, ha, rfl⟩

lemma demands_right (hx : Demands h x t' env' P u m')
    (hh : (unfolding base [] []).JoinsHeap L m.heap h) (ht : L.JoinsCode t env t' env')
    (hlowered : t.Lowered) (n : ℕ) :
    (unfolding base [] []).Matched L (evaluate none n t env m) x := by
  have hL : L.right ⊆ h.contents := hh.right_subset
  have hm : (unfolding base [] P).JoinsMachine L m m' :=
    .of_heap ((hh.extend (Heap.keeps_refl _) hx.keeps).settle (.refl _ _) (.refl _ _) (by simp)
      fun a ha => (hx.waits a ha).mono (Heap.keeps_refl _) hL)
  refine .becomes_right hx.becomes ?_ hx.nodup (List.disjoint_nil_right _)
  rw [List.append_nil]
  exact force_right hm ht hlowered n hx.passes (hL.trans Set.subset_union_left)
    fun a ha => Or.inr ⟨a, ha, rfl⟩

section Selection

variable {tag : Int64} {p : DispatchId × Term} {ms : List (DispatchId × Term)}
  (hh : (unfolding base [] []).JoinsHeap L m.heap m'.heap) (ht : L.JoinsCode t env t' env')
  (hlowered : t.Lowered) (hbound : ∀ q ∈ p :: ms, q.1 < dispatchIdBound) (n : ℕ)

include hh ht hlowered hbound

/-- A selection on the left is the selected member. -/
lemma selection_left (htag : env.lookup? tagName = some (.int tag))
    (ha : BindsAliases m.heap env) (hcode : selected? tag (p :: ms) = some t) :
    (unfolding base [] []).Matched L (evaluate none n (.selection p ms) env m)
      fun j => evaluate none j t' env' m' := by
  cases ms with
  | nil =>
    rw [selected?_singleton, Option.some.injEq] at hcode
    obtain rfl := hcode
    exact (unfolding_follows base [] [] n).code ht (.of_heap hh)
  | cons q ms =>
    obtain ⟨P, u, m₁, hx⟩ := exists_demands_selection htag ha hbound hcode
    exact demands_left hx hh ht hlowered n

/-- A selection on the right is the selected member. -/
lemma selection_right (htag : env'.lookup? tagName = some (.int tag))
    (ha : BindsAliases m'.heap env') (hcode : selected? tag (p :: ms) = some t') :
    (unfolding base [] []).Matched L (evaluate none n t env m)
      fun j => evaluate none j (.selection p ms) env' m' := by
  cases ms with
  | nil =>
    rw [selected?_singleton, Option.some.injEq] at hcode
    obtain rfl := hcode
    exact (unfolding_follows base [] [] n).code ht (.of_heap hh)
  | cons q ms =>
    obtain ⟨P, u, m₁, hx⟩ := exists_demands_selection htag ha hbound hcode
    exact demands_right hx hh ht hlowered n

end Selection

end Comparison

end Letrec
