import Mathlib
import Letrec.CallGraph.Components
import Letrec.Proofs.CallGraph.Basic

/-!
# Components are strongly connected, and callees come first

The depth-first search of `CallGraph.components` keeps, at every moment, a path of nodes whose
successors are still being looked at.  The proof carries this path as a list `path` beside the state
of the search.  Every node on the stack reaches a node of the path that is at least as old, and
every node of the stack reaches all younger ones; so the nodes above a node whose answer is its own
number are exactly its component.

Main results:

* `mem_flatten_components`: the components are made of the nodes;
* `nodup_flatten_components`: no node is in two components, or twice in one;
* `mutual_iff_mem_component`: a component is a class of nodes that reach one another;
* `calleesFirst_components`: an edge never leads into a later component.
-/

namespace Letrec.CallGraph

/-- No edge leads from a component into a later one. -/
def CalleesFirst (g : CallGraph) (cs : List (List ℕ)) : Prop :=
  ∀ before c after, cs = before ++ c :: after →
    ∀ u ∈ c, ∀ w, g.Edge u w → w ∈ c ∨ w ∈ before.flatten

lemma CalleesFirst.concat {g : CallGraph} {cs : List (List ℕ)} {c : List ℕ}
    (h : g.CalleesFirst cs) (hc : ∀ u ∈ c, ∀ w, g.Edge u w → w ∈ c ∨ w ∈ cs.flatten) :
    g.CalleesFirst (cs ++ [c]) := by
  intro before d after heq u hu w hw
  rcases List.eq_nil_or_concat after with rfl | ⟨after', e, rfl⟩
  · obtain ⟨rfl, hcd⟩ := List.append_inj' heq rfl
    obtain rfl : c = d := by simpa using hcd
    exact hc u hu w hw
  · have heq' : cs ++ [c] = (before ++ d :: after') ++ [e] := by simpa using heq
    obtain ⟨hcs, -⟩ := List.append_inj' heq' rfl
    exact h before d after' hcs u hu w hw

/-- Where callees come first, what can be reached from the components is in them. -/
lemma CalleesFirst.closed {g : CallGraph} {cs : List (List ℕ)} (h : g.CalleesFirst cs) {u w : ℕ}
    (hu : u ∈ cs.flatten) (hw : g.Edge u w) : w ∈ cs.flatten := by
  obtain ⟨c, hc, huc⟩ := List.mem_flatten.1 hu
  obtain ⟨before, after, rfl⟩ := List.append_of_mem hc
  rcases h before c after rfl u huc w hw with hwc | hwb
  · exact List.mem_flatten.2 ⟨c, hc, hwc⟩
  · simp only [List.flatten_append, List.mem_append]
    exact Or.inl hwb

lemma CalleesFirst.of_append {g : CallGraph} {cs ds : List (List ℕ)}
    (h : g.CalleesFirst (cs ++ ds)) : g.CalleesFirst cs := by
  rintro before c after rfl
  exact h before c (after ++ ds) (by simp)

lemma reaches_closed {g : CallGraph} {p : ℕ → Prop} (hp : ∀ u w, p u → g.Edge u w → p w) {u w : ℕ}
    (hu : p u) (h : g.Reaches u w) : p w := by
  induction h with
  | refl => exact hu
  | tail _ hedge ih => exact hp _ _ ih hedge

/-- Complete components: disjoint, each of nodes that reach one another, callees first. -/
structure Complete (g : CallGraph) (cs : List (List ℕ)) : Prop where
  nodup : cs.flatten.Nodup
  ne_nil : ∀ c ∈ cs, c ≠ []
  sorted : ∀ c ∈ cs, c.Pairwise (· < ·)
  reaches : ∀ c ∈ cs, ∀ a ∈ c, ∀ b ∈ c, g.Reaches a b
  calleesFirst : g.CalleesFirst cs

lemma complete_nil (g : CallGraph) : g.Complete [] where
  nodup := by simp
  ne_nil := by simp
  sorted := by simp
  reaches := by simp
  calleesFirst := by
    intro before c after h
    simp at h

lemma Complete.concat {g : CallGraph} {cs : List (List ℕ)} (h : g.Complete cs) {c : List ℕ}
    (hne : c ≠ []) (hsorted : c.Pairwise (· < ·)) (hdisj : ∀ a ∈ c, a ∉ cs.flatten)
    (hreach : ∀ a ∈ c, ∀ b ∈ c, g.Reaches a b)
    (hedge : ∀ u ∈ c, ∀ w, g.Edge u w → w ∈ c ∨ w ∈ cs.flatten) : g.Complete (cs ++ [c]) where
  nodup := by
    rw [List.flatten_append, List.flatten_singleton]
    refine List.nodup_append.2 ⟨h.nodup, hsorted.imp (fun h => h.ne), ?_⟩
    rintro a ha b hb rfl
    exact hdisj a hb ha
  ne_nil := by
    intro d hd
    rcases List.mem_append.1 hd with hd | hd
    · exact h.ne_nil d hd
    · rw [List.mem_singleton.1 hd]
      exact hne
  sorted := by
    intro d hd
    rcases List.mem_append.1 hd with hd | hd
    · exact h.sorted d hd
    · rw [List.mem_singleton.1 hd]
      exact hsorted
  reaches := by
    intro d hd
    rcases List.mem_append.1 hd with hd | hd
    · exact h.reaches d hd
    · rw [List.mem_singleton.1 hd]
      exact hreach
  calleesFirst := h.calleesFirst.concat hedge

/-! ### Numbers of nodes -/

/-- A numbering by age: every entry carries the number of entries before it, and no node twice. -/
def Numbered : List (ℕ × ℕ) → Prop
  | [] => True
  | (v, i) :: l => l.lookup v = none ∧ i = l.length ∧ Numbered l

lemma Numbered.lt_length {l : List (ℕ × ℕ)} (h : Numbered l) {v i : ℕ}
    (hv : l.lookup v = some i) : i < l.length := by
  induction l with
  | nil => simp at hv
  | cons p l ih =>
    obtain ⟨w, j⟩ := p
    obtain ⟨-, rfl, hl⟩ := h
    rw [lookup_cons_ite] at hv
    rw [List.length_cons]
    split_ifs at hv with hvw
    · obtain rfl := Option.some.inj hv
      omega
    · have := ih hl hv
      omega

lemma Numbered.lookup_append {l₁ l₂ : List (ℕ × ℕ)} (h : Numbered (l₁ ++ l₂)) {v i : ℕ}
    (hv : l₂.lookup v = some i) : (l₁ ++ l₂).lookup v = some i := by
  induction l₁ with
  | nil => exact hv
  | cons p l₁ ih =>
    obtain ⟨w, j⟩ := p
    have hne : v ≠ w := by
      rintro rfl
      have hnone : (l₁ ++ l₂).lookup v = none := h.1
      rw [ih h.2.2] at hnone
      exact absurd hnone (by simp)
    rw [List.cons_append, lookup_cons_ite, if_neg hne, ih h.2.2]

lemma Numbered.length_le_of_new {l₁ l₂ : List (ℕ × ℕ)} (h : Numbered (l₁ ++ l₂)) {v i : ℕ}
    (hv : (l₁ ++ l₂).lookup v = some i) (hnew : l₂.lookup v = none) : l₂.length ≤ i := by
  induction l₁ with
  | nil =>
    rw [List.nil_append, hnew] at hv
    exact absurd hv (by simp)
  | cons p l₁ ih =>
    obtain ⟨w, j⟩ := p
    rw [List.cons_append, lookup_cons_ite] at hv
    split_ifs at hv with hvw
    · obtain rfl := Option.some.inj hv
      have : j = (l₁ ++ l₂).length := h.2.1
      rw [this, List.length_append]
      omega
    · exact ih h.2.2 hv

lemma Numbered.nodup {l : List (ℕ × ℕ)} (h : Numbered l) : (l.map Prod.fst).Nodup := by
  induction l with
  | nil => simp
  | cons p l ih =>
    obtain ⟨v, i⟩ := p
    exact List.nodup_cons.2 ⟨lookup_eq_none_iff_notMem.1 h.1, ih h.2.2⟩

/-! ### The invariant of the search -/

namespace Search

/-- The number of a node, zero if it has none. -/
def number (s : Search) (v : ℕ) : ℕ := (s.index? v).getD 0

lemma number_eq {s : Search} {v i : ℕ} (h : s.index? v = some i) : s.number v = i := by
  rw [number, h, Option.getD_some]

/-- What holds whenever the search looks at an edge.  The nodes of `path` are those whose edges are
still being looked at. -/
structure Invariant (g : CallGraph) (path : List ℕ) (s : Search) : Prop where
  numbered : Numbered s.index
  nodes : ∀ v i, s.index? v = some i → v ∈ g.nodes
  reached_iff : ∀ v, (∃ i, s.index? v = some i) ↔ v ∈ s.stack ∨ v ∈ s.components.flatten
  stack_open : ∀ v ∈ s.stack, v ∉ s.components.flatten
  complete : g.Complete s.components
  path_stack : ∀ z ∈ path, z ∈ s.stack
  finished : ∀ u i, s.index? u = some i → u ∉ path → ∀ w, g.Edge u w → ∃ j, s.index? w = some j
  reaches_younger : ∀ x ∈ s.stack, ∀ y ∈ s.stack, s.number x ≤ s.number y → g.Reaches x y
  reaches_path : ∀ y ∈ s.stack, ∃ z ∈ path, s.number z ≤ s.number y ∧ g.Reaches y z

variable {g : CallGraph} {path : List ℕ} {s t : Search} {v w : ℕ}

lemma Invariant.of_mem_stack (h : Invariant g path s) (hv : v ∈ s.stack) :
    s.index? v = some (s.number v) := by
  obtain ⟨i, hi⟩ := (h.reached_iff v).2 (Or.inl hv)
  rw [hi, number_eq hi]

lemma Invariant.number_lt (h : Invariant g path s) (hv : v ∈ s.stack) :
    s.number v < s.index.length :=
  h.numbered.lt_length (h.of_mem_stack hv)

/-- A later state of the same search. -/
def Later (s t : Search) : Prop := s.index <:+ t.index

lemma Later.trans {r : Search} (h : Later r s) (h' : Later s t) : Later r t :=
  List.IsSuffix.trans h h'

lemma Later.index? (h : Later s t) (ht : Numbered t.index) {i : ℕ} (hv : s.index? v = some i) :
    t.index? v = some i := by
  obtain ⟨q, hq⟩ := h
  rw [← hq] at ht
  have := ht.lookup_append hv
  rwa [hq] at this

lemma Later.length_le_of_new (h : Later s t) (ht : Numbered t.index) {i : ℕ}
    (hv : t.index? v = some i) (hnew : s.index? v = none) : s.index.length ≤ i := by
  obtain ⟨q, hq⟩ := h
  rw [← hq] at ht
  refine ht.length_le_of_new ?_ hnew
  rw [hq]
  exact hv

lemma Later.index?_eq_none (h : Later s t) (ht : Numbered t.index) (hv : t.index? v = none) :
    s.index? v = none := by
  cases hs : s.index? v with
  | none => rfl
  | some i =>
    rw [h.index? ht hs] at hv
    exact absurd hv (by simp)

/-- The search from a new node `v` is over: the path is what it was before, the stack has only
grown, and the answer is a bound for the stack below. -/
structure Visited (g : CallGraph) (path : List ℕ) (s : Search) (v : ℕ) (r : Search × ℕ) :
    Prop where
  invariant : Invariant g path r.1
  later : Later s r.1
  reached : ∃ i, r.1.index? v = some i
  stack : ∃ new, r.1.stack = new ++ s.stack ∧ (∀ x ∈ new, s.index? x = none) ∧
    ∀ x ∈ new, ∀ y ∈ s.stack, g.Edge x y → r.2 ≤ r.1.number y
  low_le : r.2 ≤ s.index.length
  low : r.2 = s.index.length ∨ ∃ y ∈ r.1.stack, r.1.number y = r.2 ∧ g.Reaches v y

/-- The search from `v` has looked at the edges into the nodes of `done`. -/
structure Scanned (g : CallGraph) (path : List ℕ) (s : Search) (v : ℕ) (done : List ℕ)
    (r : Search × ℕ) : Prop where
  invariant : Invariant g (v :: path) r.1
  later : Later (s.enter v) r.1
  stack : ∃ new, r.1.stack = new ++ v :: s.stack ∧ (∀ x ∈ new, (s.enter v).index? x = none) ∧
    ∀ x ∈ new, ∀ y ∈ s.stack, g.Edge x y → r.2 ≤ r.1.number y
  seen : ∀ w ∈ done, ∃ j, r.1.index? w = some j ∧ (w ∈ s.stack → r.2 ≤ j)
  low_le : r.2 ≤ s.index.length
  low : ∃ y ∈ r.1.stack, r.1.number y = r.2 ∧ g.Reaches v y

/-! ### Entering a node -/

lemma index?_enter (s : Search) (v w : ℕ) :
    (s.enter v).index? w = if w = v then some s.index.length else s.index? w := by
  rw [index?, enter, lookup_cons_ite, index?]

lemma number_enter_self (s : Search) (v : ℕ) : (s.enter v).number v = s.index.length := by
  rw [number, index?_enter, if_pos rfl, Option.getD_some]

lemma number_enter_of_ne (s : Search) (h : w ≠ v) : (s.enter v).number w = s.number w := by
  rw [number, index?_enter, if_neg h, number]

lemma later_enter (s : Search) (v : ℕ) : Later s (s.enter v) := List.suffix_cons _ _

lemma Invariant.ne_of_mem_stack (h : Invariant g path s) (hv : s.index? v = none)
    (hw : w ∈ s.stack) : w ≠ v := by
  rintro rfl
  rw [h.of_mem_stack hw] at hv
  exact absurd hv (by simp)

lemma Invariant.enter (h : Invariant g path s) (hnew : s.index? v = none) (hv : v ∈ g.nodes)
    (hpath : ∀ z ∈ path, g.Reaches z v) : Invariant g (v :: path) (s.enter v) where
  numbered := ⟨hnew, rfl, h.numbered⟩
  nodes := by
    intro w i hw
    rw [index?_enter] at hw
    split_ifs at hw with hwv
    · exact hwv ▸ hv
    · exact h.nodes w i hw
  reached_iff := by
    intro w
    show _ ↔ w ∈ v :: s.stack ∨ w ∈ s.components.flatten
    rw [index?_enter, List.mem_cons, or_assoc, ← h.reached_iff w]
    split_ifs with hwv <;> simp [hwv]
  stack_open := by
    intro w hw
    rcases List.mem_cons.1 hw with rfl | hw
    · intro hc
      obtain ⟨i, hi⟩ := (h.reached_iff w).2 (Or.inr hc)
      rw [hnew] at hi
      exact absurd hi (by simp)
    · exact h.stack_open w hw
  complete := h.complete
  path_stack := by
    intro z hz
    rcases List.mem_cons.1 hz with rfl | hz
    · exact List.mem_cons_self
    · exact List.mem_cons_of_mem _ (h.path_stack z hz)
  finished := by
    intro u i hu hupath w hw
    rw [List.mem_cons, not_or] at hupath
    rw [index?_enter, if_neg hupath.1] at hu
    obtain ⟨j, hj⟩ := h.finished u i hu hupath.2 w hw
    rw [index?_enter]
    split_ifs with hwv
    · exact ⟨_, rfl⟩
    · exact ⟨j, hj⟩
  reaches_younger := by
    intro x hx y hy hxy
    rcases List.mem_cons.1 hx with rfl | hxs <;> rcases List.mem_cons.1 hy with rfl | hys
    · exact Relation.ReflTransGen.refl
    · -- the new node is younger than all others
      rw [number_enter_self, number_enter_of_ne s (h.ne_of_mem_stack hnew hys)] at hxy
      have := h.number_lt hys
      omega
    · obtain ⟨z, hz, -, hr⟩ := h.reaches_path x hxs
      exact hr.trans (hpath z hz)
    · rw [number_enter_of_ne s (h.ne_of_mem_stack hnew hxs),
        number_enter_of_ne s (h.ne_of_mem_stack hnew hys)] at hxy
      exact h.reaches_younger x hxs y hys hxy
  reaches_path := by
    intro y hy
    rcases List.mem_cons.1 hy with rfl | hy
    · exact ⟨y, List.mem_cons_self, le_rfl, Relation.ReflTransGen.refl⟩
    · obtain ⟨z, hz, hzy, hr⟩ := h.reaches_path y hy
      refine ⟨z, List.mem_cons_of_mem _ hz, ?_, hr⟩
      rw [number_enter_of_ne s (h.ne_of_mem_stack hnew hy),
        number_enter_of_ne s (h.ne_of_mem_stack hnew (h.path_stack z hz))]
      exact hzy

lemma scanned_nil (h : Invariant g path s) (hnew : s.index? v = none) (hv : v ∈ g.nodes)
    (hpath : ∀ z ∈ path, g.Reaches z v) :
    Scanned g path s v [] (s.enter v, s.index.length) where
  invariant := h.enter hnew hv hpath
  later := List.suffix_rfl
  stack := ⟨[], rfl, by simp, by simp⟩
  seen := by simp
  low_le := le_rfl
  low := ⟨v, List.mem_cons_self, number_enter_self s v, Relation.ReflTransGen.refl⟩

/-! ### Looking at one edge -/

/-- What a search from new nodes does, within a bound on its depth. -/
def VisitsTo (g : CallGraph) (fuel : ℕ) : Prop :=
  ∀ (path : List ℕ) (s : Search) (v : ℕ), Invariant g path s → s.index? v = none → v ∈ g.nodes →
    (∀ z ∈ path, g.Reaches z v) → g.nodes.length ≤ s.index.length + fuel →
    Visited g path s v (visit g fuel v s)

lemma Later.number_eq_of_mem (h : Later s t) (hs : Invariant g path s) (ht : Numbered t.index)
    (hw : w ∈ s.stack) : t.number w = s.number w :=
  number_eq (h.index? ht (hs.of_mem_stack hw))

lemma Scanned.mem_stack {done : List ℕ} {r : Search × ℕ} (h : Scanned g path s v done r)
    (hw : w ∈ s.stack) : w ∈ r.1.stack := by
  obtain ⟨new, hnew, -, -⟩ := h.stack
  rw [hnew]
  simp [hw]

/-- An edge to a node that has been reached changes only the answer. -/
lemma Scanned.lower {done : List ℕ} {r : Search × ℕ} (h : Scanned g path s v done r)
    (hvw : g.Edge v w) {j low : ℕ} (hj : r.1.index? w = some j)
    (hlow : low = r.2 ∧ (w ∈ r.1.stack → r.2 ≤ j) ∨ w ∈ r.1.stack ∧ low = j ∧ low ≤ r.2) :
    Scanned g path s v (done ++ [w]) (r.1, low) := by
  have hle : low ≤ r.2 := by
    rcases hlow with ⟨h', -⟩ | ⟨-, -, h'⟩
    · exact h'.le
    · exact h'
  refine ⟨h.invariant, h.later, ?_, ?_, hle.trans h.low_le, ?_⟩
  · obtain ⟨new, hst, hn, hedge⟩ := h.stack
    exact ⟨new, hst, hn, fun x hx y hy hxy => hle.trans (hedge x hx y hy hxy)⟩
  · intro u hu
    rcases List.mem_append.1 hu with hu | hu
    · obtain ⟨i, hi, hlei⟩ := h.seen u hu
      exact ⟨i, hi, fun hus => hle.trans (hlei hus)⟩
    · obtain rfl := List.mem_singleton.1 hu
      refine ⟨j, hj, fun hus => ?_⟩
      rcases hlow with ⟨h', h''⟩ | ⟨-, h', -⟩
      · exact h'.le.trans (h'' (h.mem_stack hus))
      · exact h'.le
  · rcases hlow with ⟨h', -⟩ | ⟨hw, h', -⟩
    · obtain ⟨y, hy, hyn, hr⟩ := h.low
      exact ⟨y, hy, hyn.trans h'.symm, hr⟩
    · exact ⟨w, hw, (number_eq hj).trans h'.symm, Relation.ReflTransGen.single hvw⟩

/-- An edge to a new node: the search from there comes first. -/
lemma Scanned.descend {done : List ℕ} {r r' : Search × ℕ} (h : Scanned g path s v done r)
    (hvw : g.Edge v w) (hw : r.1.index? w = none) (h' : Visited g (v :: path) r.1 w r') :
    Scanned g path s v (done ++ [w]) (r'.1, min r.2 r'.2) := by
  have hnum := h'.invariant.numbered
  obtain ⟨new, hst, hn, hedge⟩ := h.stack
  obtain ⟨new', hst', hn', hedge'⟩ := h'.stack
  refine ⟨h'.invariant, h.later.trans h'.later, ?_, ?_, (min_le_left _ _).trans h.low_le, ?_⟩
  · refine ⟨new' ++ new, ?_, ?_, ?_⟩
    · rw [hst', hst, List.append_assoc]
    · intro x hx
      rcases List.mem_append.1 hx with hx | hx
      · exact h.later.index?_eq_none h.invariant.numbered (hn' x hx)
      · exact hn x hx
    · intro x hx y hy hxy
      have hyr : y ∈ r.1.stack := h.mem_stack hy
      rcases List.mem_append.1 hx with hx | hx
      · exact (min_le_right _ _).trans (hedge' x hx y hyr hxy)
      · rw [h'.later.number_eq_of_mem h.invariant hnum hyr]
        exact (min_le_left _ _).trans (hedge x hx y hy hxy)
  · intro u hu
    rcases List.mem_append.1 hu with hu | hu
    · obtain ⟨i, hi, hlei⟩ := h.seen u hu
      exact ⟨i, h'.later.index? hnum hi, fun hus => (min_le_left _ _).trans (hlei hus)⟩
    · obtain rfl := List.mem_singleton.1 hu
      obtain ⟨i, hi⟩ := h'.reached
      refine ⟨i, hi, fun hus => ?_⟩
      exact absurd rfl (h.invariant.ne_of_mem_stack hw (h.mem_stack hus))
  · -- the smaller of the two answers is the number of a node that is still on the stack
    obtain ⟨y, hy, hyn, hr⟩ := h.low
    have hyr' : y ∈ r'.1.stack := by
      rw [hst']
      exact List.mem_append_right _ hy
    have hyn' : r'.1.number y = r.2 := by
      rw [h'.later.number_eq_of_mem h.invariant hnum hy, hyn]
    rcases le_total r.2 r'.2 with hle | hle
    · exact ⟨y, hyr', hyn'.trans (min_eq_left hle).symm, hr⟩
    · rcases h'.low with heq | ⟨y', hy', hyn₂, hr'⟩
      · -- the answer of a complete component is too large to count
        have hlt := h.invariant.number_lt hy
        rw [hyn, ← heq] at hlt
        omega
      · exact ⟨y', hy', hyn₂.trans (min_eq_right hle).symm,
          Relation.ReflTransGen.head hvw hr'⟩

lemma Scanned.edge {fuel : ℕ} (hvisit : VisitsTo g fuel) (hg : g.WellFormed) {done : List ℕ}
    {r : Search × ℕ} (h : Scanned g path s v done r) (hvw : g.Edge v w)
    (hpath : ∀ z ∈ path, g.Reaches z v) (hfuel : g.nodes.length ≤ s.index.length + (fuel + 1)) :
    Scanned g path s v (done ++ [w]) (Search.edge (visit g fuel) r w) := by
  unfold Search.edge
  cases hj : r.1.index? w with
  | none =>
    refine h.descend hvw hj (hvisit (v :: path) r.1 w h.invariant hj (hg.closed v w hvw) ?_ ?_)
    · intro z hz
      rcases List.mem_cons.1 hz with rfl | hz
      · exact Relation.ReflTransGen.single hvw
      · exact (hpath z hz).tail hvw
    · have := h.later.length_le
      rw [enter, List.length_cons] at this
      omega
  | some j =>
    dsimp only
    split_ifs with hst
    · have hw : w ∈ r.1.stack := by simpa using hst
      rcases le_total r.2 j with hle | hle
      · rw [min_eq_left hle]
        exact h.lower hvw hj (Or.inl ⟨rfl, fun _ => hle⟩)
      · rw [min_eq_right hle]
        exact h.lower hvw hj (Or.inr ⟨hw, rfl, hle⟩)
    · have hw : w ∉ r.1.stack := by simpa using hst
      exact h.lower hvw hj (Or.inl ⟨rfl, fun h' => absurd h' hw⟩)

lemma scanned_successors {fuel : ℕ} (hvisit : VisitsTo g fuel) (hg : g.WellFormed)
    (hpath : ∀ z ∈ path, g.Reaches z v) (hfuel : g.nodes.length ≤ s.index.length + (fuel + 1))
    {done : List ℕ} {r : Search × ℕ} (h : Scanned g path s v done r) (ws : List ℕ)
    (hws : ∀ w ∈ ws, g.Edge v w) :
    Scanned g path s v (done ++ ws) (ws.foldl (Search.edge (visit g fuel)) r) := by
  induction ws generalizing done r with
  | nil => simpa using h
  | cons w ws ih =>
    have h₁ := h.edge hvisit hg (hws w (by simp)) hpath hfuel
    have h₂ := ih h₁ (fun u hu => hws u (List.mem_cons_of_mem _ hu))
    simpa using h₂

/-! ### Leaving a node -/

section Leave

variable {done : List ℕ} {r : Search × ℕ}

lemma Scanned.number_self (h : Scanned g path s v done r) : r.1.number v = s.index.length := by
  refine number_eq (h.later.index? h.invariant.numbered ?_)
  rw [index?_enter, if_pos rfl]

lemma Scanned.number_lt (h : Scanned g path s v done r) (hs : Invariant g path s)
    (hw : w ∈ s.stack) : r.1.number w < s.index.length := by
  rw [((later_enter s v).trans h.later).number_eq_of_mem hs h.invariant.numbered hw]
  exact hs.number_lt hw

/-- Every node reached by now, `v` included, has only successors that have been reached. -/
lemma Scanned.finished (h : Scanned g path s v done r) (hdone : ∀ w, g.Edge v w → w ∈ done)
    {u i : ℕ} (hu : r.1.index? u = some i) (hupath : u ∉ path) (hw : g.Edge u w) :
    ∃ j, r.1.index? w = some j := by
  by_cases huv : u = v
  · subst huv
    obtain ⟨j, hj, -⟩ := h.seen w (hdone w hw)
    exact ⟨j, hj⟩
  · exact h.invariant.finished u i hu (by simp [huv, hupath]) w hw

/-- An edge from `v`, or from a node above it, into the stack below bounds the answer. -/
lemma Scanned.low_le_of_edge (h : Scanned g path s v done r) (hdone : ∀ w, g.Edge v w → w ∈ done)
    {new : List ℕ} (hst : r.1.stack = new ++ v :: s.stack) {u y : ℕ} (hu : u ∈ v :: new)
    (hy : y ∈ s.stack) (huy : g.Edge u y) : r.2 ≤ r.1.number y := by
  rcases List.mem_cons.1 hu with rfl | hu
  · obtain ⟨j, hj, hle⟩ := h.seen y (hdone y huy)
    rw [number_eq hj]
    exact hle hy
  · obtain ⟨new', hst', -, hedge⟩ := h.stack
    obtain rfl : new = new' := List.append_cancel_right (hst.symm.trans hst')
    exact hedge u hu y hy huy

/-- The node stays on the stack if it has found an older one. -/
lemma Scanned.leave_open (h : Scanned g path s v done r) (hnew : s.index? v = none)
    (hdone : ∀ w, g.Edge v w → w ∈ done) (hlow : r.2 ≠ s.index.length) : Visited g path s v r where
  invariant := by
    have hlt : r.2 < s.index.length := lt_of_le_of_ne h.low_le hlow
    refine { h.invariant with path_stack := ?_, finished := ?_, reaches_path := ?_ }
    · exact fun z hz => h.invariant.path_stack z (List.mem_cons_of_mem _ hz)
    · exact fun u i hu hupath w hw => h.finished hdone hu hupath hw
    · intro y hy
      obtain ⟨z, hz, hzy, hr⟩ := h.invariant.reaches_path y hy
      rcases List.mem_cons.1 hz with rfl | hz
      · -- what reaches `v` also reaches what `v` has found
        obtain ⟨y', hy', hyn', hr'⟩ := h.low
        obtain ⟨z', hz', hzy', hr''⟩ := h.invariant.reaches_path y' hy'
        rw [h.number_self] at hzy
        rcases List.mem_cons.1 hz' with rfl | hz'
        · rw [h.number_self, hyn'] at hzy'
          omega
        · exact ⟨z', hz', by omega, hr.trans (hr'.trans hr'')⟩
      · exact ⟨z, hz, hzy, hr⟩
  later := (later_enter s v).trans h.later
  reached := ⟨_, h.later.index? h.invariant.numbered (by rw [index?_enter, if_pos rfl])⟩
  stack := by
    obtain ⟨new, hst, hn, -⟩ := h.stack
    refine ⟨new ++ [v], by simp [hst], ?_, ?_⟩
    · intro x hx
      rcases List.mem_append.1 hx with hx | hx
      · have hx' := hn x hx
        rw [index?_enter] at hx'
        split_ifs at hx' with hxv
        exact hx'
      · rw [List.mem_singleton.1 hx]
        exact hnew
    · intro x hx y hy hxy
      refine h.low_le_of_edge hdone hst ?_ hy hxy
      simpa [or_comm] using hx
  low_le := h.low_le
  low := Or.inr h.low

lemma emit_eq {new rest : List ℕ} (hst : t.stack = new ++ v :: rest) (hv : v ∉ new) :
    t.emit v = { t with stack := rest, components := t.components ++ [ascending (v :: new)] } := by
  have htake : t.stack.takeWhile (· ≠ v) = new := by
    rw [hst, List.takeWhile_append_of_pos]
    · simp
    · intro a ha
      have : a ≠ v := fun h => hv (h ▸ ha)
      simpa using this
  have hdrop : t.stack.dropWhile (· ≠ v) = v :: rest := by
    rw [hst, List.dropWhile_append_of_pos]
    · simp
    · intro a ha
      have : a ≠ v := fun h => hv (h ▸ ha)
      simpa using this
  rw [emit, htake, hdrop, List.tail_cons]

/-- When the answer is the node's own number, no edge leaves the nodes from it upwards, except into
complete components. -/
lemma Scanned.edge_of_complete (h : Scanned g path s v done r) (hs : Invariant g path s)
    (hdone : ∀ w, g.Edge v w → w ∈ done) {new : List ℕ} (hst : r.1.stack = new ++ v :: s.stack)
    (hlow : r.2 = s.index.length) (hpath : ∀ u ∈ v :: new, u ∉ path) :
    ∀ u ∈ v :: new, ∀ w, g.Edge u w → w ∈ v :: new ∨ w ∈ r.1.components.flatten := by
  intro u hu w huw
  have hmem : u ∈ r.1.stack := by
    rw [hst]
    rcases List.mem_cons.1 hu with rfl | hu <;> simp [*]
  obtain ⟨j, hj⟩ := h.finished hdone (h.invariant.of_mem_stack hmem) (hpath u hu) huw
  rcases (h.invariant.reached_iff w).1 ⟨j, hj⟩ with hw | hw
  · left
    rw [hst, List.mem_append, List.mem_cons] at hw
    rcases hw with hw | rfl | hw
    · exact List.mem_cons_of_mem _ hw
    · exact List.mem_cons_self
    · have h₁ := h.low_le_of_edge hdone hst hu hw huw
      have h₂ := h.number_lt hs hw
      omega
  · exact Or.inr hw

/-- When the answer is the node's own number, the nodes from it upwards reach one another. -/
lemma Scanned.reaches_of_complete (h : Scanned g path s v done r) (hs : Invariant g path s)
    {new : List ℕ} (hst : r.1.stack = new ++ v :: s.stack)
    (hn : ∀ x ∈ new, (s.enter v).index? x = none) (hout : ∀ u ∈ v :: new, u ∉ s.stack)
    (hedge : ∀ u ∈ v :: new, ∀ w, g.Edge u w → w ∈ v :: new ∨ w ∈ r.1.components.flatten) :
    ∀ u ∈ v :: new, g.Reaches u v ∧ g.Reaches v u := by
  intro u hu
  have hvst : v ∈ r.1.stack := by simp [hst]
  have hust : u ∈ r.1.stack := by
    rw [hst]
    rcases List.mem_cons.1 hu with rfl | hu <;> simp [*]
  constructor
  · obtain ⟨z, hz, -, hr⟩ := h.invariant.reaches_path u hust
    -- edges do not lead out of the new nodes and the components, so the node of the path is `v`
    have hclosed : z ∈ v :: new ∨ z ∈ r.1.components.flatten := by
      refine reaches_closed (p := fun x => x ∈ v :: new ∨ x ∈ r.1.components.flatten) ?_
        (Or.inl hu) hr
      rintro x y (hx | hx) hxy
      · exact hedge x hx y hxy
      · exact Or.inr (h.invariant.complete.calleesFirst.closed hx hxy)
    rcases List.mem_cons.1 hz with rfl | hz
    · exact hr
    · rcases hclosed with hzc | hzc
      · exact absurd (hs.path_stack z hz) (hout z hzc)
      · exact absurd hzc (h.invariant.stack_open z
          (h.invariant.path_stack z (List.mem_cons_of_mem _ hz)))
  · refine h.invariant.reaches_younger v hvst u hust ?_
    rcases List.mem_cons.1 hu with rfl | hu
    · exact le_rfl
    · have hlen := h.later.length_le_of_new h.invariant.numbered
        (h.invariant.of_mem_stack hust) (hn u hu)
      rw [enter, List.length_cons] at hlen
      rw [h.number_self]
      omega

/-- The node leaves the stack, together with all above it, if it has found no older one. -/
lemma Scanned.leave_complete (h : Scanned g path s v done r) (hs : Invariant g path s)
    (hnew : s.index? v = none) (hdone : ∀ w, g.Edge v w → w ∈ done)
    (hlow : r.2 = s.index.length) : Visited g path s v (r.1.emit v, r.2) := by
  obtain ⟨new, hst, hn, -⟩ := h.stack
  have hvnew : v ∉ new := by
    intro hv
    have := hn v hv
    rw [index?_enter, if_pos rfl] at this
    exact absurd this (by simp)
  have hout : ∀ u ∈ v :: new, u ∉ s.stack := by
    intro u hu hus
    have hsu := (later_enter s v).index? ⟨hnew, rfl, hs.numbered⟩ (hs.of_mem_stack hus)
    rcases List.mem_cons.1 hu with rfl | hu
    · exact absurd rfl (hs.ne_of_mem_stack hnew hus)
    · rw [hn u hu] at hsu
      exact absurd hsu (by simp)
  -- what is above `v` on the stack, with `v` itself, is the new component
  have hpath : ∀ u ∈ v :: new, u ∉ path := fun u hu hup => hout u hu (hs.path_stack u hup)
  have hedge := h.edge_of_complete hs hdone hst hlow hpath
  have hreach := h.reaches_of_complete hs hst hn hout hedge
  have hmem : ∀ u ∈ v :: new, u ∈ r.1.stack := by
    intro u hu
    rw [hst]
    rcases List.mem_cons.1 hu with rfl | hu <;> simp [*]
  have hcomplete : g.Complete (r.1.components ++ [ascending (v :: new)]) := by
    refine h.invariant.complete.concat ?_ (ascending_sorted _) ?_ ?_ ?_
    · exact List.ne_nil_of_mem (mem_ascending.2 List.mem_cons_self)
    · exact fun a ha => h.invariant.stack_open a (hmem a (mem_ascending.1 ha))
    · intro a ha b hb
      exact (hreach a (mem_ascending.1 ha)).1.trans (hreach b (mem_ascending.1 hb)).2
    · intro u hu w huw
      rw [mem_ascending]
      exact hedge u (mem_ascending.1 hu) w huw
  have hbelow : ∀ w ∈ s.stack, w ∈ r.1.stack := fun w hw => h.mem_stack hw
  rw [emit_eq hst hvnew]
  refine ⟨⟨h.invariant.numbered, h.invariant.nodes, ?_, ?_, hcomplete, hs.path_stack, ?_, ?_, ?_⟩,
    (later_enter s v).trans h.later,
    ⟨_, h.later.index? h.invariant.numbered (by rw [index?_enter, if_pos rfl])⟩,
    ⟨[], rfl, by simp, by simp⟩, h.low_le, Or.inl hlow⟩
  · -- the nodes of the new component are no longer on the stack
    intro w
    refine (h.invariant.reached_iff w).trans ?_
    simp only [hst, List.mem_append, List.mem_cons, List.flatten_append, List.flatten_singleton,
      mem_ascending]
    tauto
  · intro w hw
    simp only [List.flatten_append, List.flatten_singleton, List.mem_append, mem_ascending, not_or]
    exact ⟨h.invariant.stack_open w (hbelow w hw), fun hc => hout w hc hw⟩
  · exact fun u i hu hupath w hw => h.finished hdone hu hupath hw
  · exact fun x hx y hy hxy => h.invariant.reaches_younger x (hbelow x hx) y (hbelow y hy) hxy
  · intro y hy
    obtain ⟨z, hz, hzy, hr⟩ := h.invariant.reaches_path y (hbelow y hy)
    rcases List.mem_cons.1 hz with rfl | hz
    · -- an older node has not found `v` on its path
      have := h.number_lt hs hy
      rw [h.number_self] at hzy
      omega
    · exact ⟨z, hz, hzy, hr⟩

end Leave

/-! ### The whole search -/

lemma visitsTo (hg : g.WellFormed) (fuel : ℕ) : VisitsTo g fuel := by
  induction fuel with
  | zero =>
    -- a bound of zero is reached only when there is no new node
    intro path s v hs hnew hv _ hfuel
    exfalso
    have hsub : v :: s.index.map Prod.fst ⊆ g.nodes := by
      intro w hw
      rcases List.mem_cons.1 hw with rfl | hw
      · exact hv
      · obtain ⟨i, hi⟩ := lookup_isSome_of_mem hw
        exact hs.nodes w i hi
    have hnodup : (v :: s.index.map Prod.fst).Nodup :=
      List.nodup_cons.2 ⟨lookup_eq_none_iff_notMem.1 hnew, hs.numbered.nodup⟩
    have := (List.subperm_of_subset hnodup hsub).length_le
    rw [List.length_cons, List.length_map] at this
    omega
  | succ fuel ih =>
    intro path s v hs hnew hv hpath hfuel
    have hscan := scanned_successors ih hg hpath hfuel (scanned_nil hs hnew hv hpath)
      (g.successors v) (fun w hw => hw)
    rw [List.nil_append] at hscan
    rw [visit]
    split_ifs with hlow
    · exact hscan.leave_complete hs hnew (fun w hw => hw) hlow
    · exact hscan.leave_open hnew (fun w hw => hw) hlow

lemma invariant_init (g : CallGraph) : Invariant g [] {} where
  numbered := trivial
  nodes := by simp [index?]
  reached_iff := by simp [index?]
  stack_open := by simp
  complete := complete_nil g
  path_stack := by simp
  finished := by simp [index?]
  reaches_younger := by simp
  reaches_path := by simp

lemma invariant_foldl (hg : g.WellFormed) (vs : List ℕ) (hvs : ∀ v ∈ vs, v ∈ g.nodes)
    {s : Search} (hs : Invariant g [] s) :
    Invariant g [] (vs.foldl
        (fun s v => if (s.index? v).isSome then s else (visit g g.nodes.length v s).1) s) ∧
      ∀ v, v ∈ vs ∨ (∃ i, s.index? v = some i) →
        ∃ i, (vs.foldl (fun s v => if (s.index? v).isSome then s
          else (visit g g.nodes.length v s).1) s).index? v = some i := by
  induction vs generalizing s with
  | nil => exact ⟨hs, by simp⟩
  | cons u vs ih =>
    rw [List.foldl_cons]
    split_ifs with hu
    · obtain ⟨h₁, h₂⟩ := ih (fun v hv => hvs v (List.mem_cons_of_mem _ hv)) hs
      refine ⟨h₁, fun v hv => h₂ v ?_⟩
      rcases hv with hv | hv
      · rcases List.mem_cons.1 hv with rfl | hv
        · exact Or.inr (Option.isSome_iff_exists.1 hu)
        · exact Or.inl hv
      · exact Or.inr hv
    · have hnew : s.index? u = none := by simpa using hu
      have hvis := visitsTo hg g.nodes.length [] s u hs hnew (hvs u (by simp)) (by simp) (by omega)
      obtain ⟨h₁, h₂⟩ := ih (fun v hv => hvs v (List.mem_cons_of_mem _ hv)) hvis.invariant
      refine ⟨h₁, fun v hv => h₂ v ?_⟩
      rcases hv with hv | ⟨i, hi⟩
      · rcases List.mem_cons.1 hv with rfl | hv
        · exact Or.inr hvis.reached
        · exact Or.inl hv
      · exact Or.inr ⟨i, hvis.later.index? hvis.invariant.numbered hi⟩

end Search

/-! ### Components -/

section Results

variable {g : CallGraph} (hg : g.WellFormed)

include hg

lemma complete_components : g.Complete g.components :=
  (Search.invariant_foldl hg g.nodes (fun _ hv => hv) (Search.invariant_init g)).1.complete

/-- The components are made of the nodes. -/
theorem mem_flatten_components {v : ℕ} : v ∈ g.components.flatten ↔ v ∈ g.nodes := by
  obtain ⟨hinv, hall⟩ :=
    Search.invariant_foldl hg g.nodes (fun _ hv => hv) (Search.invariant_init g)
  constructor
  · intro hv
    obtain ⟨i, hi⟩ := (hinv.reached_iff v).2 (Or.inr hv)
    exact hinv.nodes v i hi
  · intro hv
    rcases (hinv.reached_iff v).1 (hall v (Or.inl hv)) with hst | hc
    · -- with nothing left to look at, the stack is empty
      obtain ⟨z, hz, -⟩ := hinv.reaches_path v hst
      exact absurd hz (by simp)
    · exact hc

/-- No node is in two components, or twice in one. -/
theorem nodup_flatten_components : g.components.flatten.Nodup := (complete_components hg).nodup

/-- An edge never leads into a later component. -/
theorem calleesFirst_components : g.CalleesFirst g.components :=
  (complete_components hg).calleesFirst

/-- The component of a node consists of the nodes that it reaches and that reach it. -/
theorem mutual_iff_mem_component {c : List ℕ} (hc : c ∈ g.components) {u w : ℕ} (hu : u ∈ c) :
    g.Mutual u w ↔ w ∈ c := by
  have hcomplete := complete_components hg
  constructor
  · rintro ⟨huw, hwu⟩
    obtain ⟨before, after, heq⟩ := List.append_of_mem hc
    have hfirst : g.CalleesFirst ((before ++ [c]) ++ after) := by
      rw [List.append_assoc, List.singleton_append, ← heq]
      exact hcomplete.calleesFirst
    have hw : w ∈ (before ++ [c]).flatten :=
      reaches_closed (fun x y hx hxy => hfirst.of_append.closed hx hxy) (by simp [hu]) huw
    rw [List.flatten_append, List.flatten_singleton, List.mem_append] at hw
    rcases hw with hw | hw
    · -- from an earlier component there is no way back
      have hu' : u ∈ before.flatten :=
        reaches_closed (fun x y hx hxy => hfirst.of_append.of_append.closed hx hxy) hw hwu
      have hnodup := hcomplete.nodup
      rw [heq, List.flatten_append, List.nodup_append] at hnodup
      exact absurd rfl (hnodup.2.2 u hu' u (by simp [hu]))
    · exact hw
  · intro hw
    exact ⟨hcomplete.reaches c hc u hu w hw, hcomplete.reaches c hc w hw u hu⟩

end Results

end Letrec.CallGraph
