import Mathlib
import Letrec.Proofs.Lowering.Failure
import Letrec.Proofs.Renumbering.Lowering
import Letrec.Proofs.Renumbering.Resolution

/-!
# The seed of a numbering

A program may be numbered from any seed on.  The seed decides which numbers the definitions get and
nothing else: resolution, classification and lowering succeed or fail as they do with the seed zero,
and what they give is the same up to the seed, which is added to every number (`seed_renumbers`).
-/

namespace Letrec

variable {α β : Type}

/-! ### Integers of a program -/

lemma intsOfDefs_mapDefs {f : α → β} {ds : List (Definition α)}
    (h : ∀ d ∈ ds, (d.body.map f).ints = d.body.ints) :
    intsOfDefs (mapDefs f ds) = intsOfDefs ds := by
  induction ds with
  | nil => rfl
  | cons d ds ih =>
    obtain ⟨n, ps, b, a⟩ := d
    rw [List.forall_mem_cons] at h
    rw [mapDefs, Definition.map, intsOfDefs, h.1, ih h.2, intsOfDefs]

lemma Expr.ints_map (f : α → β) (e : Expr α) : (e.map f).ints = e.ints := by
  induction e using Expr.induction with
  | ident i => rfl
  | int v a => rfl
  | lam ps b a ih => rw [map, ints, ih, ints]
  | call g x a ihg ihx => rw [map, ints, ihg, ihx, ints]
  | ite c p n a ihc ihp ihn => rw [map, ints, ihc, ihp, ihn, ints]
  | letIn ds b a ihds ihb => rw [map, ints, intsOfDefs_mapDefs ihds, ihb, ints]

lemma Program.ints_map (f : α → β) (p : Program α) : (p.map f).ints = p.ints := by
  rw [map, ints, ints, ← mapDefs_eq_map]
  exact intsOfDefs_mapDefs fun d _ => d.body.ints_map f

/-! ### Errors -/

/-- Lowering a resolution with its own classification fails with errors in which no number
occurs. -/
lemma Resolution.WellScoped.error_renumber {names : List String} {r : Resolution}
    {ids : List DispatchId} (hr : r.WellScoped names ids) {entry : String} {log log' : Array Event}
    {e : LowerError} (h : r.lower r.classify entry log = .error e log')
    (f : DispatchId → DispatchId) : e.renumber f = e := by
  rcases lower_cases hr entry with ⟨-, hlower⟩ | ⟨-, hmeets⟩
  · rw [hlower] at h
    obtain ⟨rfl, -⟩ := EStateM.Result.error.inj h
    rfl
  · rcases hmeets log with ⟨t, log₁, hok, -⟩ | ⟨i, -, -, log₁, herror⟩
    · rw [hok] at h
      exact absurd h (by simp)
    · rw [herror] at h
      obtain ⟨rfl, -⟩ := EStateM.Result.error.inj h
      rfl

/-! ### Programs -/

/-- Unless the seed leaves too few numbers, a program fares with it as with the seed zero.  Either
neither resolves, and the errors are the same, or the resolution is the same with the seed added to
the numbers in its tree, the components and the flags of the classification are the same with the
seed added to their numbers, and both lower alike: either with the same error, or to two terms of
one template, whose names and integers are those of the program and whose numbers are those of the
seed zero in one term and greater by the seed in the other. -/
theorem seed_renumbers {names : List String} {seed : DispatchId} {p : Program Span}
    {log : Array Event} (hids : ∀ log', resolve names seed p log ≠ .error .idsExhausted log')
    (entry : String) :
    (∃ e log₁ log₂, resolve names 0 p log = .error (.error e) log₁ ∧
      resolve names seed p log = .error (.error e) log₂) ∨
    ∃ r r' log₁ log₂, resolve names 0 p log = .ok r log₁ ∧ resolve names seed p log = .ok r' log₂ ∧
      r'.program = r.program ∧ r'.tree = r.tree.renumber (· + seed) ∧
      r'.classify = r.classify.renumber (· + seed) ∧
      (∀ s, r'.classify.components s = (r.classify.components s).map (List.map (· + seed))) ∧
      (∀ id, r'.classify.flags (id + seed) = r.classify.flags id) ∧
      r'.classify.toList = r.classify.toList.map (Prod.map (· + seed) id) ∧
      ∀ log₃ log₄,
        (∃ e, error? (r.lower r.classify entry log₃) = some e ∧
          error? (r'.lower r'.classify entry log₄) = some e) ∨
        ∃ τ : Template, τ.From (entry :: p.names) p.ints ∧
          value? (r.lower r.classify entry log₃) = some (underAliases (τ.fill id)) ∧
          value? (r'.lower r'.classify entry log₄) = some (underAliases (τ.fill (· + seed))) := by
  have hmono : StrictMono (· + seed) := fun a b h => Nat.add_lt_add_right h seed
  have hadd := resolve_add names 0 seed p log log
  rw [Nat.zero_add] at hadd
  rcases hadd with ⟨r, log₁, log₂, h, h'⟩ | ⟨e, log₁, log₂, h, h'⟩ | ⟨log₂, h'⟩
  · obtain ⟨rfl, ids, hr⟩ := resolve_wellScoped h
    have hclassify := r.classify_renumber hmono
    refine Or.inr ⟨r, _, log₁, log₂, h, h', rfl, rfl, hclassify, fun s => ?_, fun id => ?_, ?_,
      fun log₃ log₄ => ?_⟩
    · rw [hclassify, Classification.components_renumber]
    · rw [hclassify]
      exact Classification.flags_renumber hmono _ id
    · rw [hclassify, Classification.toList_renumber hmono]
    · rw [Program.names_map, Program.ints_map]
      rcases lower_renumber hmono r entry log₃ log₄ with
        ⟨t, t', log₅, log₆, ht, ht', τ, hτ, rfl, rfl⟩ | ⟨e, log₅, log₆, he, he'⟩
      · exact Or.inr ⟨τ, hτ, by rw [ht]; rfl, by rw [ht']; rfl⟩
      · rw [hr.error_renumber he] at he'
        exact Or.inl ⟨e, by rw [he]; rfl, by rw [he']; rfl⟩
  · exact Or.inl ⟨e, log₁, log₂, h, h'⟩
  · exact absurd h' (hids log₂)

/-- `even n = if n (odd 1) 0`, `_ = 2`, `odd n = even (let f x = f x in f n)` and
`main = odd even`, of which `even` and `odd` share a table. -/
def tabledNames : Program Span where
  defs :=
    [⟨⟨"even", .nowhere⟩, [⟨"n", .nowhere⟩],
      .ite (.ident ⟨"n", .nowhere⟩)
        (.call (.ident ⟨"odd", .nowhere⟩) (.int 1 .nowhere) .nowhere) (.int 0 .nowhere) .nowhere,
      .nowhere⟩,
     ⟨⟨"_", .nowhere⟩, [], .int 2 .nowhere, .nowhere⟩,
     ⟨⟨"odd", .nowhere⟩, [⟨"n", .nowhere⟩],
      .call (.ident ⟨"even", .nowhere⟩)
        (.letIn
          [⟨⟨"f", .nowhere⟩, [⟨"x", .nowhere⟩],
            .call (.ident ⟨"f", .nowhere⟩) (.ident ⟨"x", .nowhere⟩) .nowhere, .nowhere⟩]
          (.call (.ident ⟨"f", .nowhere⟩) (.ident ⟨"n", .nowhere⟩) .nowhere) .nowhere) .nowhere,
      .nowhere⟩,
     ⟨⟨"main", .nowhere⟩, [],
      .call (.ident ⟨"odd", .nowhere⟩) (.ident ⟨"even", .nowhere⟩) .nowhere, .nowhere⟩]
  ann := .nowhere

theorem seed_renumbers_tabledNames :
    (∀ log', resolve [] 4294967290 tabledNames #[] ≠ .error .idsExhausted log') ∧
    ∃ r r' log₁ log₂, resolve [] 0 tabledNames #[] = .ok r log₁ ∧
      resolve [] 4294967290 tabledNames #[] = .ok r' log₂ ∧
      r.classify.toList.map Prod.fst = [0, 1, 2, 3, 4] ∧
      r'.classify.toList = r.classify.toList.map (Prod.map (· + 4294967290) id) ∧
      ∃ τ : Template, τ.From ("main" :: tabledNames.names) tabledNames.ints ∧
        value? (r.lower r.classify "main" #[]) = some (underAliases (τ.fill id)) ∧
        value? (r'.lower r'.classify "main" #[])
          = some (underAliases (τ.fill (· + 4294967290))) := by
  have hids : ∀ log', resolve [] 4294967290 tabledNames #[] ≠ .error .idsExhausted log' := by
    intro log' h
    have hend : (value? (resolve [] 4294967290 tabledNames #[])).isSome = true := by decide +kernel
    rw [h] at hend
    exact absurd hend (by simp [value?])
  have hlowers : (value? (resolve [] 0 tabledNames #[])).map (fun r =>
      (r.classify.toList.map Prod.fst, (error? (r.lower r.classify "main" #[])).isNone))
      = some ([0, 1, 2, 3, 4], true) := by
    decide +kernel
  refine ⟨hids, ?_⟩
  obtain ⟨r₀, hr₀, hlowers⟩ := Option.map_eq_some_iff.1 hlowers
  obtain ⟨log₀, hr₀⟩ := value?_eq_some.1 hr₀
  obtain ⟨hnumbers, hlowers⟩ := Prod.mk.inj hlowers
  rcases seed_renumbers hids "main" with ⟨e, log₁, log₂, h, -⟩ |
    ⟨r, r', log₁, log₂, h, h', -, -, -, -, -, hlist, hterms⟩
  · rw [hr₀] at h
    exact absurd h (by simp)
  · obtain ⟨rfl, rfl⟩ := EStateM.Result.ok.inj (hr₀.symm.trans h)
    refine ⟨r₀, r', log₀, log₂, h, h', hnumbers, hlist, ?_⟩
    rcases hterms #[] #[] with ⟨e, he, -⟩ | hτ
    · rw [he] at hlowers
      exact absurd hlowers (by simp)
    · exact hτ

end Letrec
