import Letrec.Expr.Printer
import Letrec.Proofs.Expr
import Letrec.Proofs.Expr.Reader

/-!
# Printing is unambiguous

A text that stands for an expression at some level is read as that expression: at the level of a
whole expression up to what its end finishes, as an operand where nothing stands before it, and as
an argument after a function, too (`Reads`).  Parentheses lead from the first level to the last one,
so every form of expression is shown to be read at the level that it is written at without
parentheses.

Reading the text of a program gives the program back, without its annotations (`program?_text`).
So two programs with one text differ in annotations only (`text_unambiguous`).
-/

namespace Letrec

namespace Reader

/-! ### Names that can be read back -/

/-- An identifier that is no key word. -/
def isIdentifier (name : String) : Bool :=
  (match name.toList with
    | [] => false
    | c :: cs => (c.isAlpha || c == '_') && cs.all isWordChar)
  && !keywords.contains name

/-- The name of an operator other than the sign of a definition and the arrow of a function. -/
def isOperatorName (name : String) : Bool :=
  !name.isEmpty && name.toList.all isSymbolChar && name != "=" && name != "->"

/-- A name that can be told from everything else in a text. -/
def IsReadable (name : String) : Prop := isIdentifier name ∨ isOperatorName name

instance (name : String) : Decidable (IsReadable name) := inferInstanceAs (Decidable (_ ∨ _))

variable {name : String} {c : Char}

lemma isAlphanumeric_of_isAlpha (hc : c.isAlpha) : Text.isAlphanumeric c := by
  have hranges : (65 ≤ c.toNat ∧ c.toNat ≤ 90) ∨ (97 ≤ c.toNat ∧ c.toNat ≤ 122) := by
    simpa [Char.isAlpha, Char.isUpper, Char.isLower, UInt32.le_iff_toNat_le, ge_iff_le] using hc
  refine List.any_eq_true.2 ?_
  rcases hranges with h | h
  · exact ⟨(0x41, 0x5a), .tail _ (.head _), by simpa using h⟩
  · exact ⟨(0x61, 0x7a), .tail _ (.tail _ (.head _)), by simpa using h⟩

lemma isOperatorChar_of_isSymbolChar (hc : isSymbolChar c) : isOperatorChar c := by
  have hall : ['+', '-', '*', '/', '<', '>', '=', '!', '&', '|', '^', '%'].all isOperatorChar := by
    decide +kernel
  exact List.all_eq_true.1 hall c (List.contains_iff_mem.1 hc)

lemma isOperator_of_isOperatorName (h : isOperatorName name) : isOperator name := by
  simp only [isOperatorName, Bool.and_eq_true] at h
  obtain ⟨⟨⟨hne, hall⟩, -⟩, -⟩ := h
  rw [isOperator, hne, Bool.true_and, List.all_eq_true]
  exact fun c hc => isOperatorChar_of_isSymbolChar (List.all_eq_true.1 hall c hc)

/-- An identifier by its first character. -/
lemma exists_of_isIdentifier (h : isIdentifier name) :
    ∃ c cs, name.toList = c :: cs ∧ (c.isAlpha ∨ c = '_') ∧ ∀ d ∈ name.toList, isWordChar d := by
  cases hname : name.toList with
  | nil => simp [isIdentifier, hname] at h
  | cons c cs =>
    simp only [isIdentifier, hname, Bool.and_eq_true, Bool.or_eq_true, beq_iff_eq,
      List.all_eq_true] at h
    obtain ⟨⟨hc, hcs⟩, -⟩ := h
    refine ⟨c, cs, rfl, hc, List.forall_mem_cons.2 ⟨?_, hcs⟩⟩
    rcases hc with hc | rfl
    · simp [isWordChar, Char.isAlphanum, hc]
    · rfl

lemma isOperator_of_isIdentifier (h : isIdentifier name) : isOperator name = false := by
  obtain ⟨c, cs, hname, hc, -⟩ := exists_of_isIdentifier h
  have hfirst : isOperatorChar c = false := by
    rcases hc with hc | rfl
    · simp [isOperatorChar, isAlphanumeric_of_isAlpha hc]
    · simp [isOperatorChar]
  simp [isOperator, hname, hfirst]

lemma notMem_keywords_of_isIdentifier (h : isIdentifier name) : name ∉ keywords := by
  simp only [isIdentifier, Bool.and_eq_true, Bool.not_eq_true', List.contains_eq_mem,
    decide_eq_false_iff_not] at h
  exact h.2

/-! ### Texts that are read as an expression -/

/-- At the level, the text is read as the expression. -/
def Reads (s : String) (e : Expr Unit) : Level → Prop
  | .top => ∀ st, Awaits st → ∃ st', ended st' = some (finish e st) ∧
    ∀ rest, Separated rest → read (s.toList ++ rest) st = read rest st'
  | .operand => ∀ st rest, Awaits st → Separated rest →
    read (s.toList ++ rest) st = read rest (.operand e :: st)
  | .argument => ∀ st rest, Takes st → Separated rest →
    read (s.toList ++ rest) st = read rest (operand e st)

variable {s l r f x : String} {e el er ef ex : Expr Unit} {level : Level}

lemma Reads.operand (h : Reads s e .argument) : Reads s e .operand := by
  intro st rest hst hrest
  rw [h st rest hst.takes hrest, hst.operand_eq]

lemma Reads.top (h : Reads s e .operand) : Reads s e .top :=
  fun st hst => ⟨.operand e :: st, rfl, fun rest hrest => h st rest hst hrest⟩

/-- What is read as an argument is read at every level. -/
lemma Reads.everywhere (h : Reads s e .argument) : Reads s e level := by
  cases level with
  | top => exact h.operand.top
  | operand => exact h.operand
  | argument => exact h

/-- In parentheses, an expression is an argument. -/
lemma Reads.paren (h : Reads s e .top) : Reads ("(" ++ s ++ ")") e .argument := by
  intro st rest hst hrest
  have htext : ("(" ++ s ++ ")").toList ++ rest = '(' :: (s.toList ++ ')' :: rest) := by
    simp [String.toList_append]
  obtain ⟨st', hended, hread⟩ := h (.paren :: st) trivial
  have hclose : mark [')'] st' = some (Reader.operand e st) := closeParen_of_ended hended
  rw [htext, read_mark rfl]
  change read (s.toList ++ ')' :: rest) (.paren :: st) = _
  rw [hread _ (separated_cons rfl), read_mark rfl, hclose]
  rfl

/-- A whole expression, in parentheses where it has to. -/
lemma Reads.whole (h : Reads s e .top) : Reads (parens (level != .top) s) e level := by
  cases level with
  | top => exact h
  | operand => exact h.paren.operand
  | argument => exact h.paren

/-- An operand, in parentheses where it has to. -/
lemma Reads.applied (h : Reads s e .operand) : Reads (parens (level == .argument) s) e level := by
  cases level with
  | top => exact h.top
  | operand => exact h
  | argument => exact h.top.paren

/-! ### Names and numbers -/

lemma isDigit_eq_false_of_isAlpha (hc : c.isAlpha) : c.isDigit = false := by
  rw [Bool.eq_false_iff]
  intro hd
  simp only [Char.isAlpha, Char.isUpper, Char.isLower, Char.isDigit, Bool.or_eq_true,
    Bool.and_eq_true, decide_eq_true_eq, UInt32.le_iff_toNat_le, ge_iff_le] at hc hd
  have hA : 'A'.val.toNat = 65 := rfl
  have ha : 'a'.val.toNat = 97 := rfl
  have h9 : '9'.val.toNat = 57 := rfl
  omega

lemma reads_identifier (h : isIdentifier name) : Reads name (.ident ⟨name, ()⟩) .argument := by
  intro st rest hst hrest
  obtain ⟨c, cs, hname, hc, hword⟩ := exists_of_isIdentifier h
  have hne : name.toList ≠ [] := hname ▸ List.cons_ne_nil _ _
  -- an identifier is no number because of its first character
  have hdigits : name.toList.all Char.isDigit = false := by
    have hfirst : c.isDigit = false := by
      rcases hc with hc | rfl
      · exact isDigit_eq_false_of_isAlpha hc
      · rfl
    rw [hname, List.all_cons, hfirst, Bool.false_and]
  rw [read_word hne hword hrest.ends_word, word, String.ofList_toList,
    if_neg (notMem_keywords_of_isIdentifier h), hdigits]
  rfl

lemma toList_ne_of_isOperatorName (h : isOperatorName name) :
    name.toList ≠ ['='] ∧ name.toList ≠ ['-', '>'] := by
  simp only [isOperatorName, Bool.and_eq_true, bne_iff_ne] at h
  exact ⟨fun hn => h.1.2 (String.toList_inj.1 hn), fun hn => h.2 (String.toList_inj.1 hn)⟩

lemma read_operatorName (h : isOperatorName name) {st : Stack} {rest : List Char}
    (hrest : Ends .symbol rest) :
    read (name.toList ++ rest) st = (symbol name.toList st).bind (read rest) := by
  simp only [isOperatorName, Bool.and_eq_true, Bool.not_eq_true', List.all_eq_true] at h
  obtain ⟨⟨⟨hne, hall⟩, -⟩, -⟩ := h
  exact read_symbol (by simpa using hne) hall hrest

lemma reads_operatorName (h : isOperatorName name) :
    Reads ("(" ++ name ++ ")") (.ident ⟨name, ()⟩) .argument := by
  intro st rest hst hrest
  have htext : ("(" ++ name ++ ")").toList ++ rest = '(' :: (name.toList ++ ')' :: rest) := by
    simp [String.toList_append]
  have hends : Ends .symbol (')' :: rest) := (separated_cons rfl).ends_symbol
  obtain ⟨heq, harrow⟩ := toList_ne_of_isOperatorName h
  have hlone : symbol name.toList (.paren :: st) = some (.lone name.toList :: .paren :: st) := by
    simp [symbol, heq, harrow]
  have hclose : mark [')'] (.lone name.toList :: .paren :: st)
      = some (Reader.operand (.ident ⟨String.ofList name.toList, ()⟩) st) := rfl
  rw [htext, read_mark rfl]
  change read (name.toList ++ ')' :: rest) (.paren :: st) = _
  rw [read_operatorName h hends, hlone]
  change read (')' :: rest) (.lone name.toList :: .paren :: st) = _
  rw [read_mark rfl, hclose, String.ofList_toList]
  rfl

lemma reads_name (h : IsReadable name) : Reads (nameText name) (.ident ⟨name, ()⟩) level := by
  refine Reads.everywhere ?_
  rcases h with h | h
  · rw [nameText, isOperator_of_isIdentifier h]
    exact reads_identifier h
  · rw [nameText, isOperator_of_isOperatorName h]
    exact reads_operatorName h

lemma notMem_keywords_of_digits {w : List Char} (h : w.all Char.isDigit) :
    String.ofList w ∉ keywords := by
  intro hmem
  simp only [keywords, List.mem_cons, List.not_mem_nil, or_false] at hmem
  have hw : w ∈ ["if".toList, "then".toList, "else".toList, "let".toList, "in".toList] := by
    simpa [← String.ofList_inj] using hmem
  fin_cases hw <;> exact absurd h (by decide)

lemma isDigit_of_mem_repr {n : ℕ} (hc : c ∈ n.repr.toList) : c.isDigit := by
  rw [Nat.toList_repr] at hc
  exact Nat.isDigit_of_mem_toDigits (by decide) (by decide) hc

lemma isWordChar_of_isDigit (hc : c.isDigit) : isWordChar c := by
  simp [isWordChar, Char.isAlphanum, hc]

lemma toList_repr_ne_nil (n : ℕ) : n.repr.toList ≠ [] := by
  rw [Nat.toList_repr]
  exact Nat.toDigits_ne_nil

lemma read_nat (n : ℕ) {st : Stack} {rest : List Char} (hrest : Ends .word rest) :
    read (n.repr.toList ++ rest) st = read rest (number n st) := by
  have hall : n.repr.toList.all Char.isDigit :=
    List.all_eq_true.2 fun c hc => isDigit_of_mem_repr hc
  have hvalue : Nat.ofDigitChars 10 n.repr.toList 0 = n := by
    rw [Nat.toList_repr, Nat.ofDigitChars_ten_toDigits]
  rw [read_word (toList_repr_ne_nil n) (fun c hc => isWordChar_of_isDigit (isDigit_of_mem_repr hc))
    hrest, word, if_neg (notMem_keywords_of_digits hall), if_pos hall, hvalue]
  rfl

/-- The sign of a number waits on the stack for the digits. -/
lemma read_minus (n : ℕ) {st : Stack} {rest : List Char} (hst : Awaits st)
    (hrest : Ends .word rest) :
    read ('-' :: (n.repr.toList ++ rest)) st
      = read rest (.operand (.int (.ofInt (-n)) ()) :: st) := by
  have hends : Ends .symbol (n.repr.toList ++ rest) := by
    intro c hc
    obtain ⟨d, ds, hdigits⟩ := List.exists_cons_of_ne_nil (toList_repr_ne_nil n)
    obtain rfl : d = c := by simpa [hdigits] using hc
    have hd : d.isDigit := isDigit_of_mem_repr (hdigits ▸ List.mem_cons_self)
    rw [charKind_of_isWordChar (isWordChar_of_isDigit hd)]
    exact CharKind.noConfusion
  have hlone : symbol ['-'] st = some (.lone ['-'] :: st) := by
    cases st with
    | nil => rfl
    | cons f st => cases f <;> first | rfl | exact absurd hst id
  have hminus : read (['-'] ++ (n.repr.toList ++ rest)) st
      = (symbol ['-'] st).bind (read (n.repr.toList ++ rest)) :=
    read_symbol (List.cons_ne_nil _ _) (List.forall_mem_singleton.2 rfl) hends
  rw [← List.singleton_append, hminus, hlone]
  exact read_nat n hrest

lemma reads_int (v : Int64) :
    Reads (parens (v < 0 && level != .top) (toString v.toInt)) (.int v ()) level := by
  by_cases hv : v < 0
  · have hneg : v.toInt < 0 := Int64.lt_iff_toInt_lt.1 hv
    have hvalue : Int64.ofInt (-(-v.toInt).toNat) = v := by
      rw [Int.toNat_of_nonneg (by omega), neg_neg, Int64.ofInt_toInt]
    have htop : Reads (toString v.toInt) (.int v ()) .top := by
      refine fun st hst => ⟨.operand (.int v ()) :: st, rfl, fun rest hrest => ?_⟩
      rw [Int.toString_eq_repr, Int.repr_eq_if, if_neg (by omega), String.toList_append]
      exact (read_minus _ hst hrest.ends_word).trans (by rw [hvalue])
    simpa [hv] using htop.whole
  · have hpos : 0 ≤ v.toInt := by
      have h := mt Int64.lt_iff_toInt_lt.2 hv
      simpa using h
    have hvalue : Int64.ofInt v.toInt.toNat = v := by
      rw [Int.toNat_of_nonneg hpos, Int64.ofInt_toInt]
    have hargument : Reads (toString v.toInt) (.int v ()) .argument := by
      intro st rest hst hrest
      rw [Int.toString_eq_repr, Int.repr_eq_if, if_pos hpos, read_nat _ hrest.ends_word,
        hst.number_eq, hvalue]
    simpa [parens, hv] using hargument.everywhere

/-! ### Calls -/

lemma reads_call (hf : Reads f ef .operand) (hx : Reads x ex .argument) :
    Reads (f ++ " " ++ x) (.call ef ex ()) .operand := by
  intro st rest hst hrest
  have htext : (f ++ " " ++ x).toList ++ rest = f.toList ++ ' ' :: (x.toList ++ rest) := by
    simp [String.toList_append]
  rw [htext, hf st _ hst separated_blank, read_blank,
    hx (.operand ef :: st) rest trivial hrest]
  rfl

lemma reads_between (hl : Reads l el .operand) (hname : isOperatorName name)
    (hr : Reads r er .operand) :
    Reads (l ++ " " ++ name ++ " " ++ r) (.call (.call (.ident ⟨name, ()⟩) el ()) er ()) .top := by
  intro st hst
  obtain ⟨heq, harrow⟩ := toList_ne_of_isOperatorName hname
  have hbetween : symbol name.toList (.operand el :: st) = some (.between el name :: st) := by
    simp [symbol, heq, harrow]
  refine ⟨.operand er :: .between el name :: st, rfl, fun rest hrest => ?_⟩
  have htext : (l ++ " " ++ name ++ " " ++ r).toList ++ rest
      = l.toList ++ ' ' :: (name.toList ++ ' ' :: (r.toList ++ rest)) := by
    simp [String.toList_append]
  rw [htext, hl st _ hst separated_blank, read_blank,
    read_operatorName hname separated_blank.ends_symbol, hbetween]
  change read (' ' :: (r.toList ++ rest)) (.between el name :: st) = _
  rw [read_blank, hr (.between el name :: st) rest trivial hrest]

end Reader

/-! ### Without annotations -/

variable {α β : Type}

/-- An occurrence of a name without its annotation. -/
abbrev Ident.bare (i : Ident α) : Ident Unit := i.map fun _ => ()

/-- An expression without its annotations. -/
abbrev Expr.bare (e : Expr α) : Expr Unit := e.map fun _ => ()

/-- A definition without its annotations. -/
abbrev Definition.bare (d : Definition α) : Definition Unit := d.map fun _ => ()

/-- A program without its annotations. -/
abbrev Program.bare (p : Program α) : Program Unit := p.map fun _ => ()

namespace Reader

variable {ps : List (Ident α)} {st : Stack} {rest : List Char} {f x body : String}
  {ef ex eb : Expr Unit}

/-! ### Functions -/

/-- Names, with a blank before each of them. -/
lemma separated_params (hrest : Separated rest) :
    Separated ((String.join (ps.map fun p => " " ++ nameText p.name)).toList ++ rest) := by
  cases ps with
  | nil => simpa using hrest
  | cons p ps =>
    simp only [List.map_cons, String.join_cons, String.toList_append]
    exact separated_cons rfl

/-- Names after an operand are read as its arguments. -/
lemma read_params (hps : ∀ p ∈ ps, IsReadable p.name) (hrest : Separated rest) :
    read ((String.join (ps.map fun p => " " ++ nameText p.name)).toList ++ rest)
        (.operand ef :: st)
      = read rest (.operand (spine ef (ps.map Ident.bare)) :: st) := by
  induction ps generalizing ef with
  | nil => rfl
  | cons p ps ih =>
    obtain ⟨hp, hps⟩ := List.forall_mem_cons.1 hps
    have htext : (String.join ((p :: ps).map fun p => " " ++ nameText p.name)).toList ++ rest
        = ' ' :: ((nameText p.name).toList
          ++ ((String.join (ps.map fun p => " " ++ nameText p.name)).toList ++ rest)) := by
      simp [String.toList_append]
    have hname : Reads (nameText p.name) (.ident p.bare) .argument := reads_name hp
    rw [htext, read_blank, hname (.operand ef :: st) _ trivial (separated_params hrest)]
    exact ih hps

lemma intercalate_eq (s t : String) (ts : List String) :
    s.intercalate (t :: ts) = t ++ String.join (ts.map fun u => s ++ u) := by
  induction ts generalizing t with
  | nil => simp
  | cons u ts ih =>
    rw [String.intercalate_cons_cons, ih, List.map_cons, String.join_cons, String.append_assoc,
      String.append_assoc]

/-- The parameters of a function, up to its arrow. -/
lemma read_lambda (hps : ∀ p ∈ ps, IsReadable p.name) (st : Stack) :
    ∃ st', symbol ['-', '>'] st' = some (.under (ps.map Ident.bare) :: st) ∧
      ∀ rest, Separated rest →
        read ((" ".intercalate (ps.map fun p => nameText p.name)).toList ++ rest) (.lambda :: st)
          = read rest st' := by
  cases ps with
  | nil => exact ⟨.lambda :: st, rfl, fun rest _ => by simp⟩
  | cons p ps =>
    obtain ⟨hp, hps⟩ := List.forall_mem_cons.1 hps
    have hname : Reads (nameText p.name) (.ident p.bare) .operand := reads_name hp
    refine ⟨.operand (spine (.ident p.bare) (ps.map Ident.bare)) :: .lambda :: st, ?_,
      fun rest hrest => ?_⟩
    · simp [symbol, names_spine, names]
    · rw [List.map_cons, intercalate_eq, String.toList_append, List.append_assoc, List.map_map]
      exact (hname (.lambda :: st) _ trivial (separated_params hrest)).trans
        (read_params hps hrest)

lemma isSymbolChar_arrow : ∀ c ∈ ['-', '>'], isSymbolChar c :=
  List.forall_mem_cons.2 ⟨rfl, List.forall_mem_singleton.2 rfl⟩

lemma reads_lambda (hps : ∀ p ∈ ps, IsReadable p.name) (hbody : Reads body eb .top) :
    Reads ("\\" ++ " ".intercalate (ps.map fun p => nameText p.name) ++ " -> " ++ body)
      (.lam (ps.map Ident.bare) eb ()) .top := by
  intro st hst
  obtain ⟨st₁, harrow, hread₁⟩ := read_lambda hps st
  obtain ⟨st₂, hended, hread₂⟩ := hbody (.under (ps.map Ident.bare) :: st) trivial
  refine ⟨st₂, hended, fun rest hrest => ?_⟩
  have htext : ("\\" ++ " ".intercalate (ps.map fun p => nameText p.name) ++ " -> "
        ++ body).toList ++ rest
      = '\\' :: ((" ".intercalate (ps.map fun p => nameText p.name)).toList
        ++ ' ' :: (['-', '>'] ++ ' ' :: (body.toList ++ rest))) := by
    simp [String.toList_append]
  rw [htext, read_mark rfl]
  change read _ (.lambda :: st) = _
  rw [hread₁ _ separated_blank, read_blank, read_symbol (List.cons_ne_nil _ _) isSymbolChar_arrow
    separated_blank.ends_symbol, harrow]
  change read (' ' :: (body.toList ++ rest)) _ = _
  rw [read_blank, hread₂ rest hrest]

/-! ### Conditionals -/

/-- A key word and the blank after it. -/
lemma read_keyword {w : String} {st₁ : Stack} (hw : w ∈ keywords) (h : keyword w st = some st₁) :
    read (w.toList ++ ' ' :: rest) st = read rest st₁ := by
  have hne : w.toList ≠ [] := by
    fin_cases hw <;> exact List.cons_ne_nil _ _
  have hall : w.toList.all isWordChar := by
    fin_cases hw <;> rfl
  rw [read_word hne (List.all_eq_true.1 hall) separated_blank.ends_word, word,
    String.ofList_toList, if_pos hw, h]
  exact read_blank

variable {c t e s : String} {ec et ee : Expr Unit}

lemma reads_conditional (hc : Reads c ec .top) (ht : Reads t et .top) (he : Reads e ee .top) :
    Reads ("if " ++ c ++ " then " ++ t ++ " else " ++ e) (.ite ec et ee ()) .top := by
  intro st hst
  obtain ⟨st₁, hended₁, hread₁⟩ := hc (.cond :: st) trivial
  obtain ⟨st₂, hended₂, hread₂⟩ := ht (.pos ec :: st) trivial
  obtain ⟨st₃, hended₃, hread₃⟩ := he (.neg ec et :: st) trivial
  have hif : keyword "if" st = some (.cond :: st) := rfl
  have hthen : keyword "then" st₁ = some (.pos ec :: st) := by
    simp [keyword, hended₁, finish]
  have helse : keyword "else" st₂ = some (.neg ec et :: st) := by
    simp [keyword, hended₂, finish]
  refine ⟨st₃, hended₃, fun rest hrest => ?_⟩
  have htext : ("if " ++ c ++ " then " ++ t ++ " else " ++ e).toList ++ rest
      = "if".toList ++ ' ' :: (c.toList ++ ' ' :: ("then".toList ++ ' ' :: (t.toList
        ++ ' ' :: ("else".toList ++ ' ' :: (e.toList ++ rest))))) := by
    simp [String.toList_append]
  rw [htext, read_keyword (by decide) hif, hread₁ _ separated_blank, read_blank,
    read_keyword (by decide) hthen, hread₂ _ separated_blank, read_blank,
    read_keyword (by decide) helse, hread₃ rest hrest]

/-! ### Definitions -/

/-- After definitions, the text is read as one more definition. -/
def ReadsDefinition (s : String) (d : Definition Unit) : Prop :=
  ∀ ds st, ∃ st', ended st' = some (d.body, .define d.name d.params :: .defs ds :: st) ∧
    ∀ rest, Separated rest → read (s.toList ++ rest) (.defs ds :: st) = read rest st'

variable {i : Ident α}

lemma reads_definition (hi : IsReadable i.name) (hps : ∀ p ∈ ps, IsReadable p.name)
    (hbody : Reads body eb .top) :
    ReadsDefinition
      (nameText i.name ++ String.join (ps.map fun p => " " ++ nameText p.name) ++ " = " ++ body)
      ⟨i.bare, ps.map Ident.bare, eb, ()⟩ := by
  intro ds st
  have hname : Reads (nameText i.name) (.ident i.bare) .operand := reads_name hi
  obtain ⟨st', hended, hread⟩ :=
    hbody (.define i.bare (ps.map Ident.bare) :: .defs ds :: st) trivial
  have hsign : symbol ['='] (.operand (spine (.ident i.bare) (ps.map Ident.bare)) :: .defs ds :: st)
      = some (.define i.bare (ps.map Ident.bare) :: .defs ds :: st) := by
    simp [symbol, names_spine, names]
  refine ⟨st', hended, fun rest hrest => ?_⟩
  have htext : (nameText i.name ++ String.join (ps.map fun p => " " ++ nameText p.name) ++ " = "
        ++ body).toList ++ rest
      = (nameText i.name).toList ++ ((String.join (ps.map fun p => " " ++ nameText p.name)).toList
        ++ ' ' :: (['='] ++ ' ' :: (body.toList ++ rest))) := by
    simp [String.toList_append]
  rw [htext, hname (.defs ds :: st) _ trivial (separated_params separated_blank),
    read_params hps separated_blank, read_blank, read_symbol (List.cons_ne_nil _ _)
    (List.forall_mem_singleton.2 rfl) separated_blank.ends_symbol, hsign]
  change read (' ' :: (body.toList ++ rest)) _ = _
  rw [read_blank, hread rest hrest]

/-- Definitions up to the brace that closes them. -/
lemma reads_definitions {ds : List (Definition α)}
    (hds : ∀ d ∈ ds, ReadsDefinition d.text d.bare) (before : List (Definition Unit)) (st : Stack) :
    ∃ st', closeBrace st' = some (.defs ((ds.map Definition.bare).reverse ++ before) :: st) ∧
      ∀ rest, Separated rest →
        read (("; ".intercalate (textsOfDefs ds)).toList ++ rest) (.defs before :: st)
          = read rest st' := by
  induction ds generalizing before with
  | nil => exact ⟨.defs before :: st, rfl, fun rest _ => by simp [textsOfDefs]⟩
  | cons d ds ih =>
    obtain ⟨hd, hds⟩ := List.forall_mem_cons.1 hds
    obtain ⟨st₁, hended, hread₁⟩ := hd before st
    have hdone : endDefinition st₁ = some (.defs (d.bare :: before) :: st) :=
      endDefinition_of_ended hended
    cases ds with
    | nil =>
      refine ⟨st₁, (closeBrace_of_ended hended).trans hdone, fun rest hrest => ?_⟩
      rw [textsOfDefs, textsOfDefs, String.intercalate_singleton]
      exact hread₁ rest hrest
    | cons d' ds =>
      obtain ⟨st₂, hclose, hread₂⟩ := ih hds (d.bare :: before)
      refine ⟨st₂, by simpa using hclose, fun rest hrest => ?_⟩
      have htext : ("; ".intercalate (textsOfDefs (d :: d' :: ds))).toList ++ rest
          = d.text.toList ++ ';' :: ' ' :: (("; ".intercalate (textsOfDefs (d' :: ds))).toList
            ++ rest) := by
        simp [textsOfDefs, String.intercalate_cons_cons, String.toList_append]
      have hmark : mark [';'] st₁ = some (.defs (d.bare :: before) :: st) := hdone
      rw [htext, hread₁ _ (separated_cons rfl), read_mark rfl, hmark]
      change read (' ' :: _) _ = _
      rw [read_blank, hread₂ rest hrest]

lemma reads_letIn {ds : List (Definition α)} (hds : ∀ d ∈ ds, ReadsDefinition d.text d.bare)
    (hbody : Reads body eb .top) :
    Reads ("let \x7b " ++ "; ".intercalate (textsOfDefs ds) ++ " \x7d in " ++ body)
      (.letIn (ds.map Definition.bare) eb ()) .top := by
  intro st hst
  obtain ⟨st₁, hclose, hread₁⟩ := reads_definitions hds [] st
  obtain ⟨st₂, hended, hread₂⟩ := hbody (.body (ds.map Definition.bare) :: st) trivial
  have hlet : keyword "let" st = some (.block :: st) := rfl
  have hbrace : mark ['\x7d'] st₁ = some (.defs (ds.map Definition.bare).reverse :: st) :=
    hclose.trans (by rw [List.append_nil])
  have hin : keyword "in" (.defs (ds.map Definition.bare).reverse :: st)
      = some (.body (ds.map Definition.bare) :: st) := by
    simp [keyword]
  refine ⟨st₂, hended, fun rest hrest => ?_⟩
  have htext : ("let \x7b " ++ "; ".intercalate (textsOfDefs ds) ++ " \x7d in " ++ body).toList
        ++ rest
      = "let".toList ++ ' ' :: '\x7b' :: ' ' :: (("; ".intercalate (textsOfDefs ds)).toList
        ++ ' ' :: '\x7d' :: ' ' :: ("in".toList ++ ' ' :: (body.toList ++ rest))) := by
    simp [String.toList_append]
  rw [htext, read_keyword (by decide) hlet, read_mark rfl]
  change read (' ' :: _) (.defs [] :: st) = _
  rw [read_blank, hread₁ _ separated_blank, read_blank, read_mark rfl, hbrace]
  change read (' ' :: _) _ = _
  rw [read_blank, read_keyword (by decide) hin, hread₂ rest hrest]

/-! ### Expressions and programs -/

/-- The text of the expression is read as the expression. -/
def ReadsBack (e : Expr α) : Prop := ∀ level, Reads (e.textAt level) e.bare level

lemma textAt_between {op : Ident α} {l r : Expr α} {a b : α} (hop : isOperator op.name)
    (level : Level) :
    (Expr.call (.call (.ident op) l a) r b).textAt level
      = parens (level != .top)
        (l.textAt .operand ++ " " ++ op.name ++ " " ++ r.textAt .operand) := by
  rw [Expr.textAt, if_pos hop]

lemma textAt_call {f x : Expr α} {a : α}
    (hf : ∀ op l b, f = .call (.ident op) l b → isOperator op.name = false) (level : Level) :
    (Expr.call f x a).textAt level
      = parens (level == .argument) (f.textAt .operand ++ " " ++ x.textAt .argument) := by
  by_cases hshape : ∃ op l b, f = .call (.ident op) l b
  · obtain ⟨op, l, b, rfl⟩ := hshape
    rw [Expr.textAt, hf op l b rfl]
    rfl
  · rw [Expr.textAt]
    rintro op l b rfl
    exact hshape ⟨op, l, b, rfl⟩

lemma readsBack_call {f x : Expr α} {a : α} (hf : ReadsBack f) (hx : ReadsBack x)
    (hoperator : ∀ op l b, f = .call (.ident op) l b → IsReadable op.name ∧ ReadsBack l) :
    ReadsBack (.call f x a) := by
  intro level
  by_cases hop : ∃ op l b, f = .call (.ident op) l b ∧ isOperator op.name
  · obtain ⟨op, l, b, rfl, hop⟩ := hop
    obtain ⟨hname, hl⟩ := hoperator op l b rfl
    have hname : isOperatorName op.name := by
      refine hname.resolve_left fun h => ?_
      rw [isOperator_of_isIdentifier h] at hop
      cases hop
    rw [textAt_between hop]
    exact (reads_between (hl .operand) hname (hx .operand)).whole
  · have hno : ∀ op l b, f = .call (.ident op) l b → isOperator op.name = false := by
      intro op l b hf
      rw [← Bool.not_eq_true]
      exact fun h => hop ⟨op, l, b, hf, h⟩
    rw [textAt_call hno]
    exact (reads_call (hf .operand) (hx .argument)).applied

lemma readsDefinition_text {ds : List (Definition α)} (hnames : ∀ x ∈ namesOfDefs ds, IsReadable x)
    (hbody : ∀ d ∈ ds, ReadsBack d.body) : ∀ d ∈ ds, ReadsDefinition d.text d.bare := by
  rintro ⟨i, ps, b, a⟩ hd
  have hname : IsReadable i.name := hnames _ (mem_namesOfDefs.2 ⟨_, hd, .inl rfl⟩)
  have hps : ∀ p ∈ ps, IsReadable p.name := fun p hp =>
    hnames _ (mem_namesOfDefs.2 ⟨_, hd, .inr (List.mem_append_left _ (List.mem_map_of_mem hp))⟩)
  rw [Definition.text]
  exact reads_definition hname hps (hbody _ hd .top)

lemma readsBack (e : Expr α) (hnames : ∀ x ∈ e.names, IsReadable x) : ReadsBack e := by
  -- the left operand of an operator is two calls deep
  suffices h : (∀ x ∈ e.names, IsReadable x) →
      ReadsBack e ∧ ∀ f x a, e = .call f x a → ReadsBack x from (h hnames).1
  clear hnames
  induction e using Expr.induction with
  | ident i =>
    intro hnames
    refine ⟨fun level => ?_, fun f x a h => by cases h⟩
    rw [Expr.textAt, Expr.bare, Expr.map]
    exact reads_name (hnames _ List.mem_cons_self)
  | int v a =>
    intro _
    refine ⟨fun level => ?_, fun f x a h => by cases h⟩
    rw [Expr.textAt, Expr.bare, Expr.map]
    exact reads_int v
  | lam ps b a ih =>
    intro hnames
    obtain ⟨hps, hb⟩ := List.forall_mem_append.1 hnames
    refine ⟨fun level => ?_, fun f x a h => by cases h⟩
    rw [Expr.textAt, Expr.bare, Expr.map]
    exact (reads_lambda (List.forall_mem_map.1 hps) ((ih hb).1 .top)).whole
  | call f x a ihf ihx =>
    intro hnames
    obtain ⟨hf, hx⟩ := List.forall_mem_append.1 hnames
    refine ⟨readsBack_call (ihf hf).1 (ihx hx).1 ?_, ?_⟩
    · rintro op l b rfl
      exact ⟨hf _ List.mem_cons_self, (ihf hf).2 _ _ _ rfl⟩
    · rintro f x a h
      cases h
      exact (ihx hx).1
  | ite c t e a ihc iht ihe =>
    intro hnames
    obtain ⟨hct, he⟩ := List.forall_mem_append.1 hnames
    obtain ⟨hc, ht⟩ := List.forall_mem_append.1 hct
    refine ⟨fun level => ?_, fun f x a h => by cases h⟩
    rw [Expr.textAt, Expr.bare, Expr.map]
    exact (reads_conditional ((ihc hc).1 .top) ((iht ht).1 .top) ((ihe he).1 .top)).whole
  | letIn ds b a ihds ihb =>
    intro hnames
    obtain ⟨hds, hb⟩ := List.forall_mem_append.1 hnames
    refine ⟨fun level => ?_, fun f x a h => by cases h⟩
    rw [Expr.textAt, Expr.bare, Expr.map, mapDefs_eq_map]
    have hbody : ∀ d ∈ ds, ReadsBack d.body := fun d hd => (ihds d hd fun x hx =>
      hds x (mem_namesOfDefs.2 ⟨d, hd, .inr (List.mem_append_right _ hx)⟩)).1
    exact (reads_letIn (readsDefinition_text hds hbody) ((ihb hb).1 .top)).whole

/-- Definitions, one a line. -/
lemma read_lines {ds : List (Definition α)} (hds : ∀ d ∈ ds, ReadsDefinition d.text d.bare)
    (before : List (Definition Unit)) :
    read (String.join (ds.map fun d => d.text ++ "\n")).toList [.defs before]
      = some [.defs ((ds.map Definition.bare).reverse ++ before)] := by
  induction ds generalizing before with
  | nil => rfl
  | cons d ds ih =>
    obtain ⟨hd, hds⟩ := List.forall_mem_cons.1 hds
    obtain ⟨st, hended, hread⟩ := hd before []
    have hmark : mark ['\n'] st = some [.defs (d.bare :: before)] := endDefinition_of_ended hended
    have htext : (String.join ((d :: ds).map fun d => d.text ++ "\n")).toList
        = d.text.toList ++ '\n' :: (String.join (ds.map fun d => d.text ++ "\n")).toList := by
      simp [String.toList_append]
    rw [htext, hread _ (separated_cons rfl), read_mark rfl, hmark]
    exact (ih hds _).trans (by simp)

/-- Reading undoes printing. -/
theorem program?_text {p : Program α} (hnames : ∀ x ∈ p.names, IsReadable x) :
    program? p.text = some p.bare := by
  have hbody : ∀ d ∈ p.defs, ReadsBack d.body := fun d hd => readsBack d.body fun x hx =>
    hnames x (mem_namesOfDefs.2 ⟨d, hd, .inr (List.mem_append_right _ hx)⟩)
  have hread := read_lines (readsDefinition_text hnames hbody) []
  rw [List.append_nil] at hread
  rw [program?, Program.text, hread]
  simp [Program.map]

end Reader

/-- Two programs whose names can be read back have one text only if they are the same up to their
annotations. -/
theorem text_unambiguous {p : Program α} {q : Program β}
    (hp : ∀ x ∈ p.names, Reader.IsReadable x) (hq : ∀ x ∈ q.names, Reader.IsReadable x)
    (h : p.text = q.text) : p.bare = q.bare := by
  have hread : some p.bare = some q.bare := by
    rw [← Reader.program?_text hp, h, Reader.program?_text hq]
  exact Option.some.inj hread

/-- A program with every form of expression, and with one annotation everywhere. -/
def mixedForms (a : α) : Program α :=
  let name (s : String) : Ident α := ⟨s, a⟩
  let between (l : Expr α) (op : String) (r : Expr α) : Expr α :=
    .call (.call (.ident (name op)) l a) r a
  let apply (f : String) (x : Expr α) : Expr α := .call (.ident (name f)) x a
  let left := between (.ident (name "x'")) "-" (.int 2 a)
  ⟨[⟨name "main", [],
    .letIn
      [⟨name "f", [name "x'"], between (.int (-1) a) "-" (between left "*" (.int 3 a)), a⟩,
       ⟨name "_", [name "+"], apply "+" (apply "f" (.int 4 a)), a⟩]
      (.ite (between (.ident (name "a")) "<" (apply "f" (.int (-5) a)))
        (.lam [] (apply "_" (.ident (name "<"))) a) (.lam [name "y"] (.ident (name "y")) a) a) a,
    a⟩], a⟩

theorem text_unambiguous_mixedForms :
    (mixedForms 1).text = "main = let \x7b f x' = (-1) - ((x' - 2) * 3); _ (+) = (+) (f 4) \x7d in "
      ++ "if a < f (-5) then \\ -> _ (<) else \\y -> y\n" ∧
    (mixedForms 1).bare = (mixedForms "second").bare := by
  refine ⟨by decide +kernel, text_unambiguous ?_ ?_ ?_⟩ <;> decide +kernel

end Letrec
