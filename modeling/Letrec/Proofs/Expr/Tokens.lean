import Mathlib

/-!
# Tokens

A text is cut into tokens before it is read: words (names, key words and numbers), runs of the
characters of operators, blanks and single marks.  A run ends where a character of another kind
follows, so a run that stands before such a character is cut off exactly (`tokens_run`).
-/

namespace Letrec.Reader

/-- What kind of token a character belongs to. -/
inductive CharKind where
  /-- A letter, a digit, an underscore or an apostrophe. -/
  | word
  /-- A character of operators. -/
  | symbol
  /-- The space between tokens. -/
  | blank
  /-- A token by itself. -/
  | mark
deriving DecidableEq

/-- The characters of names, key words and numbers. -/
def isWordChar (c : Char) : Bool := c.isAlphanum || c == '_' || c == '\''

/-- The characters of operators. -/
def isSymbolChar (c : Char) : Bool :=
  ['+', '-', '*', '/', '<', '>', '=', '!', '&', '|', '^', '%'].contains c

/-- The kind of a character. -/
def charKind (c : Char) : CharKind :=
  if isWordChar c then .word
  else if isSymbolChar c then .symbol
  else if c = ' ' then .blank
  else .mark

/-- Whether neighbouring characters of the kind are one token. -/
def CharKind.joins : CharKind → Bool
  | word | symbol => true
  | blank | mark => false

/-- A part of a text that is read as a whole. -/
structure Token where
  /-- The kind of its characters. -/
  kind : CharKind
  /-- Its characters. -/
  chars : List Char
deriving DecidableEq

/-- Put a character in front of tokens: it belongs to the first one or is one of its own. -/
def pushChar (c : Char) : List Token → List Token
  | [] => [⟨charKind c, [c]⟩]
  | t :: ts =>
    if t.kind = charKind c ∧ (charKind c).joins then ⟨t.kind, c :: t.chars⟩ :: ts
    else ⟨charKind c, [c]⟩ :: t :: ts

/-- The tokens of a text. -/
def tokens (cs : List Char) : List Token := cs.foldr pushChar []

/-- No run of that kind goes on in the text. -/
def Ends (k : CharKind) (rest : List Char) : Prop := ∀ c ∈ rest.head?, charKind c ≠ k

variable {k : CharKind} {c : Char} {run rest : List Char} {t : Token} {ts : List Token}

lemma tokens_cons : tokens (c :: rest) = pushChar c (tokens rest) := rfl

lemma kind_pushChar (c : Char) (ts : List Token) :
    ∃ cs us, pushChar c ts = ⟨charKind c, cs⟩ :: us := by
  cases ts with
  | nil => exact ⟨[c], [], rfl⟩
  | cons t ts =>
    rw [pushChar]
    split
    · next h => exact ⟨c :: t.chars, ts, by rw [h.1]⟩
    · exact ⟨[c], t :: ts, rfl⟩

lemma Ends.kind_ne (h : Ends k rest) (ht : tokens rest = t :: ts) : t.kind ≠ k := by
  cases rest with
  | nil => exact absurd ht (List.cons_ne_nil _ _).symm
  | cons c rest =>
    obtain ⟨cs, us, hpush⟩ := kind_pushChar c (tokens rest)
    rw [tokens_cons, hpush] at ht
    obtain ⟨rfl, -⟩ := List.cons.inj ht
    exact h c rfl

/-- A character before which no run of its kind goes on is a token. -/
lemma tokens_last (hc : charKind c = k) (hrest : k.joins = false ∨ Ends k rest) :
    tokens (c :: rest) = ⟨k, [c]⟩ :: tokens rest := by
  rw [tokens_cons]
  cases htokens : tokens rest with
  | nil => rw [pushChar, hc]
  | cons t ts =>
    rw [pushChar, if_neg, hc]
    rintro ⟨hkind, hjoins⟩
    rcases hrest with hrest | hrest
    · rw [hc, hrest] at hjoins
      cases hjoins
    · exact hrest.kind_ne htokens (hkind.trans hc)

lemma tokens_single (hc : charKind c = k) (hk : k.joins = false) :
    tokens (c :: rest) = ⟨k, [c]⟩ :: tokens rest := tokens_last hc (Or.inl hk)

/-- A run of one kind is a token, if it does not go on in the rest. -/
lemma tokens_run (hne : run ≠ []) (hrun : ∀ c ∈ run, charKind c = k) (hk : k.joins)
    (hrest : Ends k rest) : tokens (run ++ rest) = ⟨k, run⟩ :: tokens rest := by
  induction run with
  | nil => exact absurd rfl hne
  | cons c run ih =>
    obtain ⟨hc, hrun⟩ := List.forall_mem_cons.1 hrun
    cases run with
    | nil => exact tokens_last hc (Or.inr hrest)
    | cons d run =>
      rw [List.cons_append, tokens_cons, ih (List.cons_ne_nil _ _) hrun, pushChar, hc,
        if_pos ⟨rfl, hk⟩]

/-- No run of any kind goes on in the text. -/
def Separated (rest : List Char) : Prop := ∀ k, k.joins → Ends k rest

lemma Separated.ends_word (h : Separated rest) : Ends .word rest := h .word rfl

lemma Separated.ends_symbol (h : Separated rest) : Ends .symbol rest := h .symbol rfl

lemma separated_cons (hc : (charKind c).joins = false) : Separated (c :: rest) := by
  rintro k hk d hd rfl
  obtain rfl : c = d := by simpa using hd
  rw [hc] at hk
  cases hk

lemma separated_blank : Separated (' ' :: rest) := separated_cons rfl

end Letrec.Reader
