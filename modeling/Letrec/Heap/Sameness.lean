import Letrec.Heap

/-!
# Sameness of terms

Two terms are the same when they have the same shape with the same names and integers, where a
forced thunk counts as its value and all other objects of the heap are the same only as themselves.
-/

namespace Letrec.Heap

/-- Compare two terms.  Where one of them is a forced thunk, its value is compared by `same` with
the other term; if both are forced, the value of the first. -/
def sameWith (h : Heap) (same : Term → Term → Bool) : Term → Term → Bool
  | .thunk a, u =>
    match h.memo? a with
    | some v => same v u || u == .thunk a
    | none =>
      match u with
      | .thunk b =>
        match h.memo? b with
        | some w => same w (.thunk a)
        | none => a == b
      | _ => false
  | t, .thunk b => (h.memo? b).any (same · t)
  | .var x, .var y => x == y
  | .int m, .int n => m == n
  | .lam x s, .lam y t => x == y && h.sameWith same s t
  | .app f s, .app g t => h.sameWith same f g && h.sameWith same s t
  | .closure a, .closure b => a == b
  | .builtin a, .builtin b => a == b
  | _, _ => false

/-- Compare two terms through at most `n` memo cells. -/
def sameUpTo (h : Heap) : Nat → Term → Term → Bool
  | 0 => fun _ _ => false
  | n + 1 => h.sameWith (h.sameUpTo n)

/-- Whether two terms are the same.  The memo cells on both sides are followed, so a comparison goes
through at most twice as many as there are. -/
def same (h : Heap) (t u : Term) : Bool := h.sameUpTo (2 * h.thunks.size + 1) t u

end Letrec.Heap
