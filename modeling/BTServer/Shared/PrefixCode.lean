import Mathlib.Data.List.Basic

set_option autoImplicit false

namespace BTServer.PrefixCode

variable {A B : Type}

/-- A codeword is recognised whatever follows it. -/
def Separated (encode : A → List B) : Prop :=
  ∀ a b rest other, encode a ++ rest = encode b ++ other → a = b

theorem Separated.eq_of_prefix {encode : A → List B} (separated : Separated encode) {a b : A}
    (initial : encode a <+: encode b) : a = b := by
  obtain ⟨rest, whole⟩ := initial
  exact separated a b rest [] (by simpa using whole)

theorem Separated.flatMap_injective {encode : A → List B} (separated : Separated encode)
    (nonempty : ∀ a, encode a ≠ []) (xs ys : List A)
    (same : xs.flatMap encode = ys.flatMap encode) : xs = ys := by
  induction xs generalizing ys with
  | nil =>
    cases ys with
    | nil => rfl
    | cons b ys =>
      simp only [List.flatMap_nil, List.flatMap_cons] at same
      exact absurd (List.append_eq_nil_iff.mp same.symm).1 (nonempty b)
  | cons a xs ih =>
    cases ys with
    | nil =>
      simp only [List.flatMap_nil, List.flatMap_cons] at same
      exact absurd (List.append_eq_nil_iff.mp same).1 (nonempty a)
    | cons b ys =>
      simp only [List.flatMap_cons] at same
      obtain rfl := separated a b _ _ same
      rw [ih ys (List.append_cancel_left same)]

end BTServer.PrefixCode
