import BTServer.Shared.PrefixCode

set_option autoImplicit false

-- A stream of codewords some of which were cut short.
namespace BTServer.PrefixCode

variable {A B : Type} {encode : A → List B}

/-- Of each codeword as much as its number says. -/
def cut (encode : A → List B) (pieces : List (A × Nat)) : List B :=
  pieces.flatMap fun p => (encode p.1).take p.2

def isWhole (encode : A → List B) (p : A × Nat) : Bool := (encode p.1).length ≤ p.2

@[simp] theorem cut_nil : cut encode [] = [] := rfl

@[simp] theorem cut_cons (p : A × Nat) (pieces : List (A × Nat)) :
    cut encode (p :: pieces) = (encode p.1).take p.2 ++ cut encode pieces := List.flatMap_cons

theorem cut_append (front back : List (A × Nat)) :
    cut encode (front ++ back) = cut encode front ++ cut encode back := List.flatMap_append

theorem take_of_isWhole {p : A × Nat} (whole : isWhole encode p = true) :
    (encode p.1).take p.2 = encode p.1 :=
  List.take_of_length_le (by simpa [isWhole] using whole)

theorem cut_whole {pieces : List (A × Nat)} (whole : ∀ p ∈ pieces, isWhole encode p = true) :
    cut encode pieces = (pieces.map Prod.fst).flatMap encode := by
  induction pieces with
  | nil => rfl
  | cons p pieces ih =>
    rw [cut_cons, take_of_isWhole (whole p (by simp)), List.map_cons, List.flatMap_cons,
      ih fun p' member => whole p' (List.mem_cons_of_mem _ member)]

theorem cut_length_le (pieces : List (A × Nat)) :
    (cut encode pieces).length ≤ ((pieces.map Prod.fst).flatMap encode).length := by
  induction pieces with
  | nil => simp
  | cons p pieces ih =>
    simp only [cut_cons, List.map_cons, List.flatMap_cons, List.length_append, List.length_take]
    omega

theorem isWhole_of_length {pieces : List (A × Nat)}
    (full : (cut encode pieces).length = ((pieces.map Prod.fst).flatMap encode).length) :
    ∀ p ∈ pieces, isWhole encode p = true := by
  induction pieces with
  | nil => simp
  | cons p pieces ih =>
    simp only [cut_cons, List.map_cons, List.flatMap_cons, List.length_append, List.length_take]
      at full
    have bound := @cut_length_le _ _ encode pieces
    intro p' member
    rcases List.mem_cons.mp member with rfl | later
    next =>
      simp only [isWhole, decide_eq_true_eq]
      omega
    next => exact ih (by omega) p' later

theorem Separated.decoded_front (separated : Separated encode) (nonempty : ∀ a, encode a ≠ [])
    {xs ys : List A} {rest : List B} (same : xs.flatMap encode ++ rest = ys.flatMap encode) :
    xs <+: ys := by
  induction xs generalizing ys with
  | nil => exact List.nil_prefix
  | cons x xs ih =>
    cases ys with
    | nil =>
      rw [List.flatMap_cons, List.flatMap_nil, List.append_assoc] at same
      exact absurd (List.append_eq_nil_iff.mp same).1 (nonempty x)
    | cons y ys =>
      rw [List.flatMap_cons, List.flatMap_cons, List.append_assoc] at same
      obtain rfl := separated x y _ _ same
      rw [List.cons_prefix_cons]
      exact ⟨rfl, ih (List.append_cancel_left same)⟩

section Decoded

variable (separated : Separated encode) (nonempty : ∀ a, encode a ≠ [])
  {pieces : List (A × Nat)} {ys : List A} (decoded : cut encode pieces = ys.flatMap encode)

include separated nonempty decoded

theorem Separated.decoded_iff :
    ys = pieces.map Prod.fst ↔ ∀ p ∈ pieces, isWhole encode p = true := by
  constructor
  next =>
    rintro rfl
    exact isWhole_of_length (by rw [decoded])
  next =>
    intro whole
    rw [cut_whole whole] at decoded
    exact (separated.flatMap_injective nonempty _ _ decoded).symm

theorem Separated.decoded_intact :
    (pieces.takeWhile (isWhole encode)).map Prod.fst <+: ys := by
  have front : ∀ p ∈ pieces.takeWhile (isWhole encode), isWhole encode p = true :=
    List.all_eq_true.mp List.all_takeWhile
  have split := @List.takeWhile_append_dropWhile _ (isWhole encode) pieces
  rw [← split, cut_append, cut_whole front] at decoded
  exact separated.decoded_front nonempty decoded

end Decoded

end BTServer.PrefixCode
