import Mathlib.Data.List.Nodup
import Mathlib.Data.List.Perm.Subperm
import Mathlib.Logic.Function.Basic
import Mathlib.Tactic.Common

set_option autoImplicit false

-- Addresses are handed out in order and never again, so what is built while the counter goes from
-- one mark to another lies between the marks.
namespace BTServer.Cells

structure Span (lo hi : Nat) (blocks : List Nat) : Prop where
  nodup : blocks.Nodup
  inside : ∀ a ∈ blocks, lo ≤ a ∧ a < hi

section Spans

variable {lo mid hi : Nat} {xs ys : List Nat}

theorem Span.mono {lo' hi' : Nat} (span : Span lo hi xs) (low : lo' ≤ lo) (high : hi ≤ hi') :
    Span lo' hi' xs := by
  refine ⟨span.nodup, fun a member => ?_⟩
  have := span.inside a member
  omega

theorem Span.single {a : Nat} (low : lo ≤ a) (high : a < hi) : Span lo hi [a] := by
  constructor
  · simp
  · simp [low, high]

theorem Span.perm (span : Span lo hi xs) (same : xs.Perm ys) : Span lo hi ys :=
  ⟨same.nodup_iff.mp span.nodup, fun a member => span.inside a (same.mem_iff.mpr member)⟩

theorem Span.append (left : Span lo mid xs) (right : Span mid hi ys) (low : lo ≤ mid)
    (high : mid ≤ hi) : Span lo hi (xs ++ ys) := by
  constructor
  · refine List.nodup_append.mpr ⟨left.nodup, right.nodup, fun a first b second same => ?_⟩
    have := left.inside a first
    have := right.inside b second
    omega
  · intro a member
    rcases List.mem_append.mp member with first | second
    · have := left.inside a first
      omega
    · have := right.inside a second
      omega

theorem Span.length_le (span : Span lo hi xs) : xs.length ≤ hi - lo := by
  have inside : xs ⊆ List.range' lo (hi - lo) := by
    intro a member
    have := span.inside a member
    simp only [List.mem_range'_1]
    omega
  simpa using (List.subperm_of_subset span.nodup inside).length_le

end Spans

section Erase

variable {C : Type}

def erase (cells : Nat → Option C) (blocks : List Nat) : Nat → Option C :=
  fun a => if a ∈ blocks then none else cells a

theorem erase_mem {cells : Nat → Option C} {blocks : List Nat} {a : Nat} (member : a ∈ blocks) :
    erase cells blocks a = none := if_pos member

theorem erase_other {cells : Nat → Option C} {blocks : List Nat} {a : Nat} (other : a ∉ blocks) :
    erase cells blocks a = cells a := if_neg other

theorem erase_nil (cells : Nat → Option C) : erase cells [] = cells := by
  funext a
  simp [erase]

theorem erase_erase (cells : Nat → Option C) (xs ys : List Nat) :
    erase (erase cells xs) ys = erase cells (xs ++ ys) := by
  funext a
  by_cases first : a ∈ xs <;> by_cases second : a ∈ ys <;> simp [erase, first, second]

theorem update_none (cells : Nat → Option C) (a : Nat) :
    Function.update cells a none = erase cells [a] := by
  funext b
  by_cases same : b = a <;> simp [erase, same]

end Erase

end BTServer.Cells
