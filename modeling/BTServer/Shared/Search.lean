import BTServer.Shared.Outcome
import Mathlib.Data.List.Basic

set_option autoImplicit false

-- A depth-first search along two kinds of edges. It marks what it comes to as a child and does not
-- mark what it comes to along a link.
namespace BTServer

inductive Link (α : Type) where
  | none
  | broken
  | onto (target : α)

structure Net (α : Type) where
  children : α → List α
  link : α → Link α

namespace Net

open Outcome

variable {α : Type}

section Visit

variable [DecidableEq α]

def visitAll (visit : α → List α → Outcome (List α) Unit) :
    List α → List α → Outcome (List α) Unit
  | [], marked => .done () marked
  | v :: vs, marked =>
    if v ∈ marked then visitAll visit vs marked
    else (visit v (v :: marked)).andThen fun _ marked => visitAll visit vs marked

def follow (net : Net α) (visit : α → List α → Outcome (List α) Unit) (t : α) (marked : List α) :
    Outcome (List α) Unit :=
  match net.link t with
  | .none => .done () marked
  | .broken => .fault marked
  | .onto m => if m ∈ marked then .done () marked else visit m marked

/-- Fuel bounds how deep the search may go. -/
def visit (net : Net α) : Nat → α → List α → Outcome (List α) Unit
  | 0, _, marked => .timeout marked
  | fuel + 1, t, marked =>
    (visitAll (net.visit fuel) (net.children t) marked).andThen fun _ marked =>
      net.follow (net.visit fuel) t marked

section Follow

variable {net : Net α} {visit : α → List α → Outcome (List α) Unit} {t m : α} {marked : List α}

theorem follow_none (edge : net.link t = .none) : net.follow visit t marked = .done () marked := by
  rw [follow, edge]

theorem follow_broken (edge : net.link t = .broken) : net.follow visit t marked = .fault marked := by
  rw [follow, edge]

theorem follow_marked (edge : net.link t = .onto m) (known : m ∈ marked) :
    net.follow visit t marked = .done () marked := by
  rw [follow, edge]
  exact if_pos known

theorem follow_new (edge : net.link t = .onto m) (new : m ∉ marked) :
    net.follow visit t marked = visit m marked := by
  rw [follow, edge]
  exact if_neg new

end Follow

theorem visitAll_extends {visit visit' : α → List α → Outcome (List α) Unit}
    (each : ∀ v marked, (visit v marked).Extends (visit' v marked)) (vs marked : List α) :
    (visitAll visit vs marked).Extends (visitAll visit' vs marked) := by
  induction vs generalizing marked with
  | nil => exact .refl _
  | cons v vs ih =>
    rw [visitAll, visitAll]
    split
    next => exact ih marked
    next => exact (each v _).andThen fun _ marked => ih marked

theorem follow_extends (net : Net α) {visit visit' : α → List α → Outcome (List α) Unit}
    (each : ∀ v marked, (visit v marked).Extends (visit' v marked)) (t : α) (marked : List α) :
    (net.follow visit t marked).Extends (net.follow visit' t marked) := by
  unfold follow
  split
  next => exact .refl _
  next => exact .refl _
  next m _ =>
    split
    next => exact .refl _
    next => exact each m marked

theorem visit_extends (net : Net α) (fuel more : Nat) (t : α) (marked : List α) :
    (net.visit fuel t marked).Extends (net.visit (fuel + more) t marked) := by
  induction fuel generalizing t marked with
  | zero => exact .inl ⟨marked, rfl⟩
  | succ fuel ih =>
    rw [Nat.add_right_comm, visit, visit]
    exact (visitAll_extends ih _ _).andThen fun _ marked => net.follow_extends ih t marked

theorem visit_grows (net : Net α) (t : α) (marked : List α) : Grows (net.visit · t marked) :=
  fun fuel more => net.visit_extends fuel more t marked

theorem visitAll_grows (net : Net α) (vs marked : List α) :
    Grows fun fuel => visitAll (net.visit fuel) vs marked :=
  fun fuel more => visitAll_extends (net.visit_extends fuel more) vs marked

theorem visitAll_marked {visit : α → List α → Outcome (List α) Unit} {vs marked : List α}
    (all : ∀ v ∈ vs, v ∈ marked) : visitAll visit vs marked = .done () marked := by
  induction vs with
  | nil => rfl
  | cons v vs ih =>
    rw [List.forall_mem_cons] at all
    rw [visitAll, if_pos all.1, ih all.2]

end Visit

inductive Shut (net : Net α) (marked : List α) : α → Prop where
  | single {t : α} (old : net.children t ⊆ marked) (edge : net.link t = .none) : Shut net marked t
  | marked {t m : α} (old : net.children t ⊆ marked) (edge : net.link t = .onto m)
      (known : m ∈ marked) : Shut net marked t
  | link {t m : α} (old : net.children t ⊆ marked) (edge : net.link t = .onto m)
      (later : Shut net marked m) : Shut net marked t

section Shut

variable {net : Net α} {marked marked' : List α} {t : α}

theorem Shut.mono (shut : net.Shut marked t) (more : marked ⊆ marked') : net.Shut marked' t := by
  induction shut with
  | single old edge => exact .single (List.Subset.trans old more) edge
  | marked old edge known => exact .marked (List.Subset.trans old more) edge (more known)
  | link old edge _ ih => exact .link (List.Subset.trans old more) edge ih

theorem Shut.children (shut : net.Shut marked t) : net.children t ⊆ marked := by
  cases shut with
  | single old => exact old
  | marked old => exact old
  | link old => exact old

theorem Shut.link_cases {m : α} (shut : net.Shut marked t) (edge : net.link t = .onto m) :
    m ∈ marked ∨ net.Shut marked m := by
  cases shut with
  | single _ none => rw [none] at edge; cases edge
  | marked _ here known => rw [here] at edge; cases edge; exact .inl known
  | link _ here later => rw [here] at edge; cases edge; exact .inr later

theorem Shut.intact (shut : net.Shut marked t) : net.link t ≠ .broken := by
  intro broken
  cases shut with
  | single _ edge => rw [edge] at broken; cases broken
  | marked _ edge => rw [edge] at broken; cases broken
  | link _ edge => rw [edge] at broken; cases broken

variable [DecidableEq α]

theorem Shut.ends (shut : net.Shut marked t) : Ends (net.visit · t marked) := by
  apply Ends.after
  simp only [visit]
  induction shut with
  | single old edge => simp [visitAll_marked old, follow_none edge, Ends]
  | marked old edge known => simp [visitAll_marked old, follow_marked edge known, Ends]
  | @link t m old edge _ ih =>
    simp only [visitAll_marked old, done_andThen]
    by_cases known : m ∈ marked
    next => simp [follow_marked edge known, Ends]
    next =>
      simp only [follow_new edge known]
      apply Ends.after
      simp only [visit]
      exact ih

-- Everything that was marked on the way is shut, and nothing is taken back.
structure Leaves (net : Net α) (marked marked' : List α) : Prop where
  kept : marked ⊆ marked'
  shut : ∀ x ∈ marked', x ∈ marked ∨ net.Shut marked' x

omit [DecidableEq α] in
theorem Leaves.refl (marked : List α) : net.Leaves marked marked :=
  ⟨List.Subset.refl _, fun _ member => .inl member⟩

omit [DecidableEq α] in
theorem Leaves.trans {marked'' : List α} (first : net.Leaves marked marked')
    (second : net.Leaves marked' marked'') : net.Leaves marked marked'' where
  kept := List.Subset.trans first.kept second.kept
  shut x member := by
    rcases second.shut x member with old | shut
    next => exact (first.shut x old).imp_right fun shut => shut.mono second.kept
    next => exact .inr shut

omit [DecidableEq α] in
theorem Leaves.child {v : α} (first : net.Leaves (v :: marked) marked')
    (shut : net.Shut marked' v) : net.Leaves marked marked' where
  kept := fun x member => first.kept (List.mem_cons_of_mem v member)
  shut x member := by
    rcases first.shut x member with old | done
    next =>
      rcases List.mem_cons.mp old with rfl | old
      next => exact .inr shut
      next => exact .inl old
    next => exact .inr done

theorem visitAll_leaves {visit : α → List α → Outcome (List α) Unit}
    (each : ∀ v marked marked', visit v marked = .done () marked' →
      net.Leaves marked marked' ∧ net.Shut marked' v) {vs : List α}
    (ended : visitAll visit vs marked = .done () marked') :
    net.Leaves marked marked' ∧ vs ⊆ marked' := by
  induction vs generalizing marked with
  | nil =>
    cases ended
    exact ⟨.refl _, by simp⟩
  | cons v vs ih =>
    rw [visitAll] at ended
    split at ended
    next known =>
      obtain ⟨leaves, all⟩ := ih ended
      exact ⟨leaves, List.cons_subset.mpr ⟨leaves.kept known, all⟩⟩
    next new =>
      obtain ⟨_, marked₁, here, later⟩ := andThen_eq_done ended
      obtain ⟨first, shut⟩ := each _ _ _ here
      obtain ⟨leaves, all⟩ := ih later
      refine ⟨(first.child shut).trans leaves, List.cons_subset.mpr ⟨?_, all⟩⟩
      exact leaves.kept (first.kept List.mem_cons_self)

theorem visit_leaves {fuel : Nat} (ended : net.visit fuel t marked = .done () marked') :
    net.Leaves marked marked' ∧ net.Shut marked' t := by
  induction fuel generalizing t marked marked' with
  | zero => cases ended
  | succ fuel ih =>
    rw [visit] at ended
    obtain ⟨_, marked₁, here, later⟩ := andThen_eq_done ended
    obtain ⟨leaves, all⟩ := visitAll_leaves (fun _ _ _ => ih) here
    cases edge : net.link t with
    | none =>
      rw [follow_none edge] at later
      cases later
      exact ⟨leaves, .single all edge⟩
    | broken =>
      rw [follow_broken edge] at later
      cases later
    | onto m =>
      by_cases known : m ∈ marked₁
      next =>
        rw [follow_marked edge known] at later
        cases later
        exact ⟨leaves, .marked all edge known⟩
      next =>
        rw [follow_new edge known] at later
        obtain ⟨further, shut⟩ := ih later
        exact ⟨leaves.trans further, .link (List.Subset.trans all further.kept) edge shut⟩

end Shut

end Net

end BTServer
