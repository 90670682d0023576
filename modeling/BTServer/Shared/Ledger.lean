import Mathlib.Data.List.Perm.Basic
import Mathlib.Data.List.Nodup
import Mathlib.Logic.Function.Basic
import Mathlib.Tactic.Common

set_option autoImplicit false

namespace BTServer

-- A block is named by how many were allocated before it.
structure Heap where
  mallocs : Nat
  freed : List Nat

namespace Heap

def malloc (h : Heap) : Heap := { h with mallocs := h.mallocs + 1 }

def free (h : Heap) (blocks : List Nat) : Heap := { h with freed := h.freed ++ blocks }

/-- From one heap to the other every block that was held or has been allocated is now held or has
been freed, once. -/
def Balanced (h h' : Heap) (held held' : List Nat) : Prop :=
  ∃ n, h'.mallocs = h.mallocs + n ∧
    (h'.freed ++ held').Perm (h.freed ++ held ++ List.range' h.mallocs n)

theorem Balanced.refl (h : Heap) (held : List Nat) : Balanced h h held held :=
  ⟨0, by simp⟩

theorem Balanced.trans {h₁ h₂ h₃ : Heap} {held₁ held₂ held₃ : List Nat}
    (first : Balanced h₁ h₂ held₁ held₂) (second : Balanced h₂ h₃ held₂ held₃) :
    Balanced h₁ h₃ held₁ held₃ := by
  obtain ⟨n₁, count₁, blocks₁⟩ := first
  obtain ⟨n₂, count₂, blocks₂⟩ := second
  have ranges : List.range' h₁.mallocs n₁ ++ List.range' h₂.mallocs n₂ =
      List.range' h₁.mallocs (n₁ + n₂) := by
    rw [count₁, List.range'_append_1]
  refine ⟨n₁ + n₂, by omega, ?_⟩
  apply blocks₂.trans
  rw [← ranges, ← List.append_assoc]
  exact blocks₁.append_right _

theorem Balanced.frame {h h' : Heap} {held held' : List Nat} (balanced : Balanced h h' held held')
    (others : List Nat) : Balanced h h' (others ++ held) (others ++ held') := by
  obtain ⟨n, count, blocks⟩ := balanced
  refine ⟨n, count, ?_⟩
  rw [List.perm_iff_count] at blocks ⊢
  intro block
  have same := blocks block
  simp only [List.count_append] at same ⊢
  omega

theorem Balanced.congr {h h' : Heap} {held held' kept kept' : List Nat}
    (balanced : Balanced h h' held held') (before : held.Perm kept) (after : held'.Perm kept') :
    Balanced h h' kept kept' := by
  obtain ⟨n, count, blocks⟩ := balanced
  refine ⟨n, count, ?_⟩
  apply (after.symm.append_left _).trans
  apply blocks.trans
  exact (before.append_left _).append_right _

theorem balanced_malloc (h : Heap) (held : List Nat) :
    Balanced h h.malloc held (held ++ [h.mallocs]) :=
  ⟨1, rfl, by simp [malloc]⟩

theorem balanced_free (h : Heap) (held blocks : List Nat) :
    Balanced h (h.free blocks) (held ++ blocks) held := by
  refine ⟨0, rfl, ?_⟩
  rw [List.perm_iff_count]
  intro block
  simp only [free, List.count_append, List.range'_zero, List.count_nil]
  omega

theorem balanced_free_iff {h h' : Heap} {held : List Nat} (balanced : Balanced h h' [] held)
    (blocks : List Nat) : Balanced h (h'.free blocks) [] [] ↔ blocks.Perm held := by
  obtain ⟨n, count, kept⟩ := balanced
  constructor
  next =>
    intro ⟨m, count', freed⟩
    obtain rfl : m = n := by
      simp only [free] at count'
      omega
    rw [free, List.append_nil] at freed
    exact (List.perm_append_left_iff h'.freed).mp (freed.trans kept.symm)
  next =>
    intro same
    refine ⟨n, count, ?_⟩
    rw [free, List.append_nil]
    exact (same.append_left _).trans kept

structure Tidy (h : Heap) (held : List Nat) : Prop where
  distinct : (h.freed ++ held).Nodup
  known : ∀ block ∈ h.freed ++ held, block < h.mallocs

theorem Balanced.mem_iff {h h' : Heap} {held held' : List Nat} (balanced : Balanced h h' held held')
    (block : Nat) : block ∈ h'.freed ++ held' ↔
      block ∈ h.freed ++ held ∨ (h.mallocs ≤ block ∧ block < h'.mallocs) := by
  obtain ⟨n, count, blocks⟩ := balanced
  rw [blocks.mem_iff, List.mem_append, List.mem_range'_1, count]

theorem Balanced.tidy {h h' : Heap} {held held' : List Nat} (balanced : Balanced h h' held held')
    (tidy : h.Tidy held) : h'.Tidy held' := by
  constructor
  · obtain ⟨n, count, blocks⟩ := balanced
    rw [blocks.nodup_iff, List.nodup_append']
    refine ⟨tidy.distinct, List.nodup_range', fun block old new => ?_⟩
    have low := tidy.known block old
    have high := (List.mem_range'_1.mp new).1
    omega
  · intro block member
    rcases (balanced.mem_iff block).mp member with old | new
    · have low := tidy.known block old
      obtain ⟨n, count, -⟩ := balanced
      omega
    · exact new.2

theorem Balanced.held_iff {h h' : Heap} {held held' : List Nat}
    (balanced : Balanced h h' held held') (tidy : h.Tidy held)
    (kept : ∀ block ∈ h.freed, block ∈ h'.freed) (block : Nat) :
    block ∈ held' ↔ block ∉ h'.freed ∧
      (block ∈ held ∨ (h.mallocs ≤ block ∧ block < h'.mallocs)) := by
  have whole := balanced.mem_iff block
  have apart := (List.nodup_append'.mp (balanced.tidy tidy).distinct).2.2
  simp only [List.mem_append] at whole
  constructor
  · intro member
    have live : block ∉ h'.freed := fun freed => apart freed member
    rcases whole.mp (.inr member) with (freed | old) | new
    · exact absurd (kept block freed) live
    · exact ⟨live, .inl old⟩
    · exact ⟨live, .inr new⟩
  · rintro ⟨live, old | new⟩
    · exact (whole.mpr (.inl (.inr old))).resolve_left live
    · exact (whole.mpr (.inr new)).resolve_left live

end Heap

section Slots

variable {S A : Type} [DecidableEq S] [DecidableEq A]

def store (held : S → List A) : List (S × List A) → S → List A
  | [] => held
  | (slot, blocks) :: moves => store (Function.update held slot blocks) moves

omit [DecidableEq A] in
theorem store_append (held : S → List A) (moves moves' : List (S × List A)) :
    store held (moves ++ moves') = store (store held moves) moves' := by
  induction moves generalizing held with
  | nil => rfl
  | cons move moves ih => exact ih _

omit [DecidableEq A] in
theorem store_other (held : S → List A) (moves : List (S × List A)) (slot : S)
    (other : slot ∉ moves.map Prod.fst) : store held moves slot = held slot := by
  induction moves generalizing held with
  | nil => rfl
  | cons move moves ih =>
    simp only [List.map_cons, List.mem_cons, not_or] at other
    rw [store, ih _ other.2, Function.update_of_ne other.1]

omit [DecidableEq A] in
theorem store_stored (held : S → List A) (moves : List (S × List A)) (slot : S)
    (stored : slot ∈ moves.map Prod.fst) : (slot, store held moves slot) ∈ moves := by
  induction moves generalizing held with
  | nil => simp at stored
  | cons move moves ih =>
    obtain ⟨slot', blocks⟩ := move
    by_cases later : slot ∈ moves.map Prod.fst
    next => exact List.mem_cons_of_mem _ (ih _ later)
    next =>
      obtain rfl : slot = slot' := by simpa [later] using stored
      rw [store, store_other _ _ _ later, Function.update_self]
      exact List.mem_cons_self

theorem count_flatMap_single (held : S → List A) (released : List S) (slot : S) (block : A)
    (only : ∀ other, other ≠ slot → block ∉ held other) :
    (released.flatMap held).count block = released.count slot * (held slot).count block := by
  induction released with
  | nil => simp
  | cons first released ih =>
    rw [List.flatMap_cons, List.count_append, ih]
    by_cases same : first = slot
    next =>
      rw [same, List.count_cons_self, Nat.succ_mul, Nat.add_comm]
    next =>
      rw [List.count_eq_zero.mpr (only first same), List.count_cons_of_ne same, Nat.zero_add]

variable {moves : List (S × List A)}

omit [DecidableEq S] [DecidableEq A] in
theorem move_unique (distinct : (moves.flatMap Prod.snd).Nodup) {move move' : S × List A}
    {block : A} (member : move ∈ moves) (member' : move' ∈ moves) (here : block ∈ move.2)
    (here' : block ∈ move'.2) : move = move' := by
  induction moves with
  | nil => simp at member
  | cons first moves ih =>
    rw [List.flatMap_cons, List.nodup_append'] at distinct
    obtain ⟨-, later, apart⟩ := distinct
    rcases List.mem_cons.mp member with rfl | after <;>
      rcases List.mem_cons.mp member' with rfl | after'
    next => rfl
    next => exact absurd (List.mem_flatMap.mpr ⟨move', after', here'⟩) (apart here)
    next => exact absurd (List.mem_flatMap.mpr ⟨move, after, here⟩) (apart here')
    next => exact ih later after after'

omit [DecidableEq A] in
theorem store_only (distinct : (moves.flatMap Prod.snd).Nodup) {move : S × List A} {block : A}
    (member : move ∈ moves) (here : block ∈ move.2) (slot : S)
    (held : block ∈ store (fun _ => []) moves slot) :
    (slot, store (fun _ => []) moves slot) = move := by
  by_cases stored : slot ∈ moves.map Prod.fst
  next => exact move_unique distinct (store_stored _ moves slot stored) member held here
  next =>
    rw [store_other _ _ _ stored] at held
    simp at held

omit [DecidableEq A] in
theorem slots_nodup_of_kept (held : S → List A) (distinct : (moves.flatMap Prod.snd).Nodup)
    (some : ∀ move ∈ moves, move.2 ≠ [])
    (kept : ∀ move ∈ moves, ∀ block ∈ move.2, block ∈ store held moves move.1) :
    (moves.map Prod.fst).Nodup := by
  induction moves generalizing held with
  | nil => simp
  | cons first moves ih =>
    obtain ⟨slot, blocks⟩ := first
    rw [List.flatMap_cons, List.nodup_append'] at distinct
    obtain ⟨-, later, apart⟩ := distinct
    rw [List.map_cons, List.nodup_cons]
    constructor
    next =>
      intro again
      obtain ⟨block, here⟩ := List.exists_mem_of_ne_nil _ (some _ List.mem_cons_self)
      have there := kept _ List.mem_cons_self block here
      have stored := store_stored (Function.update held slot blocks) moves slot again
      exact apart here (List.mem_flatMap.mpr ⟨_, stored, there⟩)
    next =>
      apply ih (Function.update held slot blocks) later
      · exact fun move member => some move (List.mem_cons_of_mem _ member)
      · exact fun move member => kept move (List.mem_cons_of_mem _ member)

theorem count_released (released : List S) (distinct : (moves.flatMap Prod.snd).Nodup)
    {move : S × List A} (member : move ∈ moves) {block : A} (here : block ∈ move.2) :
    (released.flatMap (store (fun _ => []) moves)).count block =
      released.count move.1 * (store (fun _ => []) moves move.1).count block := by
  apply count_flatMap_single
  intro other different held
  exact different (congrArg Prod.fst (store_only distinct member here other held))

omit [DecidableEq S] in
theorem count_moved (distinct : (moves.flatMap Prod.snd).Nodup) {move : S × List A}
    (member : move ∈ moves) {block : A} (here : block ∈ move.2) :
    (moves.flatMap Prod.snd).count block = 1 :=
  List.count_eq_one_of_mem distinct (List.mem_flatMap.mpr ⟨move, member, here⟩)

theorem once_of_released (released : List S) (distinct : (moves.flatMap Prod.snd).Nodup)
    (some : ∀ move ∈ moves, move.2 ≠ [])
    (all : (released.flatMap (store (fun _ => []) moves)).Perm (moves.flatMap Prod.snd)) :
    (moves.map Prod.fst).Nodup ∧ ∀ slot ∈ moves.map Prod.fst, released.count slot = 1 := by
  have counted (move : S × List A) (member : move ∈ moves) (block : A) (here : block ∈ move.2) :
      released.count move.1 = 1 ∧ (store (fun _ => []) moves move.1).count block = 1 := by
    have total := all.count_eq block
    rw [count_released released distinct member here, count_moved distinct member here] at total
    exact ⟨Nat.eq_one_of_mul_eq_one_right total, Nat.eq_one_of_mul_eq_one_left total⟩
  constructor
  next =>
    apply slots_nodup_of_kept (fun _ => []) distinct some
    intro move member block here
    apply List.count_pos_iff.mp
    rw [(counted move member block here).2]
    decide
  next =>
    intro slot stored
    obtain ⟨move, member, rfl⟩ := List.mem_map.mp stored
    obtain ⟨block, here⟩ := List.exists_mem_of_ne_nil _ (some move member)
    exact (counted move member block here).1

theorem released_of_once (released : List S) (distinct : (moves.flatMap Prod.snd).Nodup)
    (separate : (moves.map Prod.fst).Nodup)
    (each : ∀ slot ∈ moves.map Prod.fst, released.count slot = 1) :
    (released.flatMap (store (fun _ => []) moves)).Perm (moves.flatMap Prod.snd) := by
  rw [List.perm_iff_count]
  intro block
  by_cases moved : block ∈ moves.flatMap Prod.snd
  next =>
    obtain ⟨move, member, here⟩ := List.mem_flatMap.mp moved
    have stored : move.1 ∈ moves.map Prod.fst := List.mem_map_of_mem member
    have last := store_stored (fun _ => []) moves move.1 stored
    have whole := List.inj_on_of_nodup_map separate last member rfl
    have held : store (fun _ => []) moves move.1 = move.2 := congrArg Prod.snd whole
    have apart := (List.nodup_flatMap.mp distinct).1 move member
    rw [count_released released distinct member here, count_moved distinct member here,
      each _ stored, held, List.count_eq_one_of_mem apart here]
  next =>
    rw [List.count_eq_zero.mpr moved, List.count_eq_zero]
    intro present
    obtain ⟨slot, -, held⟩ := List.mem_flatMap.mp present
    by_cases stored : slot ∈ moves.map Prod.fst
    next => exact moved (List.mem_flatMap.mpr ⟨_, store_stored _ moves slot stored, held⟩)
    next =>
      rw [store_other _ _ _ stored] at held
      simp at held

/-- Releasing a list of slots gives back what was stored exactly when no slot was stored to twice
and each that was stored to is in the list once. -/
theorem release_once_iff (released : List S) (distinct : (moves.flatMap Prod.snd).Nodup)
    (some : ∀ move ∈ moves, move.2 ≠ []) :
    (released.flatMap (store (fun _ => []) moves)).Perm (moves.flatMap Prod.snd) ↔
      (moves.map Prod.fst).Nodup ∧ ∀ slot ∈ moves.map Prod.fst, released.count slot = 1 := by
  constructor
  next => exact once_of_released released distinct some
  next => exact fun once => released_of_once released distinct once.1 once.2

end Slots

end BTServer
