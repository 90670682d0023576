import BTServer.Shared.LinkedList

set_option autoImplicit false

namespace BTServer.LinkedList

variable {P : Type}

inductive Side where
  | next
  | prev
  deriving DecidableEq

structure Store (P : Type) where
  node : P
  side : Side
  value : P

def Store.place (w : Store P) : P × Side := (w.node, w.side)

def pointer (links : Links P) (place : P × Side) : P :=
  match place.2 with
  | .next => (links place.1).next
  | .prev => (links place.1).prev

@[simp] theorem pointer_next (links : Links P) (p : P) : pointer links (p, .next) = (links p).next := rfl

@[simp] theorem pointer_prev (links : Links P) (p : P) : pointer links (p, .prev) = (links p).prev := rfl

theorem links_ext {links after : Links P} (same : ∀ place, pointer after place = pointer links place) :
    after = links := by
  funext p
  have next := same (p, .next)
  have prev := same (p, .prev)
  rw [pointer_next, pointer_next] at next
  rw [pointer_prev, pointer_prev] at prev
  cases first : links p
  cases second : after p
  simp_all

def Outside (places : P × Side → Prop) (links after : Links P) : Prop :=
  ∀ place, ¬ places place → pointer after place = pointer links place

section Operations

variable [DecidableEq P]

def store (links : Links P) (w : Store P) : Links P :=
  match w.side with
  | .next => setNext links w.node w.value
  | .prev => setPrev links w.node w.value

def stores (links : Links P) (ws : List (Store P)) : Links P := ws.foldl store links

-- The pointers an operation reads are read before its first assignment.
def addTailStores (links : Links P) (new head : P) : List (Store P) :=
  let prev := (links head).prev
  [⟨head, .prev, new⟩, ⟨new, .next, head⟩, ⟨new, .prev, prev⟩, ⟨prev, .next, new⟩]

def delStores (poison₁ poison₂ : P) (links : Links P) (entry : P) : List (Store P) :=
  let prev := (links entry).prev
  let next := (links entry).next
  [⟨next, .prev, prev⟩, ⟨prev, .next, next⟩, ⟨entry, .next, poison₁⟩, ⟨entry, .prev, poison₂⟩]

theorem stores_addTailStores (links : Links P) (new head : P) :
    stores links (addTailStores links new head) = listAddTail links new head := rfl

theorem stores_delStores (poison₁ poison₂ : P) (links : Links P) (entry : P) :
    stores links (delStores poison₁ poison₂ links entry) = listDel poison₁ poison₂ links entry := rfl

theorem stores_append (links : Links P) (vs ws : List (Store P)) :
    stores links (vs ++ ws) = stores (stores links vs) ws :=
  List.foldl_append

theorem pointer_store (links : Links P) (w : Store P) (place : P × Side) :
    pointer (store links w) place = if place = w.place then w.value else pointer links place := by
  obtain ⟨p, side⟩ := place
  obtain ⟨node, written, value⟩ := w
  cases side <;> cases written <;> simp [store, Store.place]

theorem pointer_stores_congr {links after : Links P} (ws : List (Store P)) {place : P × Side}
    (same : pointer after place = pointer links place) :
    pointer (stores after ws) place = pointer (stores links ws) place := by
  induction ws generalizing links after with
  | nil => exact same
  | cons w ws ih =>
    apply ih
    rw [pointer_store, pointer_store, same]

theorem pointer_stores_untouched (links : Links P) (ws : List (Store P)) (place : P × Side)
    (untouched : ∀ w ∈ ws, place ≠ w.place) : pointer (stores links ws) place = pointer links place := by
  induction ws generalizing links with
  | nil => rfl
  | cons w ws ih =>
    refine (ih _ fun v member => untouched v (List.mem_cons_of_mem _ member)).trans ?_
    rw [pointer_store, if_neg (untouched w List.mem_cons_self)]

theorem pointer_stores_touched (links after : Links P) (ws : List (Store P)) (place : P × Side)
    (touched : ∃ w ∈ ws, place = w.place) :
    pointer (stores after ws) place = pointer (stores links ws) place := by
  induction ws generalizing links after with
  | nil =>
    obtain ⟨w, member, -⟩ := touched
    exact absurd member List.not_mem_nil
  | cons w ws ih =>
    by_cases later : ∃ w ∈ ws, place = w.place
    · exact ih _ _ later
    · have here : place = w.place := by
        obtain ⟨v, member, same⟩ := touched
        rcases List.mem_cons.mp member with rfl | member
        · exact same
        · exact absurd ⟨v, member, same⟩ later
      have written : pointer (store after w) place = pointer (store links w) place := by
        rw [pointer_store, pointer_store, if_pos here, if_pos here]
      exact pointer_stores_congr ws written

theorem Outside.stores {places : P × Side → Prop} {links after : Links P}
    (outside : Outside places links after) (ws : List (Store P)) :
    Outside places (stores links ws) (stores after ws) :=
  fun place absent => pointer_stores_congr ws (outside place absent)

theorem outside_stores (links : Links P) (ws : List (Store P)) (places : P × Side → Prop)
    (covered : ∀ w ∈ ws, places w.place) : Outside places links (LinkedList.stores links ws) := by
  intro place absent
  apply pointer_stores_untouched
  rintro w member rfl
  exact absent (covered w member)

/-- Assignments begun in one memory and finished in another, which has changed meanwhile but not
on the places of the first ones, are the same as all of them made at the end. -/
theorem stores_resume (links later torn : Links P) (done rest : List (Store P))
    {places : P × Side → Prop} (covered : ∀ w ∈ done, places w.place)
    (outside : Outside places later torn)
    (kept : ∀ place, places place →
      pointer later place = pointer links place ∧
        pointer torn place = pointer (stores links done) place) :
    stores torn rest = stores later (done ++ rest) := by
  rw [stores_append]
  refine congrArg (stores · rest) (links_ext fun place => ?_)
  by_cases touched : ∃ w ∈ done, place = w.place
  · obtain ⟨w, member, rfl⟩ := touched
    rw [(kept _ (covered w member)).2]
    exact pointer_stores_touched _ _ _ _ ⟨w, member, rfl⟩
  · have untouched : ∀ w ∈ done, place ≠ w.place := fun w member same => touched ⟨w, member, same⟩
    rw [pointer_stores_untouched _ _ _ untouched]
    by_cases inside : places place
    · rw [(kept place inside).2, (kept place inside).1, pointer_stores_untouched _ _ _ untouched]
    · exact outside place inside

end Operations

end BTServer.LinkedList
