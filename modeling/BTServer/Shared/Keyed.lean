import Mathlib.Data.List.Forall2
import Mathlib.Data.List.Nodup

set_option autoImplicit false

-- Lists of keyed entries in which the last entry of a key counts.
namespace BTServer.Keyed

variable {K V A B : Type}

section Last

variable [DecidableEq K] (key : K) (type : V → Option A)

def under (e : K × V) : Option A := if e.1 = key then type e.2 else none

/-- The value of the last entry that has the key and the type. -/
def last (es : List (K × V)) : Option A := (es.filterMap (under key type)).getLast?

@[simp] theorem last_nil : last key type [] = none := rfl

theorem last_append (es later : List (K × V)) :
    last key type (es ++ later) = (last key type later).or (last key type es) := by
  rw [last, List.filterMap_append, List.getLast?_append]
  rfl

end Last

section Related

variable {V' A' : Type} {R : K × V → K × V' → Prop} {S : A → A' → Prop}

theorem getLast?_related {xs : List A} {ys : List A'} (related : List.Forall₂ S xs ys) :
    Option.Rel S xs.getLast? ys.getLast? := by
  rw [List.getLast?_eq_head?_reverse, List.getLast?_eq_head?_reverse]
  have reversed : List.Forall₂ S xs.reverse ys.reverse := List.rel_reverse related
  generalize xs.reverse = xs, ys.reverse = ys at reversed
  cases reversed with
  | nil => exact .none
  | cons here _ => exact .some here

theorem last_related [DecidableEq K] (key : K) (type : V → Option A) (type' : V' → Option A')
    (each : ∀ e e', R e e' → Option.Rel S (under key type e) (under key type' e'))
    {es : List (K × V)} {es' : List (K × V')} (related : List.Forall₂ R es es') :
    Option.Rel S (last key type es) (last key type' es') :=
  getLast?_related (List.rel_filterMap (fun e e' => each e e') related)

end Related

def Shuffled (es es' : List (K × V)) : Prop := es.Perm es' ∧ (es.map Prod.fst).Nodup

section Shuffled

variable {es es' : List (K × V)}

theorem flatMap_shuffled (key : K) (pick : K × V → List B) (only : ∀ e, e.1 ≠ key → pick e = [])
    (shuffled : Shuffled es es') : es.flatMap pick = es'.flatMap pick := by
  obtain ⟨perm, distinct⟩ := shuffled
  induction perm with
  | nil => rfl
  | cons e _ ih =>
    rw [List.map_cons, List.nodup_cons] at distinct
    rw [List.flatMap_cons, List.flatMap_cons, ih distinct.2]
  | swap e e' es =>
    -- Only one of the two entries can have the key.
    simp only [List.map_cons, List.nodup_cons, List.mem_cons, not_or] at distinct
    have other : pick e = [] ∨ pick e' = [] := by
      by_cases same : e.1 = key
      next => exact .inr (only e' fun also => distinct.1.1 (also.trans same.symm))
      next => exact .inl (only e same)
    rcases other with none | none
    · simp [none]
    · simp [none]
  | trans first _ ih ih' =>
    exact (ih distinct).trans (ih' ((first.map Prod.fst).nodup_iff.mp distinct))

theorem last_shuffled [DecidableEq K] (key : K) (type : V → Option A)
    (shuffled : Shuffled es es') : last key type es = last key type es' := by
  have picked := flatMap_shuffled key (fun e => (under key type e).toList)
    (fun e other => by rw [under, if_neg other]; rfl) shuffled
  rw [last, last, List.filterMap_eq_flatMap_toList, List.filterMap_eq_flatMap_toList, picked]

end Shuffled

section Latest

variable [DecidableEq K] {key : K} {es : List (K × V)} {v : V}

theorem last_eq_none_iff : last key some es = none ↔ ∀ e ∈ es, e.1 ≠ key := by
  simp [last, under]

theorem last_split (found : last key some es = some v) :
    ∃ front back, es = front ++ (key, v) :: back ∧ ∀ e ∈ back, e.1 ≠ key := by
  induction es with
  | nil => simp at found
  | cons e es ih =>
    rw [show e :: es = [e] ++ es from rfl, last_append] at found
    cases later : last key some es with
    | some w =>
      have value : w = v := by simpa [later] using found
      obtain ⟨front, back, split, others⟩ := ih (value ▸ later)
      exact ⟨e :: front, back, by rw [split]; rfl, others⟩
    | none =>
      rw [later, Option.none_or] at found
      have here : e = (key, v) := by
        by_cases same : e.1 = key
        next => simp_all [last, under, Prod.ext_iff]
        next => simp [last, under, same] at found
      exact ⟨[], es, by rw [here]; rfl, last_eq_none_iff.mp later⟩

theorem flatMap_missing (pick : K × V → List B) (only : ∀ e, e.1 ≠ key → pick e = [])
    (missing : last key some es = none) : es.flatMap pick = [] :=
  List.flatMap_eq_nil_iff.mpr fun e inside => only e (last_eq_none_iff.mp missing e inside)

theorem flatMap_last (pick : K × V → List B) (only : ∀ e, e.1 ≠ key → pick e = [])
    (found : last key some es = some v) : ∃ earlier,
      es.flatMap pick = earlier ++ pick (key, v) ∧ ((es.map Prod.fst).Nodup → earlier = []) := by
  obtain ⟨front, back, rfl, others⟩ := last_split found
  have behind : back.flatMap pick = [] :=
    List.flatMap_eq_nil_iff.mpr fun e inside => only e (others e inside)
  refine ⟨front.flatMap pick, by simp [behind], fun distinct => ?_⟩
  rw [List.flatMap_eq_nil_iff]
  intro e inside
  apply only
  intro same
  rw [List.map_append, List.nodup_append] at distinct
  exact distinct.2.2 e.1 (List.mem_map_of_mem inside) key (by simp) same

variable (type : V → Option A)

theorem last_flatMap :
    last key type es = (es.flatMap fun e => (under key type e).toList).getLast? := by
  rw [last, List.filterMap_eq_flatMap_toList]

theorem last_untyped (missing : last key some es = none) : last key type es = none := by
  rw [last_flatMap, flatMap_missing _ (fun e other => by rw [under, if_neg other]; rfl) missing]
  rfl

theorem last_typed (found : last key some es = some v) : ∃ earlier,
    last key type es = (type v).or earlier ∧ ((es.map Prod.fst).Nodup → earlier = none) := by
  obtain ⟨earlier, all, first⟩ := flatMap_last (fun e => (under key type e).toList)
    (fun e other => by rw [under, if_neg other]; rfl) found
  refine ⟨earlier.getLast?, ?_, fun distinct => by rw [first distinct]; rfl⟩
  rw [last_flatMap, all, under, if_pos rfl, List.getLast?_append]
  cases type v <;> rfl

end Latest

end BTServer.Keyed
