import BTServer.Shared.LinkedList

set_option autoImplicit false

namespace BTServer.LinkedList

variable {P : Type}

/-- What `links` has for the nodes of `made`, `after` has for them under their new names. The other
nodes of `after` are free. -/
structure Renamed (rename : P → P) (made : P → Prop) (links after : Links P) : Prop where
  injective : Function.Injective rename
  next : ∀ p, made p → (after (rename p)).next = rename (links p).next
  prev : ∀ p, made p → (after (rename p)).prev = rename (links p).prev

variable {rename : P → P} {made : P → Prop} {links after : Links P}

theorem Renamed.ring {head : P} {nodes : List P} (renamed : Renamed rename made links after)
    (ring : Ring links head nodes) (inside : ∀ p ∈ head :: nodes, made p) :
    Ring after (rename head) (nodes.map rename) := by
  refine ⟨?_, ?_⟩
  · rw [← List.map_cons]
    exact ring.nodup.map renamed.injective
  · rw [show rename head :: (nodes.map rename ++ [rename head]) =
      (head :: (nodes ++ [head])).map rename by simp, List.isChain_map]
    refine ring.chain_of fun a aIn b bIn joined => ⟨?_, ?_⟩
    · rw [renamed.next a (inside a aIn), joined.1]
    · rw [renamed.prev b (inside b bIn), joined.2]

section Operations

variable [DecidableEq P]

theorem listDel_apart (poison₁ poison₂ : P) {entry q : P} (other : q ≠ entry)
    (before : q ≠ (links entry).prev) (behind : q ≠ (links entry).next) :
    listDel poison₁ poison₂ links entry q = links q := by
  ext
  · rw [listDel_next, if_neg other, if_neg before]
  · rw [listDel_prev, if_neg other, if_neg behind]

theorem listAddTail_apart {new head q : P} (other : q ≠ new) (behind : q ≠ head)
    (before : q ≠ (links head).prev) : listAddTail links new head q = links q := by
  ext
  · rw [listAddTail_next, if_neg before, if_neg other]
  · rw [listAddTail_prev, if_neg other, if_neg behind]

theorem Renamed.listDel (renamed : Renamed rename made links after) (entry : P)
    (inside : made entry) (poison₁ poison₂ : P) :
    Renamed rename made (listDel poison₁ poison₂ links entry)
      (listDel (rename poison₁) (rename poison₂) after (rename entry)) := by
  refine ⟨renamed.injective, fun p here => ?_, fun p here => ?_⟩
  · rw [listDel_next, listDel_next, renamed.next p here, renamed.next entry inside,
      renamed.prev entry inside]
    simp only [renamed.injective.eq_iff, apply_ite rename]
  · rw [listDel_prev, listDel_prev, renamed.prev p here, renamed.next entry inside,
      renamed.prev entry inside]
    simp only [renamed.injective.eq_iff, apply_ite rename]

theorem Renamed.listAddTail {new head : P} (renamed : Renamed rename made links after)
    (inside : made head) :
    Renamed rename made (listAddTail links new head)
      (listAddTail after (rename new) (rename head)) := by
  refine ⟨renamed.injective, fun p here => ?_, fun p here => ?_⟩
  · rw [listAddTail_next, listAddTail_next, renamed.next p here, renamed.prev head inside]
    simp only [renamed.injective.eq_iff, apply_ite rename]
  · rw [listAddTail_prev, listAddTail_prev, renamed.prev p here, renamed.prev head inside]
    simp only [renamed.injective.eq_iff, apply_ite rename]

theorem Renamed.fill {more : P → Prop} {new : P} (renamed : Renamed rename made links after)
    (old : ∀ p, more p → p ≠ new → made p) (next prev : P) :
    Renamed rename more (Function.update links new ⟨next, prev⟩)
      (Function.update after (rename new) ⟨rename next, rename prev⟩) := by
  have apart {p : P} (other : p ≠ new) : rename p ≠ rename new :=
    fun same => other (renamed.injective same)
  refine ⟨renamed.injective, fun p here => ?_, fun p here => ?_⟩
  · by_cases same : p = new
    · rw [same, Function.update_self, Function.update_self]
    · rw [Function.update_of_ne same, Function.update_of_ne (apart same),
        renamed.next p (old p here same)]
  · by_cases same : p = new
    · rw [same, Function.update_self, Function.update_self]
    · rw [Function.update_of_ne same, Function.update_of_ne (apart same),
        renamed.prev p (old p here same)]

end Operations

end BTServer.LinkedList
