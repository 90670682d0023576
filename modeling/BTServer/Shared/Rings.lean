import BTServer.Shared.LinkedList

set_option autoImplicit false

-- Several rings in one memory: what is done to one of them leaves the others alone.
namespace BTServer.LinkedList

variable {P : Type} {links : Links P} {head new entry : P} {nodes : List P}

theorem Ring.last_mem (ring : Ring links head nodes) : (links head).prev ∈ head :: nodes := by
  have last := @Ring.prev_of_split _ links head nodes [] (by rwa [List.append_nil])
  rw [List.headD_nil] at last
  rw [last]
  exact List.getLast_mem _

theorem Ring.next_mem (ring : Ring links head nodes) (member : entry ∈ nodes) :
    (links entry).next ∈ head :: nodes := by
  obtain ⟨front, back, rfl⟩ := List.append_of_mem member
  rw [ring.next_of_split front]
  cases back with
  | nil => simp
  | cons p back => simp

theorem Ring.prev_mem (ring : Ring links head nodes) (member : entry ∈ nodes) :
    (links entry).prev ∈ head :: nodes := by
  obtain ⟨front, back, rfl⟩ := List.append_of_mem member
  have before := ring.prev_of_split front (entry :: back)
  rw [List.headD_cons] at before
  rw [before]
  rcases List.mem_cons.mp (List.getLast_mem (List.cons_ne_nil head front)) with same | inside
  next => rw [same]; exact List.mem_cons_self
  next => exact List.mem_cons_of_mem _ (List.mem_append_left _ inside)

variable [DecidableEq P]

theorem listAddTail_other {p : P} (ring : Ring links head nodes) (outside : p ∉ head :: nodes)
    (old : p ≠ new) : listAddTail links new head p = links p := by
  have last : p ≠ (links head).prev := fun same => outside (same ▸ ring.last_mem)
  have first : p ≠ head := fun same => outside (same ▸ List.mem_cons_self)
  have next := listAddTail_next links new head p
  have prev := listAddTail_prev links new head p
  rw [if_neg last, if_neg old] at next
  rw [if_neg old, if_neg first] at prev
  cases here : links p
  cases there : listAddTail links new head p
  simp_all

theorem listDel_other {p : P} (poison₁ poison₂ : P) (ring : Ring links head nodes)
    (member : entry ∈ nodes) (outside : p ∉ head :: nodes) :
    listDel poison₁ poison₂ links entry p = links p := by
  have other : p ≠ entry := fun same => outside (same ▸ List.mem_cons_of_mem _ member)
  have behind : p ≠ (links entry).next := fun same => outside (same ▸ ring.next_mem member)
  have before : p ≠ (links entry).prev := fun same => outside (same ▸ ring.prev_mem member)
  have next := listDel_next poison₁ poison₂ links entry p
  have prev := listDel_prev poison₁ poison₂ links entry p
  rw [if_neg other, if_neg before] at next
  rw [if_neg other, if_neg behind] at prev
  cases here : links p
  cases there : listDel poison₁ poison₂ links entry p
  simp_all

theorem Ring.append (ring : Ring links head nodes) (fresh : new ∉ head :: nodes) :
    Ring (LinkedList.listAddTail links new head) head (nodes ++ [new]) :=
  @Ring.listAddTail _ _ links head new nodes [] (by rwa [List.append_nil])
    (by rwa [List.append_nil])

theorem Ring.erase (poison₁ poison₂ : P) (ring : Ring links head nodes) (member : entry ∈ nodes) :
    Ring (LinkedList.listDel poison₁ poison₂ links entry) head (nodes.erase entry) := by
  obtain ⟨front, back, rfl⟩ := List.append_of_mem member
  have distinct := (List.nodup_cons.mp ring.nodup).2
  have first : entry ∉ front := fun inside =>
    List.disjoint_of_nodup_append distinct inside List.mem_cons_self
  rw [List.erase_append_right _ first, List.erase_cons_head]
  exact ring.listDel poison₁ poison₂

end BTServer.LinkedList
