import Mathlib.Data.List.Chain
import Mathlib.Data.List.Nodup
import Mathlib.Logic.Function.Basic
import Mathlib.Tactic.Common

set_option autoImplicit false

namespace BTServer.LinkedList

variable {P : Type}

@[ext] structure ListHead (P : Type) where
  next : P
  prev : P

abbrev Links (P : Type) := P → ListHead P

section Operations

variable [DecidableEq P]

def setNext (links : Links P) (p next : P) : Links P :=
  Function.update links p { links p with next }

def setPrev (links : Links P) (p prev : P) : Links P :=
  Function.update links p { links p with prev }

def initListHead (links : Links P) (list : P) : Links P :=
  setPrev (setNext links list list) list list

/-- `__list_add` -/
def listAddBetween (links : Links P) (new prev next : P) : Links P :=
  setNext (setPrev (setNext (setPrev links next new) new next) new prev) prev new

def listAddTail (links : Links P) (new head : P) : Links P :=
  listAddBetween links new (links head).prev head

/-- `__list_del` -/
def listDelBetween (links : Links P) (prev next : P) : Links P :=
  setNext (setPrev links next prev) prev next

def listDel (poison₁ poison₂ : P) (links : Links P) (entry : P) : Links P :=
  setPrev (setNext (listDelBetween links (links entry).prev (links entry).next) entry poison₁)
    entry poison₂

@[simp] theorem setNext_next (links : Links P) (p next q : P) :
    (setNext links p next q).next = if q = p then next else (links q).next := by
  by_cases same : q = p
  · simp [setNext, same]
  · simp [setNext, same]

@[simp] theorem setNext_prev (links : Links P) (p next q : P) :
    (setNext links p next q).prev = (links q).prev := by
  by_cases same : q = p
  · simp [setNext, same]
  · simp [setNext, same]

@[simp] theorem setPrev_prev (links : Links P) (p prev q : P) :
    (setPrev links p prev q).prev = if q = p then prev else (links q).prev := by
  by_cases same : q = p
  · simp [setPrev, same]
  · simp [setPrev, same]

@[simp] theorem setPrev_next (links : Links P) (p prev q : P) :
    (setPrev links p prev q).next = (links q).next := by
  by_cases same : q = p
  · simp [setPrev, same]
  · simp [setPrev, same]

theorem listAddTail_next (links : Links P) (new head q : P) :
    (listAddTail links new head q).next =
      if q = (links head).prev then new else if q = new then head else (links q).next := by
  simp [listAddTail, listAddBetween]

theorem listAddTail_prev (links : Links P) (new head q : P) :
    (listAddTail links new head q).prev =
      if q = new then (links head).prev else if q = head then new else (links q).prev := by
  simp [listAddTail, listAddBetween]

theorem listDel_next (poison₁ poison₂ : P) (links : Links P) (entry q : P) :
    (listDel poison₁ poison₂ links entry q).next =
      if q = entry then poison₁
      else if q = (links entry).prev then (links entry).next else (links q).next := by
  simp [listDel, listDelBetween]

theorem listDel_prev (poison₁ poison₂ : P) (links : Links P) (entry q : P) :
    (listDel poison₁ poison₂ links entry q).prev =
      if q = entry then poison₂
      else if q = (links entry).next then (links entry).prev else (links q).prev := by
  simp [listDel, listDelBetween]

end Operations

def Joined (links : Links P) (a b : P) : Prop := (links a).next = b ∧ (links b).prev = a

/-- The nodes that follow `head`, in order, on a circular doubly linked list. -/
structure Ring (links : Links P) (head : P) (nodes : List P) : Prop where
  nodup : (head :: nodes).Nodup
  chain : List.IsChain (Joined links) (head :: (nodes ++ [head]))

theorem isChain_transfer {R S : P → P → Prop} (l : List P) (chain : l.IsChain R)
    (imp : ∀ a ∈ l.dropLast, ∀ b ∈ l.tail, R a b → S a b) : l.IsChain S := by
  induction l with
  | nil => exact .nil
  | cons a l ih =>
    cases l with
    | nil => exact .singleton a
    | cons b l =>
      rw [List.isChain_cons_cons] at chain ⊢
      refine ⟨imp a (by simp) b (by simp) chain.1, ih chain.2 ?_⟩
      intro x hx y hy
      exact imp x (by simpa using .inr hx) y (by simpa using .inr hy)

theorem Ring.arcs {links : Links P} {head : P} (front back : List P)
    (ring : Ring links head (front ++ back)) :
    (head :: front).IsChain (Joined links) ∧ (back ++ [head]).IsChain (Joined links) ∧
      Joined links ((head :: front).getLast (by simp)) (back.headD head) := by
  have chain := ring.chain
  rw [show head :: (front ++ back ++ [head]) = (head :: front) ++ (back ++ [head]) by simp,
    List.isChain_append] at chain
  refine ⟨chain.1, chain.2.1, chain.2.2 _ (by simp [List.getLast?_eq_some_getLast]) _ ?_⟩
  cases back <;> simp

theorem Ring.of_arcs {links : Links P} {head : P} {front back : List P}
    (nodup : (head :: (front ++ back)).Nodup)
    (first : (head :: front).IsChain (Joined links))
    (second : (back ++ [head]).IsChain (Joined links))
    (joint : Joined links ((head :: front).getLast (by simp)) (back.headD head)) :
    Ring links head (front ++ back) := by
  refine ⟨nodup, ?_⟩
  rw [show head :: (front ++ back ++ [head]) = (head :: front) ++ (back ++ [head]) by simp,
    List.isChain_append]
  refine ⟨first, second, ?_⟩
  intro x hx y hy
  rw [List.getLast?_eq_some_getLast (by simp : head :: front ≠ [])] at hx
  obtain rfl := Option.some.inj hx
  have start : y = back.headD head := by
    cases back <;> simp at hy ⊢ <;> exact hy.symm
  exact start ▸ joint

theorem Ring.next_of_split {links : Links P} {head node : P} (front : List P) {back : List P}
    (ring : Ring links head (front ++ node :: back)) : (links node).next = back.headD head := by
  have arcs := Ring.arcs (front ++ [node]) back (by simpa using ring)
  simpa using arcs.2.2.1

theorem Ring.next_head {links : Links P} {head : P} {nodes : List P}
    (ring : Ring links head nodes) : (links head).next = nodes.headD head := by
  have arcs := Ring.arcs [] nodes (by simpa using ring)
  simpa using arcs.2.2.1

theorem Ring.unique {links : Links P} {head : P} {xs ys : List P} (left : Ring links head xs)
    (right : Ring links head ys) : xs = ys := by
  have follow (front xs ys : List P) (left : Ring links head (front ++ xs))
      (right : Ring links head (front ++ ys)) : xs = ys := by
    induction xs generalizing front ys with
    | nil =>
      cases ys with
      | nil => rfl
      | cons y ys =>
        have same := (left.arcs front []).2.2.1.symm.trans (right.arcs front (y :: ys)).2.2.1
        have fresh := (List.nodup_cons.mp right.nodup).1
        simp only [List.headD_nil, List.headD_cons] at same
        exact absurd (by simp [same]) fresh
    | cons x xs ih =>
      cases ys with
      | nil =>
        have same := (right.arcs front []).2.2.1.symm.trans (left.arcs front (x :: xs)).2.2.1
        have fresh := (List.nodup_cons.mp left.nodup).1
        simp only [List.headD_nil, List.headD_cons] at same
        exact absurd (by simp [same]) fresh
      | cons y ys =>
        have same := (left.arcs front (x :: xs)).2.2.1.symm.trans
          (right.arcs front (y :: ys)).2.2.1
        simp only [List.headD_cons] at same
        subst same
        rw [ih (front ++ [x]) ys (by simpa using left) (by simpa using right)]
  exact follow [] xs ys (by simpa using left) (by simpa using right)

theorem Ring.chain_of {links : Links P} {R : P → P → Prop} {head : P} {nodes : List P}
    (ring : Ring links head nodes)
    (imp : ∀ a ∈ head :: nodes, ∀ b ∈ head :: nodes, Joined links a b → R a b) :
    List.IsChain R (head :: (nodes ++ [head])) := by
  refine isChain_transfer _ ring.chain ?_
  intro a ha b hb joined
  have aIn : a ∈ head :: nodes := by simpa [List.dropLast_cons_of_ne_nil] using ha
  have bIn : b ∈ head :: nodes := by
    have either : b ∈ nodes ∨ b = head := by simpa using hb
    rcases either with inside | rfl <;> simp [*]
  exact imp a aIn b bIn joined

theorem Ring.congr {links after : Links P} {head : P} {nodes : List P} (ring : Ring links head nodes)
    (same : ∀ p ∈ head :: nodes, after p = links p) : Ring after head nodes := by
  refine ⟨ring.nodup, ring.chain_of fun a aIn b bIn joined => ?_⟩
  rwa [Joined, same a aIn, same b bIn]

theorem Ring.prev_of_split {links : Links P} {head : P} (front back : List P)
    (ring : Ring links head (front ++ back)) :
    (links (back.headD head)).prev = (head :: front).getLast (by simp) :=
  (ring.arcs front back).2.2.2

theorem sides_mem (head : P) (front back : List P) :
    (head :: front).getLast (by simp) ∈ head :: (front ++ back) ∧
      back.headD head ∈ head :: (front ++ back) := by
  constructor
  · have inside := List.getLast_mem (by simp : head :: front ≠ [])
    rcases List.mem_cons.mp inside with same | inside
    · rw [same]; simp
    · exact List.mem_cons_of_mem _ (List.mem_append_left _ inside)
  · cases back <;> simp

theorem arcs_transfer {links : Links P} (after : Links P) {head : P} {front back : List P}
    (nodup : (head :: (front ++ back)).Nodup)
    (first : (head :: front).IsChain (Joined links))
    (second : (back ++ [head]).IsChain (Joined links))
    (nexts : ∀ a ∈ head :: (front ++ back), a ≠ (head :: front).getLast (by simp) →
      (after a).next = (links a).next)
    (prevs : ∀ b ∈ head :: (front ++ back), b ≠ back.headD head →
      (after b).prev = (links b).prev) :
    (head :: front).IsChain (Joined after) ∧ (back ++ [head]).IsChain (Joined after) := by
  obtain ⟨headFresh, nodup⟩ := List.nodup_cons.mp nodup
  obtain ⟨frontNodup, backNodup, apart⟩ := List.nodup_append.mp nodup
  have frontWhole : (head :: front).Nodup :=
    List.nodup_cons.mpr ⟨fun inside => headFresh (by simp [inside]), frontNodup⟩
  have lastIn := List.getLast_mem (by simp : head :: front ≠ [])
  constructor
  · refine isChain_transfer _ first ?_
    intro a ha b hb joined
    have aIn : a ∈ head :: front := List.dropLast_subset _ ha
    have bIn : b ∈ front := hb
    have aLast : a ≠ (head :: front).getLast (by simp) := by
      intro same
      have whole := frontWhole
      rw [← List.dropLast_append_getLast (by simp : head :: front ≠ [])] at whole
      exact (List.nodup_append.mp whole).2.2 a ha _ (by simp) same
    have bFirst : b ≠ back.headD head := by
      rintro rfl
      cases back with
      | nil => exact headFresh (by simpa using bIn)
      | cons x back => exact apart x bIn x (by simp) rfl
    refine ⟨(nexts a ?_ aLast).trans joined.1, (prevs b ?_ bFirst).trans joined.2⟩
    · rcases List.mem_cons.mp aIn with rfl | inside <;> simp [*]
    · simp [bIn]
  · refine isChain_transfer _ second ?_
    intro a ha b hb joined
    have aIn : a ∈ back := by simpa using ha
    have aLast : a ≠ (head :: front).getLast (by simp) := by
      intro same
      rw [← same] at lastIn
      rcases List.mem_cons.mp lastIn with rfl | inside
      · exact headFresh (by simp [aIn])
      · exact apart a inside a aIn rfl
    have bFirst : b ≠ back.headD head := by
      cases back with
      | nil => simp at hb
      | cons x back =>
        rintro rfl
        simp only [List.cons_append, List.tail_cons, List.mem_append, List.mem_singleton] at hb
        rcases hb with inside | rfl
        · exact (List.nodup_cons.mp backNodup).1 inside
        · exact headFresh (by simp)
    refine ⟨(nexts a (by simp [aIn]) aLast).trans joined.1, (prevs b ?_ bFirst).trans joined.2⟩
    have := List.mem_of_mem_tail hb
    simp only [List.mem_append, List.mem_singleton] at this
    rcases this with inside | rfl <;> simp [*]

section Operations

variable [DecidableEq P]

theorem Ring.init (links : Links P) (list : P) : Ring (initListHead links list) list [] := by
  refine ⟨by simp, ?_⟩
  simp [initListHead, Joined]

theorem Ring.listAddTail {links : Links P} {head new : P} {front back : List P}
    (ring : Ring links head (front ++ back)) (fresh : new ∉ head :: (front ++ back)) :
    Ring (listAddTail links new (back.headD head)) head (front ++ new :: back) := by
  obtain ⟨first, second, -, before⟩ := ring.arcs front back
  obtain ⟨lastIn, firstIn⟩ := sides_mem head front back
  have other (x : P) (inside : x ∈ head :: (front ++ back)) : x ≠ new :=
    fun same => fresh (same ▸ inside)
  obtain ⟨left, right⟩ := arcs_transfer
    (LinkedList.listAddTail links new (back.headD head)) ring.nodup first second
    (fun a inside last => by rw [listAddTail_next, before, if_neg last, if_neg (other a inside)])
    (fun b inside start => by rw [listAddTail_prev, if_neg (other b inside), if_neg start])
  have joinLeft : Joined (LinkedList.listAddTail links new (back.headD head))
      ((head :: front).getLast (by simp)) new := by
    refine ⟨?_, ?_⟩
    · rw [listAddTail_next, before, if_pos rfl]
    · rw [listAddTail_prev, if_pos rfl, before]
  have joinRight : Joined (LinkedList.listAddTail links new (back.headD head)) new
      (back.headD head) := by
    refine ⟨?_, ?_⟩
    · rw [listAddTail_next, before, if_neg (other _ lastIn).symm, if_pos rfl]
    · rw [listAddTail_prev, if_neg (other _ firstIn), if_pos rfl]
  refine Ring.of_arcs ?_ left ?_ (by simpa using joinLeft)
  · have nodup := ring.nodup
    rw [show head :: (front ++ new :: back) = (head :: front) ++ new :: back by simp,
      List.nodup_middle]
    exact List.nodup_cons.mpr ⟨by simpa using fresh, by simpa using nodup⟩
  · cases back with
    | nil => simpa using joinRight
    | cons x back =>
      rw [List.cons_append, List.cons_append, List.isChain_cons_cons]
      exact ⟨by simpa using joinRight, by simpa using right⟩

theorem Ring.listDel {links : Links P} {head entry : P} {front back : List P}
    (ring : Ring links head (front ++ entry :: back)) (poison₁ poison₂ : P) :
    Ring (listDel poison₁ poison₂ links entry) head (front ++ back) := by
  obtain ⟨first, -, -, before⟩ := ring.arcs front (entry :: back)
  have arcs := Ring.arcs (front ++ [entry]) back (by simpa using ring)
  have second := arcs.2.1
  have next : (links entry).next = back.headD head := ring.next_of_split front
  simp only [List.headD_cons] at before
  have whole := ring.nodup
  rw [show head :: (front ++ entry :: back) = (head :: front) ++ entry :: back by simp,
    List.nodup_middle] at whole
  obtain ⟨fresh, nodup⟩ := List.nodup_cons.mp whole
  simp only [List.cons_append] at fresh nodup
  have other (x : P) (inside : x ∈ head :: (front ++ back)) : x ≠ entry :=
    fun same => fresh (same ▸ inside)
  obtain ⟨lastIn, firstIn⟩ := sides_mem head front back
  obtain ⟨left, right⟩ := arcs_transfer
    (LinkedList.listDel poison₁ poison₂ links entry) nodup first second
    (fun a inside last => by
      rw [listDel_next, if_neg (other a inside), before, if_neg last])
    (fun b inside start => by
      rw [listDel_prev, if_neg (other b inside), next, if_neg start])
  refine Ring.of_arcs nodup left right ⟨?_, ?_⟩
  · rw [listDel_next, if_neg (other _ lastIn), before, if_pos rfl, next]
  · rw [listDel_prev, if_neg (other _ firstIn), next, if_pos rfl, before]

end Operations

end BTServer.LinkedList
