import BTServer.Bencode.Ownership
import BTServer.Bencode.Pointer

set_option autoImplicit false

namespace BTServer.Bencode

def BValue.tag : BValue → Pointer.Tag
  | .string _ => .string
  | .int _ => .int
  | .list _ => .list
  | .dict _ => .dict

def BValue.node : BValue → Nat
  | .string s => s.node
  | .int i => i.node
  | .list l => l.node
  | .dict d => d.node

def BValue.cell (prev : Option Nat) : BValue → Pointer.Cell
  | .string s => .string prev s.head s.head s.len
  | .int i => .int prev i.val
  | .list _ => .list prev
  | .dict _ => .dict prev

@[simp] theorem node_string (s : BString) : (BValue.string s).node = s.node := rfl
@[simp] theorem node_int (i : BInt) : (BValue.int i).node = i.node := rfl
@[simp] theorem node_list (l : BList) : (BValue.list l).node = l.node := rfl
@[simp] theorem node_dict (d : BDict) : (BValue.dict d).node = d.node := rfl

namespace Pointer

open CString LinkedList Outcome Cells

def StoredString (m : Mem) (prev : Option Nat) (s : BString) : Prop :=
  m.cells s.node = some (.string prev s.head s.head s.len) ∧
    ∀ head ∈ s.head, m.cells head = some (.chars (s.data ++ [0]))

mutual
/-- The blocks of the tree, pointing to each other as the tree says. -/
def Stored (m : Mem) (prev : Option Nat) : BValue → Prop
  | .string s => StoredString m prev s
  | .int i => m.cells i.node = some (.int prev i.val)
  | .list ⟨node, entries⟩ =>
    m.cells node = some (.list prev) ∧ Ring m.links node (entries.map LEntry.node) ∧
      StoredItems m entries
  | .dict ⟨node, entries⟩ =>
    m.cells node = some (.dict prev) ∧ Ring m.links node (entries.map DEntry.node) ∧
      StoredEntries m entries

def StoredItems (m : Mem) : List (LEntry BValue) → Prop
  | [] => True
  | ⟨node, entry⟩ :: rest =>
    m.cells node = some (.lEntry (some entry.node) entry.tag) ∧ Stored m (some node) entry ∧
      StoredItems m rest

def StoredEntries (m : Mem) : List (DEntry BValue) → Prop
  | [] => True
  | ⟨node, key, val⟩ :: rest => StoredVal m node key val ∧ StoredEntries m rest

def StoredVal (m : Mem) (node : Nat) (key : Bytes) : Option BValue → Prop
  | none => ∃ type, m.cells node = some (.dEntry key none type)
  | some v => m.cells node = some (.dEntry key (some v.node) v.tag) ∧ Stored m (some node) v
end

def Same (blocks : List Nat) (m m' : Mem) : Prop :=
  ∀ a ∈ blocks, m'.cells a = m.cells a ∧ m'.links a = m.links a

theorem Same.mono {xs ys : List Nat} {m m' : Mem} (same : Same ys m m') (sub : xs ⊆ ys) :
    Same xs m m' := fun a member => same a (sub member)

theorem node_mem_free (v : BValue) : v.node ∈ v.free := by
  cases v with
  | string s => simp [BValue.node, BValue.free, Bencode.bStringFree]
  | int i => simp [BValue.node, BValue.free, Bencode.bIntFree]
  | list l => simp [BValue.node, BValue.free]
  | dict d => simp [BValue.node, BValue.free]

theorem item_nodes_sub (es : List (LEntry BValue)) : es.map LEntry.node ⊆ lEntriesFree es := by
  induction es with
  | nil => simp
  | cons e es ih =>
    intro a member
    rcases List.mem_cons.mp member with rfl | later
    · simp [lEntriesFree]
    · simp [lEntriesFree, ih later]

theorem entry_nodes_sub (es : List (DEntry BValue)) : es.map DEntry.node ⊆ dEntriesFree es := by
  induction es with
  | nil => simp
  | cons e es ih =>
    intro a member
    rcases List.mem_cons.mp member with rfl | later
    · simp [dEntriesFree]
    · simp [dEntriesFree, ih later]

theorem item_free_sub {es : List (LEntry BValue)} {e : LEntry BValue} (here : e ∈ es) :
    e.entry.free ⊆ lEntriesFree es := by
  obtain ⟨front, back, rfl⟩ := List.append_of_mem here
  intro a member
  simp [lEntriesFree_append, lEntriesFree, member]

theorem entry_free_sub {es : List (DEntry BValue)} {e : DEntry BValue} (here : e ∈ es) :
    valFree e.val ⊆ dEntriesFree es := by
  obtain ⟨front, back, rfl⟩ := List.append_of_mem here
  intro a member
  simp [dEntriesFree_append, dEntriesFree, member]

theorem ring_congr {m m' : Mem} {node : Nat} {nodes blocks : List Nat}
    (ring : Ring m.links node nodes) (sub : nodes ⊆ blocks) (same : Same (blocks ++ [node]) m m') :
    Ring m'.links node nodes := by
  apply ring.congr
  intro p member
  apply (same p _).2
  rcases List.mem_cons.mp member with rfl | inside
  · simp
  · simp [sub inside]

theorem storedString_congr {m m' : Mem} {prev : Option Nat} {s : BString}
    (same : Same (Bencode.bStringFree s) m m') (stored : StoredString m prev s) :
    StoredString m' prev s := by
  refine ⟨?_, fun head member => ?_⟩
  · rw [(same s.node (by simp [Bencode.bStringFree])).1]
    exact stored.1
  · rw [(same head (by simp [Bencode.bStringFree, Option.mem_def.mp member])).1]
    exact stored.2 head member

mutual
theorem stored_congr {m m' : Mem} {prev : Option Nat} (v : BValue) (same : Same v.free m m')
    (stored : Stored m prev v) : Stored m' prev v := by
  match v with
  | .string s =>
    simp only [Stored] at stored ⊢
    exact storedString_congr same stored
  | .int i =>
    simp only [Stored] at stored ⊢
    rw [(same i.node (node_mem_free (.int i))).1]
    exact stored
  | .list ⟨node, entries⟩ =>
    simp only [Stored, BValue.free] at stored same ⊢
    refine ⟨?_, ring_congr stored.2.1 (item_nodes_sub entries) same, ?_⟩
    · rw [(same node (by simp)).1]
      exact stored.1
    · have inside := same.mono (List.subset_append_left _ _)
      exact storedItems_congr entries (fun a member => (inside a member).1)
        (fun e here a member => (inside a (item_free_sub here member)).2) stored.2.2
  | .dict ⟨node, entries⟩ =>
    simp only [Stored, BValue.free] at stored same ⊢
    refine ⟨?_, ring_congr stored.2.1 (entry_nodes_sub entries) same, ?_⟩
    · rw [(same node (by simp)).1]
      exact stored.1
    · have inside := same.mono (List.subset_append_left _ _)
      exact storedEntries_congr entries (fun a member => (inside a member).1)
        (fun e here a member => (inside a (entry_free_sub here member)).2) stored.2.2

theorem storedItems_congr {m m' : Mem} (es : List (LEntry BValue))
    (cells : ∀ a ∈ lEntriesFree es, m'.cells a = m.cells a)
    (links : ∀ e ∈ es, ∀ a ∈ e.entry.free, m'.links a = m.links a) (stored : StoredItems m es) :
    StoredItems m' es := by
  match es with
  | [] => simp [StoredItems]
  | ⟨node, entry⟩ :: rest =>
    simp only [StoredItems, lEntriesFree, List.mem_append] at stored cells ⊢
    refine ⟨?_, stored_congr entry (fun a member => ?_) stored.2.1, ?_⟩
    · rw [cells node (by simp)]
      exact stored.1
    · exact ⟨cells a (by simp [member]), links _ List.mem_cons_self a member⟩
    · exact storedItems_congr rest (fun a member => cells a (by simp [member]))
        (fun e here => links e (List.mem_cons_of_mem _ here)) stored.2.2

theorem storedEntries_congr {m m' : Mem} (es : List (DEntry BValue))
    (cells : ∀ a ∈ dEntriesFree es, m'.cells a = m.cells a)
    (links : ∀ e ∈ es, ∀ a ∈ valFree e.val, m'.links a = m.links a) (stored : StoredEntries m es) :
    StoredEntries m' es := by
  match es with
  | [] => simp [StoredEntries]
  | ⟨node, key, val⟩ :: rest =>
    simp only [StoredEntries, dEntriesFree, List.mem_append] at stored cells ⊢
    refine ⟨storedVal_congr val (fun a member => cells a (.inl (List.mem_append.mp member)))
      (links _ List.mem_cons_self) stored.1, ?_⟩
    exact storedEntries_congr rest (fun a member => cells a (by simp [member]))
      (fun e here => links e (List.mem_cons_of_mem _ here)) stored.2

theorem storedVal_congr {m m' : Mem} {node : Nat} {key : Bytes} (val : Option BValue)
    (cells : ∀ a ∈ valFree val ++ [node], m'.cells a = m.cells a)
    (links : ∀ a ∈ valFree val, m'.links a = m.links a) (stored : StoredVal m node key val) :
    StoredVal m' node key val := by
  match val with
  | none =>
    simp only [StoredVal] at stored ⊢
    rw [cells node (by simp)]
    exact stored
  | some v =>
    simp only [StoredVal] at stored ⊢
    rw [cells node (by simp)]
    exact ⟨stored.1, stored_congr v
      (fun a member => ⟨cells a (List.mem_append_left _ member), links a member⟩) stored.2⟩
end

theorem stored_cell {m : Mem} {prev : Option Nat} {v : BValue} (stored : Stored m prev v) :
    m.cells v.node = some (v.cell prev) := by
  cases v with
  | string s =>
    simp only [Stored] at stored
    exact stored.1
  | int i =>
    simp only [Stored] at stored
    exact stored
  | list l =>
    simp only [Stored] at stored
    exact stored.1
  | dict d =>
    simp only [Stored] at stored
    exact stored.1

theorem setEntry_stored {m : Mem} {prev : Option Nat} {v : BValue} (stored : Stored m prev v)
    (entry : Nat) :
    setEntry m v.tag v.node entry = .done () (m.set v.node (v.cell (some entry))) := by
  have cell := stored_cell stored
  cases v <;> simp_all [setEntry, BValue.tag, BValue.cell]

theorem stored_set {m : Mem} {prev : Option Nat} {v : BValue} (stored : Stored m prev v)
    (nodup : v.free.Nodup) (prev' : Option Nat) :
    Stored (m.set v.node (v.cell prev')) prev' v := by
  have here : (m.set v.node (v.cell prev')).cells v.node = some (v.cell prev') := by simp [Mem.set]
  have others {a : Nat} (other : a ≠ v.node) :
      (m.set v.node (v.cell prev')).cells a = m.cells a := by simp [Mem.set, other]
  cases v with
  | string s =>
    simp only [Stored] at stored ⊢
    refine ⟨here, fun head member => ?_⟩
    rw [others]
    · exact stored.2 head member
    · rintro rfl
      simp [BValue.free, Bencode.bStringFree, Option.mem_def.mp member, BValue.node] at nodup
  | int i =>
    simp only [Stored]
    exact here
  | list l =>
    simp only [Stored, BValue.free] at stored nodup ⊢
    have apart := (List.nodup_append.mp nodup).2.2
    refine ⟨here, stored.2.1, storedItems_congr _ (fun a member => others ?_) (fun _ _ _ _ => rfl)
      stored.2.2⟩
    exact apart a member _ (by simp [BValue.node])
  | dict d =>
    simp only [Stored, BValue.free] at stored nodup ⊢
    have apart := (List.nodup_append.mp nodup).2.2
    refine ⟨here, stored.2.1, storedEntries_congr _ (fun a member => others ?_)
      (fun _ _ _ _ => rfl) stored.2.2⟩
    exact apart a member _ (by simp [BValue.node])

def Mem.erase (m : Mem) (blocks : List Nat) : Mem :=
  { m with toSt := m.toSt.free blocks, cells := Cells.erase m.cells blocks }

@[simp] theorem erase_toSt (m : Mem) (blocks : List Nat) :
    (m.erase blocks).toSt = m.toSt.free blocks := rfl

@[simp] theorem erase_links (m : Mem) (blocks : List Nat) : (m.erase blocks).links = m.links := rfl

@[simp] theorem erase_cells (m : Mem) (blocks : List Nat) :
    (m.erase blocks).cells = Cells.erase m.cells blocks := rfl

theorem erase_nil (m : Mem) : m.erase [] = m := by
  simp [Mem.erase, St.free, Cells.erase_nil]

theorem erase_erase (m : Mem) (xs ys : List Nat) : (m.erase xs).erase ys = m.erase (xs ++ ys) := by
  simp [Mem.erase, St.free, Cells.erase_erase]

theorem free_live {m : Mem} {a : Nat} (live : m.Live a) : m.free a = .done () (m.erase [a]) := by
  rw [Mem.free, if_pos live, Mem.erase, Cells.update_none]

theorem erase_live {m : Mem} {a : Nat} {blocks : List Nat} (live : m.Live a) (other : a ∉ blocks) :
    (m.erase blocks).Live a := by
  rw [Mem.Live, erase_cells, Cells.erase_other other]
  exact live

theorem same_erase {m m' : Mem} {blocks others : List Nat} (same : Same blocks m m')
    (apart : ∀ a ∈ blocks, a ∉ others) : Same blocks m (m'.erase others) := by
  intro a member
  refine ⟨?_, (same a member).2⟩
  rw [erase_cells, Cells.erase_other (apart a member)]
  exact (same a member).1

section Release

theorem entriesFree_all (entryFree : Mem → Nat → Outcome Mem Unit) (m : Mem) (head : Nat)
    (front : List Nat) (es : List (Nat × List Nat)) (fuel : Nat) (enough : es.length < fuel)
    (ring : Ring m.links head (front ++ es.map Prod.fst)) (live : m.Live head)
    (outside : head ∉ es.flatMap Prod.snd) (nodup : (es.flatMap Prod.snd).Nodup)
    (own : ∀ e ∈ es, e.1 ∈ e.2 ∧ m.Live e.1)
    (frees : ∀ e ∈ es, ∀ m', Same e.2 m m' → entryFree m' e.1 = .done () (m'.erase e.2)) :
    entriesFree entryFree fuel m head ((es.map Prod.fst).headD head)
        (m.links ((es.map Prod.fst).headD head)).next =
      .done () (m.erase (es.flatMap Prod.snd)) := by
  induction es generalizing m front fuel with
  | nil =>
    obtain ⟨fuel, rfl⟩ : ∃ n, fuel = n + 1 := ⟨fuel - 1, by simp at enough; omega⟩
    simp [entriesFree, erase_nil]
  | cons e es ih =>
    obtain ⟨fuel, rfl⟩ : ∃ n, fuel = n + 1 := ⟨fuel - 1, by simp at enough; omega⟩
    simp only [List.flatMap_cons, List.nodup_append] at nodup outside ⊢
    have other : e.1 ≠ head := by
      rintro rfl
      exact outside (List.mem_append_left _ (own e List.mem_cons_self).1)
    have following : (m.links e.1).next = (es.map Prod.fst).headD head :=
      Ring.next_of_split front (by simpa using ring)
    -- The entry after the one that is freed is still there, or the loop is back at the head.
    have there : (m.erase e.2).Live ((es.map Prod.fst).headD head) := by
      cases es with
      | nil => exact erase_live live fun member => outside (List.mem_append_left _ member)
      | cons e' es =>
        obtain ⟨inside, alive⟩ := own e' (by simp)
        refine erase_live alive fun member => ?_
        exact nodup.2.2 e'.1 member e'.1 (by simp [inside]) rfl
    rw [List.map_cons, List.headD_cons, entriesFree, if_neg other,
      frees e List.mem_cons_self m fun _ _ => ⟨rfl, rfl⟩, done_andThen, following, Mem.next,
      if_pos there, done_andThen, erase_links, ← erase_erase]
    refine ih (m.erase e.2) (front ++ [e.1]) fuel (by simpa using enough) (by simpa using ring) ?_ ?_
      nodup.2.1 ?_ ?_
    · exact erase_live live fun member => outside (List.mem_append_left _ member)
    · exact fun member => outside (List.mem_append_right _ member)
    · intro e' member
      obtain ⟨inside, alive⟩ := own e' (List.mem_cons_of_mem _ member)
      refine ⟨inside, erase_live alive fun before => ?_⟩
      exact nodup.2.2 e'.1 before e'.1 (List.mem_flatMap.mpr ⟨e', member, inside⟩) rfl
    · intro e' member m' same
      refine frees e' (List.mem_cons_of_mem _ member) m' fun a inside => ?_
      have apart : a ∉ e.2 := fun before =>
        nodup.2.2 a before a (List.mem_flatMap.mpr ⟨e', member, inside⟩) rfl
      have kept := same a inside
      rwa [erase_cells, Cells.erase_other apart] at kept

theorem bStringFree_stored {m : Mem} {prev : Option Nat} {s : BString}
    (stored : StoredString m prev s) (nodup : (Bencode.bStringFree s).Nodup) :
    bStringFree m (some s.node) = .done () (m.erase (Bencode.bStringFree s)) := by
  obtain ⟨cell, chars⟩ := stored
  have live : m.Live s.node := by simp [Mem.Live, cell]
  cases head : s.head with
  | none =>
    rw [head] at cell
    simp only [bStringFree, cell]
    rw [free_live live, Bencode.bStringFree, head]
    rfl
  | some a =>
    rw [head] at cell
    have there : m.Live a := by simp [Mem.Live, chars a head]
    have other : s.node ∉ [a] := by
      simp only [Bencode.bStringFree, head] at nodup
      simp only [Option.toList_some, List.singleton_append, List.nodup_cons, List.mem_singleton]
        at nodup ⊢
      exact fun same => nodup.1 same.symm
    simp only [bStringFree, cell]
    rw [free_live there, done_andThen, free_live (erase_live live other), erase_erase,
      Bencode.bStringFree, head]
    rfl

theorem lEntryFree_stored {m : Mem} {node : Nat} {entry : BValue} {fuel : Nat}
    (cell : m.cells node = some (.lEntry (some entry.node) entry.tag))
    (nodup : (entry.free ++ [node]).Nodup)
    (frees : release fuel entry.tag m (some entry.node) = .done () (m.erase entry.free)) :
    lEntryFree (release fuel) m node = .done () (m.erase (entry.free ++ [node])) := by
  have other : node ∉ entry.free := fun member =>
    (List.nodup_append.mp nodup).2.2 node member node (by simp) rfl
  have live : m.Live node := by simp [Mem.Live, cell]
  simp only [lEntryFree, cell]
  rw [frees, done_andThen, free_live (erase_live live other), erase_erase]

theorem dEntryFree_stored {m : Mem} {node : Nat} {key : Bytes} {val : Option BValue} {fuel : Nat}
    (stored : StoredVal m node key val) (nodup : (valFree val ++ [node]).Nodup)
    (frees : ∀ v ∈ val, release fuel v.tag m (some v.node) = .done () (m.erase v.free)) :
    dEntryFree (release fuel) m node = .done () (m.erase (valFree val ++ [node])) := by
  have other : node ∉ valFree val := fun member =>
    (List.nodup_append.mp nodup).2.2 node member node (by simp) rfl
  cases val with
  | none =>
    simp only [StoredVal] at stored
    obtain ⟨type, cell⟩ := stored
    have live : m.Live node := by simp [Mem.Live, cell]
    have nothing : release fuel type m none = .done () m := by
      cases type <;> simp [release, bStringFree, bIntFree]
    simp only [dEntryFree, cell]
    rw [nothing, done_andThen, free_live live, valFree, List.nil_append]
  | some v =>
    simp only [StoredVal] at stored
    obtain ⟨cell, -⟩ := stored
    have live : m.Live node := by simp [Mem.Live, cell]
    simp only [dEntryFree, cell]
    rw [frees v rfl, done_andThen]
    exact (free_live (erase_live live other)).trans (congrArg _ (erase_erase m v.free [node]))

theorem lEntriesFree_flatMap (es : List (LEntry BValue)) :
    lEntriesFree es = (es.map fun e => (e.node, e.entry.free ++ [e.node])).flatMap Prod.snd := by
  induction es with
  | nil => rfl
  | cons e es ih => simp [lEntriesFree, ih]

theorem dEntriesFree_flatMap (es : List (DEntry BValue)) :
    dEntriesFree es = (es.map fun e => (e.node, valFree e.val ++ [e.node])).flatMap Prod.snd := by
  induction es with
  | nil => rfl
  | cons e es ih => simp [dEntriesFree, ih]

theorem length_le_flatMap (es : List (Nat × List Nat)) (own : ∀ e ∈ es, e.1 ∈ e.2) :
    es.length ≤ (es.flatMap Prod.snd).length := by
  induction es with
  | nil => simp
  | cons e es ih =>
    have here := List.length_pos_of_mem (own e (by simp))
    have later := ih fun e' member => own e' (List.mem_cons_of_mem _ member)
    simp only [List.flatMap_cons, List.length_append, List.length_cons]
    omega

theorem allFree_stored (entryFree : Mem → Nat → Outcome Mem Unit) (m : Mem) (head : Nat)
    (es : List (Nat × List Nat)) (fuel : Nat) (enough : (es.flatMap Prod.snd).length < fuel)
    (ring : Ring m.links head (es.map Prod.fst)) (live : m.Live head)
    (nodup : (es.flatMap Prod.snd ++ [head]).Nodup) (own : ∀ e ∈ es, e.1 ∈ e.2 ∧ m.Live e.1)
    (frees : ∀ e ∈ es, ∀ m', Same e.2 m m' → entryFree m' e.1 = .done () (m'.erase e.2)) :
    allFree entryFree fuel m head = .done () (m.erase (es.flatMap Prod.snd ++ [head])) := by
  obtain ⟨apart, -, outside⟩ := List.nodup_append.mp nodup
  have fresh : head ∉ es.flatMap Prod.snd := fun member => outside head member head (by simp) rfl
  have first : m.Live ((es.map Prod.fst).headD head) := by
    cases es with
    | nil => exact live
    | cons e es => exact (own e (by simp)).2
  have short := length_le_flatMap es fun e member => (own e member).1
  have loop := entriesFree_all entryFree m head [] es fuel (by omega) ring live fresh apart own frees
  rw [allFree, Mem.next, if_pos live, done_andThen, ring.next_head, Mem.next, if_pos first,
    done_andThen, loop, done_andThen, free_live (erase_live live fresh), erase_erase]

theorem StoredVal.live {m : Mem} {node : Nat} {key : Bytes} {val : Option BValue}
    (stored : StoredVal m node key val) : m.Live node := by
  cases val with
  | none =>
    simp only [StoredVal] at stored
    obtain ⟨type, cell⟩ := stored
    simp [Mem.Live, cell]
  | some v =>
    simp only [StoredVal] at stored
    simp [Mem.Live, stored.1]

mutual
theorem release_stored {m : Mem} {prev : Option Nat} {fuel : Nat} (v : BValue)
    (stored : Stored m prev v) (nodup : v.free.Nodup) (enough : v.free.length < fuel) :
    release fuel v.tag m (some v.node) = .done () (m.erase v.free) := by
  match v with
  | .string s =>
    simp only [Stored] at stored
    simp only [BValue.tag, BValue.node, release]
    exact bStringFree_stored stored nodup
  | .int i =>
    simp only [Stored] at stored
    simp only [BValue.tag, BValue.node, release, bIntFree]
    exact free_live (by simp [Mem.Live, stored])
  | .list ⟨node, entries⟩ =>
    obtain ⟨fuel, rfl⟩ : ∃ n, fuel = n + 1 := ⟨fuel - 1, by omega⟩
    simp only [Stored, BValue.free] at stored nodup enough ⊢
    obtain ⟨cell, ring, items⟩ := stored
    simp only [List.length_append, List.length_singleton, Nat.add_lt_add_iff_right] at enough
    have each := release_items entries items (List.nodup_append.mp nodup).1 enough
    rw [lEntriesFree_flatMap] at nodup enough ⊢
    refine allFree_stored _ m node _ fuel enough (by simpa [Function.comp_def] using ring)
      (by simp [Mem.Live, cell]) nodup ?_ ?_
    · rintro _ member
      obtain ⟨e, inside, rfl⟩ := List.mem_map.mp member
      exact ⟨by simp, (each e inside).1⟩
    · rintro _ member
      obtain ⟨e, inside, rfl⟩ := List.mem_map.mp member
      exact (each e inside).2
  | .dict ⟨node, entries⟩ =>
    obtain ⟨fuel, rfl⟩ : ∃ n, fuel = n + 1 := ⟨fuel - 1, by omega⟩
    simp only [Stored, BValue.free] at stored nodup enough ⊢
    obtain ⟨cell, ring, items⟩ := stored
    simp only [List.length_append, List.length_singleton, Nat.add_lt_add_iff_right] at enough
    have each := release_entries entries items (List.nodup_append.mp nodup).1 enough
    rw [dEntriesFree_flatMap] at nodup enough ⊢
    refine allFree_stored _ m node _ fuel enough (by simpa [Function.comp_def] using ring)
      (by simp [Mem.Live, cell]) nodup ?_ ?_
    · rintro _ member
      obtain ⟨e, inside, rfl⟩ := List.mem_map.mp member
      exact ⟨by simp, (each e inside).1⟩
    · rintro _ member
      obtain ⟨e, inside, rfl⟩ := List.mem_map.mp member
      exact (each e inside).2

theorem release_items {m : Mem} {fuel : Nat} (es : List (LEntry BValue))
    (stored : StoredItems m es) (nodup : (lEntriesFree es).Nodup)
    (enough : (lEntriesFree es).length < fuel) :
    ∀ e ∈ es, m.Live e.node ∧ ∀ m', Same (e.entry.free ++ [e.node]) m m' →
      lEntryFree (release fuel) m' e.node = .done () (m'.erase (e.entry.free ++ [e.node])) := by
  match es with
  | [] => simp
  | ⟨node, entry⟩ :: rest =>
    simp only [StoredItems, lEntriesFree, List.length_append] at stored nodup enough
    obtain ⟨cell, value, others⟩ := stored
    obtain ⟨here, later, -⟩ := List.nodup_append.mp nodup
    intro e member
    rcases List.mem_cons.mp member with rfl | member
    · refine ⟨by simp [Mem.Live, cell], fun m' same => ?_⟩
      have cell' : m'.cells node = some (.lEntry (some entry.node) entry.tag) := by
        rw [(same node (by simp)).1]
        exact cell
      have value' := stored_congr entry (same.mono (List.subset_append_left _ _)) value
      exact lEntryFree_stored cell' here
        (release_stored entry value' (List.nodup_append.mp here).1 (by omega))
    · exact release_items rest others later (by omega) e member

theorem release_entries {m : Mem} {fuel : Nat} (es : List (DEntry BValue))
    (stored : StoredEntries m es) (nodup : (dEntriesFree es).Nodup)
    (enough : (dEntriesFree es).length < fuel) :
    ∀ e ∈ es, m.Live e.node ∧ ∀ m', Same (valFree e.val ++ [e.node]) m m' →
      dEntryFree (release fuel) m' e.node = .done () (m'.erase (valFree e.val ++ [e.node])) := by
  match es with
  | [] => simp
  | ⟨node, key, val⟩ :: rest =>
    simp only [StoredEntries, dEntriesFree, List.length_append] at stored nodup enough
    obtain ⟨here, later, -⟩ := List.nodup_append.mp nodup
    intro e member
    rcases List.mem_cons.mp member with rfl | member
    · refine ⟨stored.1.live, fun m' same => ?_⟩
      have stored' := storedVal_congr val (fun a member => (same a member).1)
        (fun a member => (same a (List.mem_append_left _ member)).2) stored.1
      exact dEntryFree_stored stored' here
        (release_val val stored' (List.nodup_append.mp here).1 (by omega))
    · exact release_entries rest stored.2 later (by omega) e member

theorem release_val {m : Mem} {fuel node : Nat} {key : Bytes} (val : Option BValue)
    (stored : StoredVal m node key val) (nodup : (valFree val).Nodup)
    (enough : (valFree val).length < fuel) :
    ∀ v ∈ val, release fuel v.tag m (some v.node) = .done () (m.erase v.free) := by
  match val with
  | none => simp
  | some v =>
    intro u same
    obtain rfl := Option.some.inj same
    simp only [StoredVal] at stored
    exact release_stored v stored.2 nodup enough
end

end Release

end Pointer

end BTServer.Bencode
