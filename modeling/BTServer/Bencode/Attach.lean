import BTServer.Bencode.Messages
import BTServer.Bencode.Shape
import BTServer.Shared.Rings

set_option autoImplicit false

namespace BTServer.Bencode.Pointer

open CString LinkedList Outcome Cells

structure Mem.Tidy (m : Mem) : Prop where
  beyond : ∀ a, m.mallocs ≤ a → m.cells a = none
  old : ∀ a ∈ m.freed, a < m.mallocs
  dead : ∀ a ∈ m.freed, m.cells a = none

structure Kept (mark : Nat) (m m' : Mem) : Prop where
  more : m.mallocs ≤ m'.mallocs
  cells : ∀ a, a < mark → m'.cells a = m.cells a
  links : ∀ a, a < mark → m'.links a = m.links a

-- A tree that is being built. Its own block is its oldest one.
structure Target (prev : Option Nat) (m : Mem) (v : BValue) : Prop where
  stored : Stored m prev v
  span : Span v.node m.mallocs v.free
  tidy : m.Tidy

section Kept

variable {mark : Nat} {m m₁ m₂ : Mem} {prev : Option Nat} {v : BValue}

theorem Kept.refl (mark : Nat) (m : Mem) : Kept mark m m :=
  ⟨le_rfl, fun _ _ => rfl, fun _ _ => rfl⟩

theorem Kept.trans (first : Kept mark m m₁) (second : Kept mark m₁ m₂) : Kept mark m m₂ where
  more := first.more.trans second.more
  cells a low := (second.cells a low).trans (first.cells a low)
  links a low := (second.links a low).trans (first.links a low)

theorem Kept.mono {mark' : Nat} (kept : Kept mark m m₁) (lower : mark' ≤ mark) : Kept mark' m m₁ where
  more := kept.more
  cells a low := kept.cells a (by omega)
  links a low := kept.links a (by omega)

theorem Kept.same {lo : Nat} {blocks : List Nat} (kept : Kept mark m m₁)
    (span : Span lo mark blocks) : Same blocks m m₁ :=
  fun a member => ⟨kept.cells a (span.inside a member).2, kept.links a (span.inside a member).2⟩

theorem Target.kept (target : Target prev m v) (kept : Kept m.mallocs m m₁) (tidy : m₁.Tidy) :
    Target prev m₁ v where
  stored := stored_congr v (kept.same target.span) target.stored
  span := target.span.mono le_rfl kept.more
  tidy := tidy

theorem Target.low (target : Target prev m v) : v.node < m.mallocs :=
  (target.span.inside _ (node_mem_free v)).2

end Kept

section Tidy

variable {env : Env} {m m' : Mem}

theorem Mem.Tidy.shrink (tidy : m.Tidy) (mallocs : m'.mallocs = m.mallocs) (freed : m'.freed = m.freed)
    (fewer : ∀ a, m.cells a = none → m'.cells a = none) : m'.Tidy where
  beyond a high := fewer a (tidy.beyond a (mallocs ▸ high))
  old a member := mallocs ▸ tidy.old a (freed ▸ member)
  dead a member := fewer a (tidy.dead a (freed ▸ member))

theorem Mem.Tidy.set (tidy : m.Tidy) {a : Nat} (live : m.Live a) (cell : Cell) : (m.set a cell).Tidy := by
  refine tidy.shrink rfl rfl fun b none => ?_
  have other : b ≠ a := by
    rintro rfl
    simp [Mem.Live, none] at live
  simpa [Mem.set, other] using none

-- The heap with one more block.
def Mem.grown (env : Env) (m : Mem) (cell : Cell) (links : Links Nat) : Mem where
  toSt := m.toSt.malloc env
  cells := Function.update m.cells m.mallocs (some cell)
  links := links

@[simp] theorem Mem.grown_links (env : Env) (m : Mem) (cell : Cell) (links : Links Nat) :
    (m.grown env cell links).links = links := rfl

@[simp] theorem Mem.set_links (m : Mem) (a : Nat) (cell : Cell) : (m.set a cell).links = m.links := rfl

theorem Mem.Tidy.malloc (tidy : m.Tidy) : Mem.Tidy { m with toSt := m.toSt.malloc env } where
  beyond a high := tidy.beyond a (Nat.le_of_succ_le high)
  old a member := Nat.lt_succ_of_lt (tidy.old a member)
  dead := tidy.dead

theorem Mem.Tidy.grown (tidy : m.Tidy) (cell : Cell) (links : Links Nat) :
    (m.grown env cell links).Tidy where
  beyond a high := by
    have high : m.mallocs + 1 ≤ a := high
    have other : a ≠ m.mallocs := by omega
    simpa [Mem.grown, other] using tidy.beyond a (by omega)
  old a member := Nat.lt_succ_of_lt (tidy.old a member)
  dead a member := by
    have low : a < m.mallocs := tidy.old a member
    have other : a ≠ m.mallocs := by omega
    simpa [Mem.grown, other] using tidy.dead a member

theorem Mem.Tidy.erase (tidy : m.Tidy) {lo : Nat} {blocks : List Nat} (span : Span lo m.mallocs blocks) :
    (m.erase blocks).Tidy where
  beyond a high := by
    have gone := tidy.beyond a high
    by_cases member : a ∈ blocks <;> simp [Cells.erase, member, gone]
  old a member := by
    rcases List.mem_append.mp member with before | now
    · exact tidy.old a before
    · exact (span.inside a now).2
  dead a member := by
    rcases List.mem_append.mp member with before | now
    · have gone := tidy.dead a before
      by_cases member : a ∈ blocks <;> simp [Cells.erase, member, gone]
    · exact Cells.erase_mem now

theorem kept_erase {mark lo : Nat} {blocks : List Nat} {hi : Nat} (span : Span lo hi blocks)
    (low : mark ≤ lo) : Kept mark m (m.erase blocks) where
  more := le_rfl
  cells a below := by
    have other : a ∉ blocks := fun member => by
      have := (span.inside a member).1
      omega
    exact Cells.erase_other other
  links _ _ := rfl

end Tidy

section Alloc

structure Starts (env : Env) (alloc : Mem → Option Nat × Mem) (v : Nat → BValue) : Prop where
  fails : ∀ m, env.alloc m.mallocs = false → alloc m = (none, { m with toSt := m.toSt.malloc env })
  gets : ∀ m : Mem, m.Tidy → env.alloc m.mallocs = true → ∃ m₁, alloc m = (some m.mallocs, m₁) ∧
    m₁.toSt = (m.toSt.malloc env) ∧ Kept m.mallocs m m₁ ∧ Target none m₁ (v m.mallocs)

theorem grown_kept (env : Env) (m : Mem) (cell : Cell) (links : Links Nat)
    (others : ∀ a, a < m.mallocs → links a = m.links a) :
    Kept m.mallocs m (m.grown env cell links) where
  more := Nat.le_succ _
  cells a low := by simp [Mem.grown, Nat.ne_of_lt low]
  links := others

theorem initListHead_other {links : Links Nat} {a b : Nat} (other : a ≠ b) :
    LinkedList.initListHead links b a = links a := by
  simp [LinkedList.initListHead, setNext, setPrev, other]

theorem malloc_gets {env : Env} {m : Mem} (cell : Cell) (yes : env.alloc m.mallocs = true) :
    m.malloc env cell = (some m.mallocs, m.grown env cell m.links) := by
  simp [Mem.malloc, yes, Mem.set, Mem.grown]

theorem malloc_fails {env : Env} {m : Mem} (cell : Cell) (no : env.alloc m.mallocs = false) :
    m.malloc env cell = (none, { m with toSt := m.toSt.malloc env }) := by
  simp [Mem.malloc, no]

theorem allocLinked_gets {env : Env} {m : Mem} (cell : Cell) (yes : env.alloc m.mallocs = true) :
    allocLinked env m cell =
      (some m.mallocs, m.grown env cell (LinkedList.initListHead m.links m.mallocs)) := by
  rw [allocLinked, malloc_gets cell yes]
  rfl

theorem allocLinked_fails {env : Env} {m : Mem} (cell : Cell) (no : env.alloc m.mallocs = false) :
    allocLinked env m cell = (none, { m with toSt := m.toSt.malloc env }) := by
  rw [allocLinked, malloc_fails cell no]

theorem malloc_starts (env : Env) (cell : Cell) (v : Nat → BValue)
    (shape : ∀ (m : Mem) node, m.cells node = some cell →
      Stored m none (v node) ∧ (v node).node = node ∧ (v node).free = [node]) :
    Starts env (·.malloc env cell) v where
  fails m no := malloc_fails cell no
  gets m tidy yes := by
    refine ⟨_, malloc_gets cell yes, rfl, grown_kept env m cell _ fun _ _ => rfl, ?_⟩
    obtain ⟨stored, node, free⟩ := shape (m.grown env cell m.links) m.mallocs (by simp [Mem.grown])
    refine ⟨stored, ?_, tidy.grown cell _⟩
    rw [node, free]
    exact .single le_rfl (Nat.lt_succ_self _)

theorem allocLinked_starts (env : Env) (cell : Cell) (v : Nat → BValue)
    (shape : ∀ (m : Mem) node, m.cells node = some cell → Ring m.links node [] →
      Stored m none (v node) ∧ (v node).node = node ∧ (v node).free = [node]) :
    Starts env (allocLinked env · cell) v where
  fails m no := allocLinked_fails cell no
  gets m tidy yes := by
    refine ⟨_, allocLinked_gets cell yes, rfl,
      grown_kept env m cell _ fun a low => initListHead_other (Nat.ne_of_lt low), ?_⟩
    obtain ⟨stored, node, free⟩ := shape (m.grown env cell _) m.mallocs (by simp [Mem.grown])
      (Ring.init m.links m.mallocs)
    refine ⟨stored, ?_, tidy.grown cell _⟩
    rw [node, free]
    exact .single le_rfl (Nat.lt_succ_self _)

theorem bStringAlloc_starts (env : Env) :
    Starts env (bStringAlloc env) fun node => .string (Bencode.bStringAlloc node) := by
  refine malloc_starts env _ _ fun m node cell => ⟨?_, rfl, rfl⟩
  simp only [Stored]
  exact ⟨cell, by simp [Bencode.bStringAlloc]⟩

theorem bIntAlloc_starts (env : Env) :
    Starts env (bIntAlloc env) fun node => .int (Bencode.bIntAlloc node) := by
  refine malloc_starts env _ _ fun m node cell => ⟨?_, rfl, rfl⟩
  simp only [Stored]
  exact cell

theorem bListAlloc_starts (env : Env) :
    Starts env (bListAlloc env) fun node => .list (Bencode.bListAlloc node) := by
  refine allocLinked_starts env _ _ fun m node cell ring => ⟨?_, rfl, rfl⟩
  simp only [Stored, Bencode.bListAlloc]
  exact ⟨cell, ring, by simp [StoredItems]⟩

theorem bDictAlloc_starts (env : Env) :
    Starts env (bDictAlloc env) fun node => .dict (Bencode.bDictAlloc node) := by
  refine allocLinked_starts env _ _ fun m node cell ring => ⟨?_, rfl, rfl⟩
  simp only [Stored, Bencode.bDictAlloc]
  exact ⟨cell, ring, by simp [StoredEntries]⟩

end Alloc

section Attach

-- The heap after a value has got an entry at the end of the ring of `head`.
def attached (env : Env) (m : Mem) (cell : Cell) (v : BValue) (head : Nat) : Mem where
  toSt := m.toSt.malloc env
  cells := Function.update (Function.update m.cells m.mallocs (some cell)) v.node
    (some (v.cell (some m.mallocs)))
  links := LinkedList.listAddTail (LinkedList.initListHead m.links m.mallocs) m.mallocs head

variable {env : Env} {m : Mem} {v : BValue} {head : Nat} {nodes : List Nat}

theorem attached_cells (cell : Cell) {a : Nat} (old : a ≠ m.mallocs) (other : a ≠ v.node) :
    (attached env m cell v head).cells a = m.cells a := by
  simp [attached, old, other]

theorem initListHead_ring (ring : Ring m.links head nodes)
    (low : ∀ a ∈ head :: nodes, a < m.mallocs) :
    Ring (LinkedList.initListHead m.links m.mallocs) head nodes :=
  ring.congr fun a member => initListHead_other (Nat.ne_of_lt (low a member))

theorem attached_ring (cell : Cell) (ring : Ring m.links head nodes)
    (low : ∀ a ∈ head :: nodes, a < m.mallocs) :
    Ring (attached env m cell v head).links head (nodes ++ [m.mallocs]) := by
  have start : Ring (LinkedList.initListHead m.links m.mallocs) head (nodes ++ []) := by
    simpa using initListHead_ring ring low
  refine start.listAddTail fun member => ?_
  simp only [List.append_nil] at member
  exact absurd (low _ member) (Nat.lt_irrefl _)

theorem attached_links (cell : Cell) (ring : Ring m.links head nodes)
    (low : ∀ a ∈ head :: nodes, a < m.mallocs) {a : Nat} (old : a ≠ m.mallocs)
    (outside : a ∉ head :: nodes) : (attached env m cell v head).links a = m.links a :=
  (listAddTail_other (initListHead_ring ring low) outside old).trans (initListHead_other old)

theorem attached_stored (cell : Cell) (value : Target none m v) (ring : Ring m.links head nodes)
    (low : ∀ a ∈ head :: nodes, a < v.node) :
    Stored (attached env m cell v head) (some m.mallocs) v := by
  have below (a : Nat) (member : a ∈ head :: nodes) : a < m.mallocs :=
    (low a member).trans value.low
  have set := stored_set value.stored value.span.nodup (some m.mallocs)
  refine stored_congr v (fun a member => ?_) set
  obtain ⟨lo, hi⟩ := value.span.inside a member
  have old : a ≠ m.mallocs := Nat.ne_of_lt hi
  refine ⟨?_, attached_links cell ring below old fun inside => ?_⟩
  · by_cases same : a = v.node
    · simp [attached, Mem.set, same]
    · simp [attached, Mem.set, same, old]
  · have := low a inside
    omega

theorem attached_tidy (cell : Cell) (value : Target none m v) : (attached env m cell v head).Tidy := by
  have grown : (m.grown env cell m.links).Tidy := value.tidy.grown cell m.links
  have live : (m.grown env cell m.links).Live v.node := by
    simp [Mem.Live, Mem.grown, Nat.ne_of_lt value.low, stored_cell value.stored]
  exact (grown.set live (v.cell (some m.mallocs))).shrink rfl rfl fun _ none => none

theorem attached_kept (cell : Cell) (value : Target none m v) (ring : Ring m.links head nodes)
    (low : ∀ a ∈ head :: nodes, head ≤ a ∧ a < v.node) : Kept head m (attached env m cell v head) where
  more := Nat.le_succ _
  cells a below := by
    have := (low head List.mem_cons_self).2
    have := value.low
    exact attached_cells cell (by omega) (by omega)
  links a below := by
    have := (low head List.mem_cons_self).2
    have := value.low
    refine attached_links cell ring (fun b member => ?_) (by omega) fun member => ?_
    · have := (low b member).2
      omega
    · have := (low a member).1
      omega

/-- The common end of `b_list_add` and `b_dict_add`: it faults if the last entry of the ring is not
there any more. -/
theorem attach_eq (env : Env) (cell : Cell) (value : Target none m v) (ring : Ring m.links head nodes)
    (low : ∀ a ∈ head :: nodes, a < v.node) (live : m.Live head) :
    ∃ m', ((setEntry (m.grown env cell (LinkedList.initListHead m.links m.mallocs)) v.tag v.node
        m.mallocs).andThen fun _ m' => m'.listAddTail m.mallocs head) =
      if m.Live (m.links head).prev then .done () (attached env m cell v head) else .fault m' := by
  have below (a : Nat) (member : a ∈ head :: nodes) : a < m.mallocs :=
    (low a member).trans value.low
  have stored : Stored (m.grown env cell (LinkedList.initListHead m.links m.mallocs)) none v := by
    refine stored_congr v (fun a member => ?_) value.stored
    have old : a ≠ m.mallocs := Nat.ne_of_lt (value.span.inside a member).2
    exact ⟨by simp [Mem.grown, old], initListHead_other old⟩
  rw [setEntry_stored stored, done_andThen]
  have alive {a : Nat} (member : a ∈ head :: nodes) :
      ((m.grown env cell (LinkedList.initListHead m.links m.mallocs)).set v.node
        (v.cell (some m.mallocs))).Live a ↔ m.Live a := by
    simp [Mem.Live, Mem.set, Mem.grown, Nat.ne_of_lt (low a member), Nat.ne_of_lt (below a member)]
  have new : ((m.grown env cell (LinkedList.initListHead m.links m.mallocs)).set v.node
      (v.cell (some m.mallocs))).Live m.mallocs := by
    simp [Mem.Live, Mem.set, Mem.grown, Nat.ne_of_gt value.low]
  have first : head ≠ m.mallocs := Nat.ne_of_lt (below head List.mem_cons_self)
  have same : (LinkedList.initListHead m.links m.mallocs head).prev = (m.links head).prev := by
    rw [initListHead_other first]
  have last := alive (ring.last_mem)
  refine ⟨(m.grown env cell (LinkedList.initListHead m.links m.mallocs)).set v.node
    (v.cell (some m.mallocs)), ?_⟩
  rw [Mem.listAddTail, Mem.set_links, Mem.grown_links, same]
  by_cases there : m.Live (m.links head).prev
  · rw [if_pos ⟨new, (alive List.mem_cons_self).mpr live, last.mpr there⟩, if_pos there]
    rfl
  · rw [if_neg fun all => there (last.mp all.2.2), if_neg there]

theorem attached_span {blocks : List Nat} (span : Span head v.node blocks)
    (value : Target none m v) (low : head ≤ v.node) :
    Span head (m.mallocs + 1) (blocks ++ v.free ++ [m.mallocs]) := by
  have new := value.low
  have both := span.append value.span low (by omega)
  exact both.append (.single le_rfl (Nat.lt_succ_self _)) (by omega) (Nat.le_succ _)

theorem child_not_entry (es : List (Nat × List Nat))
    (nodup : (es.flatMap fun e => e.2 ++ [e.1]).Nodup) :
    ∀ e ∈ es, ∀ a ∈ e.2, a ∉ es.map Prod.fst := by
  intro e here a inside member
  obtain ⟨e', there, rfl⟩ := List.mem_map.mp member
  obtain ⟨front, back, rfl⟩ := List.append_of_mem here
  simp only [List.flatMap_append, List.flatMap_cons, List.nodup_append, List.mem_append,
    List.mem_flatMap, List.mem_singleton] at nodup
  simp only [List.mem_append, List.mem_cons] at there
  rcases there with before | rfl | behind
  · exact nodup.2.2 e'.1 ⟨e', before, .inr rfl⟩ e'.1 (.inl (.inl inside)) rfl
  · exact nodup.2.1.1.2.2 e'.1 inside e'.1 rfl rfl
  · exact nodup.2.1.2.2 e'.1 (.inl inside) e'.1 ⟨e', behind, .inr rfl⟩ rfl

theorem storedItems_append {m : Mem} (xs ys : List (LEntry BValue)) :
    StoredItems m (xs ++ ys) ↔ StoredItems m xs ∧ StoredItems m ys := by
  induction xs with
  | nil => simp [StoredItems]
  | cons x xs ih => simp [StoredItems, ih, and_assoc]

theorem storedEntries_append {m : Mem} (xs ys : List (DEntry BValue)) :
    StoredEntries m (xs ++ ys) ↔ StoredEntries m xs ∧ StoredEntries m ys := by
  induction xs with
  | nil => simp [StoredEntries]
  | cons x xs ih => simp [StoredEntries, ih, and_assoc]

theorem storedItems_live {m : Mem} (es : List (LEntry BValue)) (stored : StoredItems m es) :
    ∀ a ∈ es.map LEntry.node, m.Live a := by
  induction es with
  | nil => simp
  | cons e es ih =>
    simp only [StoredItems] at stored
    intro a member
    rcases List.mem_cons.mp member with rfl | later
    · simp [Mem.Live, stored.1]
    · exact ih stored.2.2 a later

theorem storedEntries_live {m : Mem} (es : List (DEntry BValue)) (stored : StoredEntries m es) :
    ∀ a ∈ es.map DEntry.node, m.Live a := by
  induction es with
  | nil => simp
  | cons e es ih =>
    simp only [StoredEntries] at stored
    intro a member
    rcases List.mem_cons.mp member with rfl | later
    · exact stored.1.live
    · exact ih stored.2 a later

-- What adding an entry does, whether or not there is a block for it. `low` is where the blocks of
-- the value start, `before` are those of the container.
structure Added (prev : Option Nat) (head low : Nat) (before : List Nat) (m m' : Mem) (st : St)
    (v : BValue) : Prop where
  state : m'.toSt = st
  kept : Kept head m m'
  cells : ∀ a, a < low → m'.cells a = m.cells a
  blocks : ∀ a ∈ v.free, a ∈ before ∨ low ≤ a
  target : Target prev m' v

theorem added_nothing {prev : Option Nat} {low : Nat} {w : BValue} (tidy : m.Tidy)
    (stored : Stored m prev w) (span : Span w.node low w.free) (small : low ≤ m.mallocs)
    (func : String) (line : Nat) (text : Bytes) :
    Added prev w.node low w.free m (Mem.print { m with toSt := m.toSt.malloc env } .error func line text)
      ((m.toSt.malloc env).print .error func line text) w where
  state := rfl
  kept := ⟨Nat.le_succ _, fun _ _ => rfl, fun _ _ => rfl⟩
  cells _ _ := rfl
  blocks _ member := .inl member
  target := by
    refine ⟨stored_congr w (m := m) (fun _ _ => ⟨rfl, rfl⟩) stored, ?_, ?_⟩
    · exact span.mono le_rfl (Nat.le_succ_of_le small)
    · exact tidy.malloc.shrink rfl rfl fun _ none => none

theorem attached_added {prev : Option Nat} {w : BValue} {blocks : List Nat} (cell : Cell)
    (value : Target none m v) (ring : Ring m.links head nodes) (node : w.node = head)
    (span : Span head v.node (blocks ++ [head])) (sub : nodes ⊆ blocks)
    (free : w.free = blocks ++ (v.free ++ [m.mallocs]) ++ [head])
    (stored : Stored (attached env m cell v head) prev w) :
    Added prev head v.node (blocks ++ [head]) m (attached env m cell v head) (m.toSt.malloc env) w := by
  have inside (a : Nat) (member : a ∈ head :: nodes) : head ≤ a ∧ a < v.node := by
    apply span.inside
    rcases List.mem_cons.mp member with rfl | entry
    · simp
    · simp [sub entry]
  have new := value.low
  have whole : Span head (m.mallocs + 1) w.free := by
    refine (attached_span span value (inside head List.mem_cons_self).2.le).perm ?_
    rw [free, List.append_assoc, List.append_assoc, List.append_assoc]
    exact List.perm_append_comm.append_left blocks
  refine ⟨rfl, attached_kept cell value ring inside, fun a low => ?_, fun a member => ?_, stored, ?_,
    attached_tidy cell value⟩
  · exact attached_cells cell (by omega) (by omega)
  · simp only [free, List.mem_append, List.mem_singleton] at member ⊢
    rcases member with (old | now | rfl) | rfl
    · exact .inl (.inl old)
    · exact .inr (value.span.inside a now).1
    · exact .inr new.le
    · exact .inl (.inr rfl)
  · rw [node]
    exact whole

theorem bListAdd_correct (env : Env) {prev : Option Nat} {l : BList}
    (stored : Stored m prev (.list l)) (span : Span l.node v.node (Bencode.bListFree l))
    (value : Target none m v) :
    ∃ m', bListAdd env m v.node l.node v.tag = .done () m' ∧
      Added prev l.node v.node (Bencode.bListFree l) m m' (Bencode.bListAdd env m.toSt v l).2
        (.list (Bencode.bListAdd env m.toSt v l).1) := by
  cases alloc : env.alloc m.mallocs with
  | false =>
    refine ⟨_, by rw [bListAdd, lEntryAlloc, allocLinked_fails _ alloc], ?_⟩
    rw [Bencode.bListAdd, if_neg (by simp [alloc])]
    exact added_nothing value.tidy stored span value.low.le _ _ _
  | true =>
    simp only [Stored] at stored
    obtain ⟨cell, ring, items⟩ := stored
    have low (a : Nat) (member : a ∈ l.node :: l.entries.map LEntry.node) : a < v.node := by
      refine (span.inside a ?_).2
      rcases List.mem_cons.mp member with rfl | entry
      · simp [Bencode.bListFree]
      · simp [Bencode.bListFree, item_nodes_sub _ entry]
    have live (a : Nat) (member : a ∈ l.node :: l.entries.map LEntry.node) : m.Live a := by
      rcases List.mem_cons.mp member with rfl | entry
      · simp [Mem.Live, cell]
      · exact storedItems_live _ items a entry
    have new := value.low
    obtain ⟨_, done⟩ := attach_eq env (.lEntry (some v.node) v.tag) value ring low
      (live _ List.mem_cons_self)
    rw [if_pos (live _ (ring.last_mem))] at done
    refine ⟨attached env m (.lEntry (some v.node) v.tag) v l.node, ?_, ?_⟩
    · rw [bListAdd, lEntryAlloc, allocLinked_gets _ alloc]
      simpa [Mem.set, Mem.grown] using done
    rw [Bencode.bListAdd, if_pos alloc]
    refine attached_added _ value ring rfl span (item_nodes_sub _) (by
      simp [BValue.free, lEntriesFree_append, lEntriesFree]) ?_
    obtain ⟨nodup, -, outside⟩ := List.nodup_append.mp span.nodup
    have apart := child_not_entry (l.entries.map fun e => (e.node, e.entry.free)) (by
      simpa [lEntriesFree_flatMap, List.flatMap_map] using nodup)
    simp only [Stored]
    refine ⟨?_, by simpa using attached_ring _ ring fun a member => (low a member).trans new,
      (storedItems_append _ _).mpr ⟨?_, ?_⟩⟩
    · have := low _ List.mem_cons_self
      rw [attached_cells _ (by omega) (by omega)]
      exact cell
    · refine storedItems_congr _ (fun a member => ?_) (fun e here a member => ?_) items
      · have := (span.inside a (List.mem_append_left _ member)).2
        exact attached_cells _ (by omega) (by omega)
      · have inside := item_free_sub here member
        have := (span.inside a (List.mem_append_left _ inside)).2
        refine attached_links _ ring (fun b member => (low b member).trans new) (by omega) ?_
        rw [List.mem_cons, not_or]
        refine ⟨outside a inside l.node (by simp), ?_⟩
        simpa using apart (e.node, e.entry.free) (List.mem_map_of_mem here) a member
    · simp only [StoredItems]
      refine ⟨?_, attached_stored _ value ring low, trivial⟩
      simp [attached, Nat.ne_of_gt new]

theorem dEntryAlloc_gets {env : Env} {key : BString} {head : Nat} (type : Tag)
    (alloc : env.alloc m.mallocs = true) (low : head ≠ m.mallocs)
    (chars : m.cells head = some (.chars (key.data ++ [0]))) :
    dEntryAlloc env m (some head) type = .done (some m.mallocs)
      (m.grown env (.dEntry (dEntryKey key) none type)
        (LinkedList.initListHead m.links m.mallocs)) := by
  rw [dEntryAlloc, allocLinked_gets _ alloc]
  simp [Mem.grown, Mem.set, low, chars, cstr_terminated, dEntryKey]

theorem bDictAdd_correct (env : Env) {prev : Option Nat} {d : BDict} {key : BString} {head : Nat}
    (stored : Stored m prev (.dict d)) (span : Span d.node v.node (Bencode.bDictFree d))
    (value : Target none m v) (chars : m.cells head = some (.chars (key.data ++ [0])))
    (before : head < v.node) :
    ∃ m', bDictAdd env m v.node (some head) d.node v.tag = .done () m' ∧
      Added prev d.node v.node (Bencode.bDictFree d) m m' (Bencode.bDictAdd env m.toSt v key d).2
        (.dict (Bencode.bDictAdd env m.toSt v key d).1) := by
  have new := value.low
  cases alloc : env.alloc m.mallocs with
  | false =>
    refine ⟨_, by rw [bDictAdd, dEntryAlloc, allocLinked_fails _ alloc, done_andThen], ?_⟩
    rw [Bencode.bDictAdd, if_neg (by simp [alloc])]
    exact added_nothing value.tidy stored span new.le _ _ _
  | true =>
    simp only [Stored] at stored
    obtain ⟨cell, ring, items⟩ := stored
    have low (a : Nat) (member : a ∈ d.node :: d.entries.map DEntry.node) : a < v.node := by
      refine (span.inside a ?_).2
      rcases List.mem_cons.mp member with rfl | entry
      · simp [Bencode.bDictFree]
      · simp [Bencode.bDictFree, entry_nodes_sub _ entry]
    have live (a : Nat) (member : a ∈ d.node :: d.entries.map DEntry.node) : m.Live a := by
      rcases List.mem_cons.mp member with rfl | entry
      · simp [Mem.Live, cell]
      · exact storedEntries_live _ items a entry
    obtain ⟨_, done⟩ := attach_eq env (.dEntry (dEntryKey key) (some v.node) v.tag) value ring low
      (live _ List.mem_cons_self)
    rw [if_pos (live _ (ring.last_mem))] at done
    refine ⟨attached env m (.dEntry (dEntryKey key) (some v.node) v.tag) v d.node, ?_, ?_⟩
    · rw [bDictAdd, dEntryAlloc_gets v.tag alloc (by omega) chars, done_andThen]
      simpa [Mem.set, Mem.grown] using done
    rw [Bencode.bDictAdd, if_pos alloc]
    refine attached_added _ value ring rfl span (entry_nodes_sub _) (by
      simp [BValue.free, dEntriesFree_append, dEntriesFree, valFree]) ?_
    obtain ⟨nodup, -, outside⟩ := List.nodup_append.mp span.nodup
    have apart := child_not_entry (d.entries.map fun e => (e.node, valFree e.val)) (by
      simpa [dEntriesFree_flatMap, List.flatMap_map] using nodup)
    simp only [Stored]
    refine ⟨?_, by simpa using attached_ring _ ring fun a member => (low a member).trans new,
      (storedEntries_append _ _).mpr ⟨?_, ?_⟩⟩
    · have := low _ List.mem_cons_self
      rw [attached_cells _ (by omega) (by omega)]
      exact cell
    · refine storedEntries_congr _ (fun a member => ?_) (fun e here a member => ?_) items
      · have := (span.inside a (List.mem_append_left _ member)).2
        exact attached_cells _ (by omega) (by omega)
      · have inside := entry_free_sub here member
        have := (span.inside a (List.mem_append_left _ inside)).2
        refine attached_links _ ring (fun b member => (low b member).trans new) (by omega) ?_
        rw [List.mem_cons, not_or]
        refine ⟨outside a inside d.node (by simp), ?_⟩
        simpa using apart (e.node, valFree e.val) (List.mem_map_of_mem here) a member
    · simp only [StoredEntries, StoredVal]
      refine ⟨⟨?_, attached_stored _ value ring low⟩, trivial⟩
      simp [attached, Nat.ne_of_gt new]

end Attach

end BTServer.Bencode.Pointer
