import BTServer.Bencode.Simulation

set_option autoImplicit false

namespace BTServer.Bencode.Pointer

open CString LinkedList Outcome Cells

section Walk

variable {entryFree : Mem → Nat → Outcome Mem Unit} {m : Mem} {head dead : Nat}

theorem erase_dead (gone : ¬ m.Live dead) (blocks : List Nat) : ¬ (m.erase blocks).Live dead := by
  rw [Mem.Live, erase_cells]
  by_cases member : dead ∈ blocks
  · simp [Cells.erase_mem member]
  · rw [Cells.erase_other member]
    exact gone

theorem entriesFree_dead (front : List Nat) (e : Nat × List Nat) (es : List (Nat × List Nat))
    (back : List Nat) (fuel : Nat) (enough : es.length < fuel)
    (ring : Ring m.links head (front ++ e.1 :: es.map Prod.fst ++ dead :: back))
    (gone : ¬ m.Live dead) (nodup : ((e :: es).flatMap Prod.snd).Nodup)
    (own : ∀ e' ∈ e :: es, e'.1 ∈ e'.2 ∧ m.Live e'.1)
    (frees : ∀ e' ∈ e :: es, ∀ m', Same e'.2 m m' → entryFree m' e'.1 = .done () (m'.erase e'.2)) :
    entriesFree entryFree fuel m head e.1 (m.links e.1).next =
      .fault (m.erase ((e :: es).flatMap Prod.snd)) := by
  induction es generalizing m front e fuel with
  | nil =>
    obtain ⟨fuel, rfl⟩ : ∃ n, fuel = n + 1 := ⟨fuel - 1, by omega⟩
    have other : e.1 ≠ head := by
      rintro rfl
      have distinct := ring.nodup
      simp at distinct
    have split : Ring m.links head (front ++ e.1 :: dead :: back) := by simpa using ring
    have following : (m.links e.1).next = dead := split.next_of_split front
    rw [entriesFree, if_neg other, frees e List.mem_cons_self m fun _ _ => ⟨rfl, rfl⟩, done_andThen,
      following, Mem.next, if_neg (erase_dead gone e.2), fault_andThen]
    simp
  | cons e' es ih =>
    obtain ⟨fuel, rfl⟩ : ∃ n, fuel = n + 1 := ⟨fuel - 1, by omega⟩
    have other : e.1 ≠ head := by
      rintro rfl
      have distinct := ring.nodup
      simp at distinct
    rw [List.flatMap_cons, List.nodup_append] at nodup
    obtain ⟨inside, alive⟩ := own e' (by simp)
    have split : Ring m.links head (front ++ e.1 :: e'.1 :: (es.map Prod.fst ++ dead :: back)) := by
      simpa using ring
    have following : (m.links e.1).next = e'.1 := split.next_of_split front
    have there : (m.erase e.2).Live e'.1 :=
      erase_live alive fun member => nodup.2.2 e'.1 member e'.1 (by simp [inside]) rfl
    rw [entriesFree, if_neg other, frees e List.mem_cons_self m fun _ _ => ⟨rfl, rfl⟩, done_andThen,
      following, Mem.next, if_pos there, done_andThen, erase_links, List.flatMap_cons,
      ← erase_erase]
    refine ih (front ++ [e.1]) e' fuel (by simpa using enough) (by simpa using ring)
      (erase_dead gone e.2) nodup.2.1 ?_ ?_
    · intro e'' member
      obtain ⟨inside, alive⟩ := own e'' (List.mem_cons_of_mem _ member)
      refine ⟨inside, erase_live alive fun before => ?_⟩
      exact nodup.2.2 e''.1 before e''.1 (List.mem_flatMap.mpr ⟨e'', member, inside⟩) rfl
    · intro e'' member m' same
      refine frees e'' (List.mem_cons_of_mem _ member) m' fun a inside => ?_
      have apart : a ∉ e.2 := fun before =>
        nodup.2.2 a before a (List.mem_flatMap.mpr ⟨e'', member, inside⟩) rfl
      have kept := same a inside
      rwa [erase_cells, Cells.erase_other apart] at kept

theorem allFree_dead (es : List (Nat × List Nat)) (back : List Nat) (fuel : Nat)
    (enough : es.length < fuel) (ring : Ring m.links head (es.map Prod.fst ++ dead :: back))
    (live : m.Live head) (gone : ¬ m.Live dead) (nodup : (es.flatMap Prod.snd).Nodup)
    (own : ∀ e ∈ es, e.1 ∈ e.2 ∧ m.Live e.1)
    (frees : ∀ e ∈ es, ∀ m', Same e.2 m m' → entryFree m' e.1 = .done () (m'.erase e.2)) :
    allFree entryFree fuel m head = .fault (m.erase (es.flatMap Prod.snd)) := by
  rw [allFree, Mem.next, if_pos live, done_andThen, ring.next_head]
  cases es with
  | nil =>
    simp only [List.map_nil, List.nil_append, List.headD_cons, List.flatMap_nil, erase_nil]
    rw [Mem.next, if_neg gone, fault_andThen]
  | cons e es =>
    simp only [List.map_cons, List.cons_append, List.headD_cons]
    rw [Mem.next, if_pos (own e List.mem_cons_self).2, done_andThen,
      entriesFree_dead [] e es back fuel (by simp at enough; omega) (by simpa using ring) gone nodup
        own frees, fault_andThen]

end Walk

-- A container whose entries are given by their blocks.
structure Linked (entryFree : Mem → Nat → Outcome Mem Unit) (m : Mem) (head : Nat)
    (es : List (Nat × List Nat)) : Prop where
  ring : Ring m.links head (es.map Prod.fst)
  live : m.Live head
  span : Span head m.mallocs (es.flatMap Prod.snd ++ [head])
  own : ∀ e ∈ es, e.1 ∈ e.2 ∧ m.Live e.1
  frees : ∀ e ∈ es, ∀ m', Same e.2 m m' → entryFree m' e.1 = .done () (m'.erase e.2)

namespace Linked

variable {entryFree : Mem → Nat → Outcome Mem Unit} {m m' : Mem} {head : Nat}
  {front back : List (Nat × List Nat)} {e : Nat × List Nat}

theorem length_lt {es : List (Nat × List Nat)} (linked : Linked entryFree m head es) :
    (es.flatMap Prod.snd).length < m.mallocs := by
  have count := linked.span.length_le
  have := (linked.span.inside head (by simp)).2
  simp only [List.length_append, List.length_singleton] at count
  omega

theorem apart (linked : Linked entryFree m head (front ++ e :: back)) :
    head ∉ e.2 ∧ (∀ e' ∈ front ++ back, ∀ a ∈ e'.2, a ∉ e.2) := by
  obtain ⟨nodup, -, outside⟩ := List.nodup_append.mp linked.span.nodup
  simp only [List.flatMap_append, List.flatMap_cons, List.nodup_append, List.mem_append,
    List.mem_flatMap] at nodup
  refine ⟨fun member => ?_, fun e' member a inside there => ?_⟩
  · refine outside head ?_ head (by simp) rfl
    simp [member]
  · rcases List.mem_append.mp member with before | behind
    · exact nodup.2.2 a ⟨e', before, inside⟩ a (.inl there) rfl
    · exact nodup.2.1.2.2 a there a ⟨e', behind, inside⟩ rfl

theorem removed (linked : Linked entryFree m head (front ++ e :: back)) {fuel : Nat}
    (enough : m.mallocs ≤ fuel) :
    entryFree m e.1 = .done () (m.erase e.2) ∧
      allFree entryFree fuel (m.erase e.2) head =
        .fault ((m.erase e.2).erase (front.flatMap Prod.snd)) := by
  obtain ⟨away, others⟩ := linked.apart
  have short := linked.length_lt
  have fewer := length_le_flatMap _ fun e' member => (linked.own e' member).1
  simp only [List.length_append, List.length_cons] at fewer
  refine ⟨linked.frees e (by simp) m fun _ _ => ⟨rfl, rfl⟩, ?_⟩
  have gone : ¬ (m.erase e.2).Live e.1 := by
    rw [Mem.Live, erase_cells, Cells.erase_mem (linked.own e (by simp)).1]
    simp
  refine allFree_dead front (back.map Prod.fst) fuel (by omega) (by simpa using linked.ring)
    (erase_live linked.live away) gone ?_ ?_ ?_
  · have nodup := (List.nodup_append.mp linked.span.nodup).1
    rw [List.flatMap_append] at nodup
    exact (List.nodup_append.mp nodup).1
  · intro e' member
    obtain ⟨inside, alive⟩ := linked.own e' (by simp [member])
    exact ⟨inside, erase_live alive (others e' (by simp [member]) e'.1 inside)⟩
  · intro e' member m' same
    refine linked.frees e' (by simp [member]) m' fun a inside => ?_
    have kept := same a inside
    rwa [erase_cells, Cells.erase_other (others e' (by simp [member]) a inside)] at kept

theorem below (linked : Linked entryFree m head (front ++ e :: back)) (a : Nat)
    (member : a ∈ head :: (front ++ e :: back).map Prod.fst) : a < m.mallocs := by
  refine (linked.span.inside a ?_).2
  rcases List.mem_cons.mp member with rfl | entry
  · simp
  · obtain ⟨e', inside, rfl⟩ := List.mem_map.mp entry
    exact List.mem_append_left _ (List.mem_flatMap.mpr ⟨e', inside, (linked.own e' inside).1⟩)

theorem last_live (linked : Linked entryFree m head (front ++ e :: back))
    (kept : Kept m.mallocs (m.erase e.2) m') : m'.Live (m'.links head).prev ↔ back ≠ [] := by
  have first := linked.below head List.mem_cons_self
  have last : (m.links head).prev = (head :: (front ++ e :: back).map Prod.fst).getLast (by simp) := by
    have prev := Ring.prev_of_split _ [] (by simpa using linked.ring)
    simpa using prev
  rw [kept.links head first, erase_links, last]
  rcases List.eq_nil_or_concat back with rfl | ⟨back, b, rfl⟩
  · have low := linked.below e.1 (by simp)
    have gone : ¬ m'.Live e.1 := by
      rw [Mem.Live, kept.cells _ low, erase_cells, Cells.erase_mem (linked.own e (by simp)).1]
      simp
    simpa using gone
  · have low := linked.below b.1 (by simp)
    obtain ⟨inside, alive⟩ := linked.own b (by simp)
    have other : b.1 ∉ e.2 := linked.apart.2 b (by simp) b.1 inside
    have there : m'.Live b.1 := by
      rw [Mem.Live, kept.cells _ low]
      exact erase_live alive other
    simpa using there

theorem attach (linked : Linked entryFree m head (front ++ e :: back)) (env : Env) (cell : Cell)
    {v : BValue} (kept : Kept m.mallocs (m.erase e.2) m') (later : m.mallocs ≤ v.node)
    (value : Target none m' v) :
    (∃ m'', ((setEntry (m'.grown env cell (LinkedList.initListHead m'.links m'.mallocs)) v.tag v.node
        m'.mallocs).andThen fun _ m => m.listAddTail m'.mallocs head) = .fault m'') ↔ back = [] := by
  have first := linked.below head List.mem_cons_self
  have ring : Ring m'.links head ((front ++ e :: back).map Prod.fst) :=
    linked.ring.congr fun a member => kept.links a (linked.below a member)
  have live : m'.Live head := by
    rw [Mem.Live, kept.cells head first]
    exact erase_live linked.live linked.apart.1
  obtain ⟨torn, result⟩ := attach_eq env cell value ring
    (fun a member => (linked.below a member).trans_le later) live
  rw [result]
  by_cases none : back = []
  · rw [if_neg fun alive => (linked.last_live kept).mp alive none]
    exact ⟨fun _ => none, fun _ => ⟨torn, rfl⟩⟩
  · rw [if_pos ((linked.last_live kept).mpr none)]
    simp [none]

end Linked

section Entries

variable {m : Mem} {prev : Option Nat} {fuel : Nat}

theorem linked_list {l : BList} (target : Target prev m (.list l)) (enough : m.mallocs ≤ fuel) :
    Linked (lEntryFree (release fuel)) m l.node
      (l.entries.map fun e => (e.node, e.entry.free ++ [e.node])) := by
  have stored := target.stored
  have span : Span l.node m.mallocs (lEntriesFree l.entries ++ [l.node]) := target.span
  simp only [Stored] at stored
  obtain ⟨cell, ring, items⟩ := stored
  have count := span.length_le
  have low := target.low
  simp only [List.length_append, List.length_singleton, node_list] at count low
  have each := release_items l.entries items (List.nodup_append.mp span.nodup).1
    (show _ < fuel by omega)
  refine ⟨by simpa [Function.comp_def] using ring, by simp [Mem.Live, cell], ?_, ?_, ?_⟩
  · rwa [← lEntriesFree_flatMap]
  · intro _ member
    obtain ⟨e, inside, rfl⟩ := List.mem_map.mp member
    exact ⟨by simp, (each e inside).1⟩
  · intro _ member
    obtain ⟨e, inside, rfl⟩ := List.mem_map.mp member
    exact (each e inside).2

theorem linked_dict {d : BDict} (target : Target prev m (.dict d)) (enough : m.mallocs ≤ fuel) :
    Linked (dEntryFree (release fuel)) m d.node
      (d.entries.map fun e => (e.node, valFree e.val ++ [e.node])) := by
  have stored := target.stored
  have span : Span d.node m.mallocs (dEntriesFree d.entries ++ [d.node]) := target.span
  simp only [Stored] at stored
  obtain ⟨cell, ring, items⟩ := stored
  have count := span.length_le
  have low := target.low
  simp only [List.length_append, List.length_singleton, node_dict] at count low
  have each := release_entries d.entries items (List.nodup_append.mp span.nodup).1
    (show _ < fuel by omega)
  refine ⟨by simpa [Function.comp_def] using ring, by simp [Mem.Live, cell], ?_, ?_, ?_⟩
  · rwa [← dEntriesFree_flatMap]
  · intro _ member
    obtain ⟨e, inside, rfl⟩ := List.mem_map.mp member
    exact ⟨by simp, (each e inside).1⟩
  · intro _ member
    obtain ⟨e, inside, rfl⟩ := List.mem_map.mp member
    exact (each e inside).2

end Entries

/-- `b_list_del` and `b_dict_del` leave the entry on its list. Releasing the list then frees the
entries before it and faults, and adding to the list faults if the entry was the last one. -/
theorem removed_entry_faults (m : Mem) (prev : Option Nat) (fuel : Nat) (enough : m.mallocs ≤ fuel) :
    (∀ l front e back, Target prev m (.list l) → l.entries = front ++ e :: back →
      ∃ m₁ m₂, bListDel fuel m e.node = .done () m₁ ∧
        m₁.freed = m.freed ++ (e.entry.free ++ [e.node]) ∧
        bListFree (fuel + 1) m₁ (some l.node) = .fault m₂ ∧
        m₂.freed = m₁.freed ++ lEntriesFree front ∧
        ∀ env m' v, Kept m.mallocs m₁ m' → m.mallocs ≤ v.node → Target none m' v →
          env.alloc m'.mallocs = true →
          ((∃ m'', bListAdd env m' v.node l.node v.tag = .fault m'') ↔ back = [])) ∧
    (∀ d front e back, Target prev m (.dict d) → d.entries = front ++ e :: back →
      ∃ m₁ m₂, bDictDel fuel m e.node = .done () m₁ ∧
        m₁.freed = m.freed ++ (valFree e.val ++ [e.node]) ∧
        bDictFree (fuel + 1) m₁ (some d.node) = .fault m₂ ∧
        m₂.freed = m₁.freed ++ dEntriesFree front ∧
        ∀ env m' v head (key : BString), Kept m.mallocs m₁ m' → m.mallocs ≤ v.node →
          Target none m' v → env.alloc m'.mallocs = true →
          m'.cells head = some (.chars (key.data ++ [0])) →
          ((∃ m'', bDictAdd env m' v.node (some head) d.node v.tag = .fault m'') ↔ back = [])) := by
  refine ⟨fun l front e back target split => ?_, fun d front e back target split => ?_⟩
  · have linked := linked_list target enough
    rw [split, List.map_append, List.map_cons] at linked
    obtain ⟨deleted, faults⟩ := linked.removed enough
    refine ⟨_, _, deleted, rfl, faults, ?_, fun env m' v kept later value alloc => ?_⟩
    · rw [lEntriesFree_flatMap]
      rfl
    · have attach := linked.attach env (.lEntry (some v.node) v.tag) kept later value
      rw [List.map_eq_nil_iff] at attach
      rw [← attach, bListAdd, lEntryAlloc, allocLinked_gets _ alloc]
      simp [Mem.set, Mem.grown]
  · have linked := linked_dict target enough
    rw [split, List.map_append, List.map_cons] at linked
    obtain ⟨deleted, faults⟩ := linked.removed enough
    refine ⟨_, _, deleted, rfl, faults, ?_, fun env m' v head key kept later value alloc chars => ?_⟩
    · rw [dEntriesFree_flatMap]
      rfl
    · have attach := linked.attach env (.dEntry (dEntryKey key) (some v.node) v.tag) kept later value
      have old : head ≠ m'.mallocs := by
        rintro rfl
        rw [value.tidy.beyond _ le_rfl] at chars
        simp at chars
      rw [List.map_eq_nil_iff] at attach
      rw [← attach, bDictAdd, dEntryAlloc_gets v.tag alloc old chars, done_andThen]
      simp [Mem.set, Mem.grown]

theorem number_added {env : Env} (mallocs : Allocates env) {m : Mem} {n : Nat} {l : BList}
    (count : m.mallocs = n) (target : Target none m (.list l)) :
    ∃ m', m'.mallocs = n + 2 ∧
      Target none m' (.list { l with entries := l.entries ++ [⟨n + 1, .int ⟨n, 0⟩⟩] }) := by
  subst count
  obtain ⟨m₁, -, state, kept, value⟩ := (bIntAlloc_starts env).gets m target.tidy (mallocs _)
  have built := target.builds kept value.tidy
  have span : Span l.node m.mallocs (Bencode.bListFree l) := target.span
  obtain ⟨m', -, added⟩ :=
    bListAdd_correct (v := .int ⟨m.mallocs, 0⟩) env built.target.stored span value
  have next : m₁.mallocs = m.mallocs + 1 := congrArg (fun st => st.mallocs) state
  have whole := added.target
  have last := added.state
  simp only [Bencode.bListAdd, mallocs _, if_true, next] at whole last
  refine ⟨m', ?_, whole⟩
  rw [last]
  exact congrArg (· + 1) next

theorem deleted_tidy {m : Mem} {l : BList} (front back : List (LEntry BValue)) {e : LEntry BValue}
    (target : Target none m (.list l)) (split : l.entries = front ++ e :: back) {m₁ : Mem}
    (deleted : bListDel m.mallocs m e.node = .done () m₁) :
    m₁.Tidy ∧ m₁.mallocs = m.mallocs := by
  have linked := linked_list target le_rfl
  rw [split, List.map_append, List.map_cons] at linked
  have erased := (linked.removed le_rfl).1
  rw [bListDel] at deleted
  cases deleted.symm.trans erased
  have inside : Span l.node m.mallocs (e.entry.free ++ [e.node]) := by
    constructor
    · have nodup := (List.nodup_append.mp linked.span.nodup).1
      simp only [List.flatMap_append, List.flatMap_cons] at nodup
      exact (List.nodup_append.mp (List.nodup_append.mp nodup).2.1).1
    · intro a member
      apply linked.span.inside a
      simp only [List.flatMap_append, List.flatMap_cons, List.mem_append]
      exact .inl (.inr (.inl (by simpa using member)))
  exact ⟨target.tidy.erase inside, rfl⟩

-- Of three numbers the second is deleted, or the third. Another number is then added.
theorem removed_entry_faults_of_three :
    let env : Env := .plentiful []
    ∃ m, Target none m (.list ⟨0, [⟨2, .int ⟨1, 0⟩⟩, ⟨4, .int ⟨3, 0⟩⟩, ⟨6, .int ⟨5, 0⟩⟩]⟩) ∧
      (∃ m₁ m₂ m₃, bListDel m.mallocs m 4 = .done () m₁ ∧
        bListFree (m.mallocs + 1) m₁ (some 0) = .fault m₂ ∧ m₂.freed = m₁.freed ++ [1, 2] ∧
        bIntAlloc env m₁ = (some 7, m₃) ∧ ¬ ∃ m₄, bListAdd env m₃ 7 0 .int = .fault m₄) ∧
      ∃ m₁ m₃, bListDel m.mallocs m 6 = .done () m₁ ∧ bIntAlloc env m₁ = (some 7, m₃) ∧
        ∃ m₄, bListAdd env m₃ 7 0 .int = .fault m₄ := by
  intro env
  have mallocs : Allocates env := fun _ => rfl
  obtain ⟨m₀, -, state, -, empty⟩ := (bListAlloc_starts env).gets .empty empty_tidy rfl
  have none : m₀.mallocs = 1 := congrArg (fun st => st.mallocs) state
  obtain ⟨_, one, target⟩ := number_added mallocs none empty
  obtain ⟨_, two, target⟩ := number_added mallocs one target
  obtain ⟨m, three, target⟩ := number_added mallocs two target
  obtain ⟨lists, -⟩ := removed_entry_faults m .none m.mallocs le_rfl
  refine ⟨m, target, ?_, ?_⟩
  · obtain ⟨m₁, m₂, deleted, -, torn, freed, adds⟩ := lists _ [⟨2, .int ⟨1, 0⟩⟩] ⟨4, .int ⟨3, 0⟩⟩
      [⟨6, .int ⟨5, 0⟩⟩] target rfl
    obtain ⟨tidy, same⟩ := deleted_tidy [_] [_] target rfl deleted
    obtain ⟨m₃, got, -, kept, value⟩ := (bIntAlloc_starts env).gets m₁ tidy (mallocs _)
    rw [same, three] at got kept value
    have added := adds env m₃ (.int ⟨7, 0⟩) (three ▸ kept) three.le value (mallocs _)
    exact ⟨m₁, m₂, m₃, deleted, torn, freed, got, added.not.mpr (by simp)⟩
  · obtain ⟨m₁, m₂, deleted, -, -, -, adds⟩ := lists _ [⟨2, .int ⟨1, 0⟩⟩, ⟨4, .int ⟨3, 0⟩⟩]
      ⟨6, .int ⟨5, 0⟩⟩ [] target rfl
    obtain ⟨tidy, same⟩ := deleted_tidy [_, _] [] target rfl deleted
    obtain ⟨m₃, got, -, kept, value⟩ := (bIntAlloc_starts env).gets m₁ tidy (mallocs _)
    rw [same, three] at got kept value
    have added := adds env m₃ (.int ⟨7, 0⟩) (three ▸ kept) three.le value (mallocs _)
    exact ⟨m₁, m₃, deleted, got, added.mpr rfl⟩

end BTServer.Bencode.Pointer
