import BTServer.Bencode.Attach
import BTServer.Bencode.Objects
import BTServer.Shared.Simulation

set_option autoImplicit false

namespace BTServer.Bencode.Pointer

open CString LinkedList Outcome Cells

/-- The target has become another tree at the same address, and what is older is untouched. -/
structure Builds (m m' : Mem) (v v' : BValue) : Prop where
  node : v'.node = v.node
  kept : Kept v.node m m'
  target : Target none m' v'

/-- A parser on the heap ends as the one on trees does, in the same state. -/
def Refines {α : Type} (wrap : α → BValue) (parse : St → Nat → α → Outcome St (Option Nat × α))
    (parse' : Mem → Nat → Nat → Outcome Mem (Option Nat)) : Prop :=
  ∀ m p x, Target none m (wrap x) →
    Simulates Mem.toSt (fun r next m' => r.1 = next ∧ Builds m m' (wrap x) (wrap r.2))
      (parse m.toSt p x) (parse' m p (wrap x).node)

section Builds

variable {m m' m'' : Mem} {v v' v'' : BValue}

theorem Builds.trans (first : Builds m m' v v') (second : Builds m' m'' v' v'') :
    Builds m m'' v v'' :=
  ⟨second.node.trans first.node, first.kept.trans (first.node ▸ second.kept), second.target⟩

theorem Target.quiet (target : Target none m v) (mallocs : m'.mallocs = m.mallocs)
    (freed : m'.freed = m.freed) (cells : m'.cells = m.cells) (links : m'.links = m.links) :
    Builds m m' v v := by
  have kept (mark : Nat) : Kept mark m m' :=
    ⟨mallocs.ge, fun a _ => congrFun cells a, fun a _ => congrFun links a⟩
  refine ⟨rfl, kept _, target.kept (kept _) (target.tidy.shrink mallocs freed fun a none => ?_)⟩
  rw [cells]
  exact none

end Builds

section Scalars

variable {m : Mem}

theorem set_kept (mark : Nat) {a : Nat} (high : mark ≤ a) (cell : Cell) :
    Kept mark m (m.set a cell) where
  more := le_rfl
  cells b low := by simp [Mem.set, show b ≠ a by omega]
  links _ _ := rfl

theorem string_builds (env : Env) {s : BString} (target : Target none m (.string s)) (data : Bytes)
    (len : UInt32) :
    Builds m ((m.grown env (.chars (data ++ [0])) m.links).set s.node
        (.string none (some m.mallocs) (some m.mallocs) len))
      (.string s) (.string { s with head := some m.mallocs, data, len }) := by
  have low : s.node < m.mallocs := target.low
  have grown : Mem.Tidy (m.grown env (.chars (data ++ [0])) m.links) :=
    target.tidy.grown (.chars (data ++ [0])) m.links
  have first : Kept s.node m (m.grown env (.chars (data ++ [0])) m.links) :=
    (grown_kept env m _ m.links fun _ _ => rfl).mono low.le
  refine ⟨rfl, first.trans (set_kept _ le_rfl _), ?_, ?_, grown.set ?_ _⟩
  · simp only [Stored, StoredString]
    refine ⟨by simp [Mem.set], fun a member => ?_⟩
    obtain rfl := Option.some.inj member
    simp [Mem.set, Mem.grown, Nat.ne_of_gt low]
  · have both : Span s.node (m.mallocs + 1) ([s.node] ++ [m.mallocs]) :=
      (Span.single le_rfl low).append (.single le_rfl (Nat.lt_succ_self _)) low.le (Nat.le_succ _)
    exact both.perm List.perm_append_comm
  · have cell := stored_cell target.stored
    simp only [BValue.node] at cell
    simp [Mem.Live, Mem.grown, Nat.ne_of_lt low, cell]

-- The last steps of `b_string_parse`: a block for the characters, then the copy.
theorem takeString_refines (env : Env) {s : BString} (target : Target none m (.string s)) (fits : Prop)
    [Decidable fits] (ptr : Nat) (data : Bytes) (len : UInt32) :
    Simulates Mem.toSt (fun r next m' => r.1 = next ∧ Builds m m' (.string s) (.string r.2))
      (if fits then
        if env.alloc m.mallocs then
          .done (some ptr, { s with head := some m.mallocs, data, len }) (m.toSt.malloc env)
        else .crash (m.toSt.malloc env)
      else .fault (m.toSt.malloc env))
      (let (tmpB, m) := m.malloc env (.chars (data ++ [0]))
      if fits then
        match tmpB with
        | some tmpB => .done (some ptr) (m.set s.node (.string none (some tmpB) (some tmpB) len))
        | none => .crash m
      else .fault m) := by
  cases alloc : env.alloc m.mallocs with
  | false =>
    simp only [malloc_fails _ alloc, Bool.false_eq_true, if_false]
    split
    next => exact .crash rfl
    next => exact .fault rfl
  | true =>
    simp only [malloc_gets _ alloc, if_true]
    split
    next => exact .done rfl ⟨rfl, string_builds env target data len⟩
    next => exact .fault rfl

theorem bStringParse_refines (env : Env) :
    Refines .string (Bencode.bStringParse env) (bStringParse env) := by
  intro m p s target
  have cell : m.cells s.node = some (.string none s.head s.head s.len) := stored_cell target.stored
  simp only [Bencode.bStringParse, bStringParse, BValue.node]
  cases rest : env.rest p with
  | none => exact .fault rfl
  | some bytes =>
    dsimp only
    cases colon : strchr 58 bytes with
    | none => exact .done rfl ⟨rfl, target.quiet rfl rfl rfl rfl⟩
    | some n =>
      dsimp only
      generalize strtol (scratch (integerLen + 1) (bytes.take (min integerLen n))) = number
      have quiet : Builds m { m with toSt := m.toSt.strtol number } (.string s) (.string s) :=
        target.quiet rfl rfl rfl rfl
      split
      next => exact .done rfl ⟨rfl, target.quiet rfl rfl rfl rfl⟩
      next =>
        split
        next => exact .done rfl ⟨rfl, target.quiet rfl rfl rfl rfl⟩
        next =>
          simp only [cell]
          exact (takeString_refines env quiet.target _ _ _ _).mono fun _ _ _ related =>
            ⟨related.1, quiet.trans related.2⟩

theorem int_builds {i : BInt} (target : Target none m (.int i)) (val : UInt32) :
    Builds m (m.set i.node (.int none val)) (.int i) (.int { i with val }) := by
  have cell := stored_cell target.stored
  simp only [BValue.node] at cell
  refine ⟨rfl, set_kept _ le_rfl _, ?_, target.span, target.tidy.set ?_ _⟩
  · simp [Stored, Mem.set]
  · simp [Mem.Live, cell]

-- The last steps of `b_int_parse`: the checks of the number that has been stored.
theorem takeInt_refines {m' : Mem} {i i' : BInt} (built : Builds m m' (.int i) (.int i'))
    (fails empty : Prop) [Decidable fails] [Decidable empty] (ptr : Nat) :
    Simulates Mem.toSt (fun r next m' => r.1 = next ∧ Builds m m' (.int i) (.int r.2))
      (if fails then
        .done (none, i') (m'.toSt.print .error "b_int_parse" 224 (ascii "strtol error\n"))
      else if empty then
        .done (none, i') (m'.toSt.print .error "b_int_parse" 229 (ascii "No digits were found\n"))
      else .done (some ptr, i') m'.toSt)
      (if fails then .done none (m'.print .error "b_int_parse" 224 (ascii "strtol error\n"))
      else if empty then
        .done none (m'.print .error "b_int_parse" 229 (ascii "No digits were found\n"))
      else .done (some ptr) m') := by
  split
  next => exact .done rfl ⟨rfl, built.trans (built.target.quiet rfl rfl rfl rfl)⟩
  next =>
    split
    next => exact .done rfl ⟨rfl, built.trans (built.target.quiet rfl rfl rfl rfl)⟩
    next => exact .done rfl ⟨rfl, built⟩

theorem bIntParse_refines (env : Env) : Refines .int (Bencode.bIntParse env) (bIntParse env) := by
  intro m p i target
  have cell : m.cells i.node = some (.int none i.val) := stored_cell target.stored
  simp only [Bencode.bIntParse, bIntParse, BValue.node]
  cases rest : env.rest p with
  | none => exact .fault rfl
  | some bytes =>
    dsimp only
    cases close : strchr 101 bytes with
    | none => exact .done rfl ⟨rfl, target.quiet rfl rfl rfl rfl⟩
    | some n =>
      simp only [cell]
      generalize strtol (scratch integerLen ((bytes.drop 1).take (min integerLen (n % 2 ^ 32))) ++
        env.beyond m.ints) = number
      have quiet : Builds m { m with toSt := (m.toSt.strtol number).nextInt } (.int i) (.int i) :=
        target.quiet rfl rfl rfl rfl
      have built := quiet.trans (int_builds quiet.target (toUnsigned number.val))
      exact takeInt_refines built _ _ _

end Scalars

section Elements

variable {m : Mem} {mark : Nat} {held : List Nat}

-- What one round of a loop has read. The blocks `held`, from the mark on, are the key's: they are
-- given back if the value is rejected.
inductive Reads (env : Env) (m : Mem) (mark : Nat) : Bencode.Element → Element → Mem → Prop
  | skipped : Reads env m mark .skipped .skipped { m with toSt := m.toSt.malloc env }
  | rejected {m' : Mem} (kept : Kept mark m m') (tidy : m'.Tidy) : Reads env m mark .rejected .rejected m'
  | parsed {m' : Mem} (next : Nat) (v : BValue) (node : v.node = m.mallocs)
      (kept : Kept m.mallocs m m') (target : Target none m' v) :
      Reads env m mark (.parsed next v) (.parsed next v.tag v.node) m'

structure SameMessage (complain : St → St) (complain' : Mem → Mem) : Prop where
  state : ∀ m, (complain' m).toSt = complain m.toSt
  mallocs : ∀ m, (complain' m).mallocs = m.mallocs
  freed : ∀ m, (complain' m).freed = m.freed
  cells : ∀ m, (complain' m).cells = m.cells
  links : ∀ m, (complain' m).links = m.links

theorem sameMessage_id : SameMessage id id :=
  ⟨fun _ => rfl, fun _ => rfl, fun _ => rfl, fun _ => rfl, fun _ => rfl⟩

theorem sameMessage_print (level : MsgLevel) (func : String) (line : Nat) (text : Bytes) :
    SameMessage (·.print level func line text) (·.print level func line text) :=
  ⟨fun _ => rfl, fun _ => rfl, fun _ => rfl, fun _ => rfl, fun _ => rfl⟩

theorem release_target {prev : Option Nat} {v : BValue} (target : Target prev m v) :
    release m.fuel v.tag m (some v.node) = .done () (m.erase v.free) := by
  refine release_stored v target.stored target.span.nodup ?_
  have := target.span.length_le
  simp only [Mem.fuel]
  omega

theorem rejected_reads (env : Env) {m₁ : Mem} {v : BValue} {complain : St → St}
    {complain' : Mem → Mem} (message : SameMessage complain complain') (span : Span mark m.mallocs held)
    (low : mark ≤ m.mallocs) (node : v.node = m.mallocs) (kept : Kept m.mallocs m m₁)
    (target : Target none m₁ v) {giveBack : Mem → Outcome Mem Unit}
    (gives : ∀ m', Kept m.mallocs m m' → giveBack m' = .done () (m'.erase held)) :
    Simulates Mem.toSt (Reads env m mark)
      (.done .rejected (complain ((m₁.toSt.free held).free v.free)))
      ((giveBack m₁).andThen fun _ m =>
        (release m.fuel v.tag m (some v.node)).andThen fun _ m => .done .rejected (complain' m)) := by
  have above : Span m.mallocs m₁.mallocs v.free := node ▸ target.span
  have apart (a : Nat) (member : a ∈ v.free) : a ∉ held := fun other => by
    have := (above.inside a member).1
    have := (span.inside a other).2
    omega
  have left : Target none (m₁.erase held) v := by
    refine ⟨stored_congr v (same_erase (fun _ _ => ⟨rfl, rfl⟩) apart) target.stored, target.span, ?_⟩
    exact target.tidy.erase (span.mono le_rfl kept.more)
  rw [gives m₁ kept, done_andThen, release_target left, done_andThen]
  have gone : ((m₁.erase held).erase v.free).Tidy := left.tidy.erase above
  have whole : Kept mark m ((m₁.erase held).erase v.free) :=
    ((kept.mono low).trans (kept_erase span le_rfl)).trans (kept_erase above low)
  refine .done (message.state _) (.rejected ?_ ?_)
  · refine ⟨?_, fun a below => ?_, fun a below => ?_⟩
    · rw [message.mallocs]
      exact whole.more
    · rw [message.cells]
      exact whole.cells a below
    · rw [message.links]
      exact whole.links a below
  · exact gone.shrink (message.mallocs _) (message.freed _) fun a none => by rwa [message.cells]

theorem parseCase_reads {α : Type} {env : Env} {wrap : α → BValue} {init : Nat → α} {type : Tag}
    {frees : α → List Nat} {alloc : Mem → Option Nat × Mem}
    {parse : St → Nat → α → Outcome St (Option Nat × α)}
    {parse' : Mem → Nat → Nat → Outcome Mem (Option Nat)} {complain : St → St}
    {complain' : Mem → Mem} {giveBack : Mem → Outcome Mem Unit}
    (starts : Starts env alloc fun node => wrap (init node)) (refines : Refines wrap parse parse')
    (named : ∀ node, (wrap (init node)).node = node) (tag : ∀ x, (wrap x).tag = type)
    (free : ∀ x, (wrap x).free = frees x) (message : SameMessage complain complain') (tidy : m.Tidy)
    (span : Span mark m.mallocs held) (low : mark ≤ m.mallocs)
    (gives : ∀ m', Kept m.mallocs m m' → giveBack m' = .done () (m'.erase held)) (p : Nat) :
    Simulates Mem.toSt (Reads env m mark)
      (if env.alloc m.mallocs = false then .done .skipped (m.toSt.malloc env)
      else (parse (m.toSt.malloc env) p (init m.mallocs)).andThen fun (next, x) st =>
        match next with
        | some ptr => .done (.parsed ptr (wrap x)) st
        | none => .done .rejected (complain ((st.free held).free (frees x))))
      (parseCase type alloc parse' giveBack complain' m p) := by
  cases success : env.alloc m.mallocs with
  | false =>
    rw [if_pos rfl, parseCase, starts.fails m success]
    exact .done rfl .skipped
  | true =>
    obtain ⟨m₁, got, state, kept, target⟩ := starts.gets m tidy success
    rw [if_neg (by simp), parseCase, got]
    have parsed := refines m₁ p (init m.mallocs) target
    rw [state, named] at parsed
    refine parsed.andThen ?_
    rintro ⟨next, x⟩ _ m₂ ⟨rfl, built⟩
    have node : (wrap x).node = m.mallocs := built.node.trans (named _)
    have kept₂ : Kept m.mallocs m m₂ := by
      have later := built.kept
      rw [named] at later
      exact kept.trans later
    cases next with
    | some q =>
      refine .done rfl ?_
      rw [← tag x, ← node]
      exact .parsed q (wrap x) node kept₂ built.target
    | none =>
      have rejected := rejected_reads env message span low node kept₂ built.target gives
      rw [tag, free, node] at rejected
      exact rejected

structure RefinesAll (env : Env) (fuel : Nat) : Prop where
  list : Refines .list (Bencode.bListParse env fuel) (bListParse env fuel)
  listLoop : Refines .list (Bencode.bListLoop env fuel) (bListLoop env fuel)
  dict : Refines .dict (Bencode.bDictParse env fuel) (bDictParse env fuel)
  dictLoop : Refines .dict (Bencode.bDictLoop env fuel) (bDictLoop env fuel)

theorem parseElement_reads {env : Env} {fuel : Nat} (all : RefinesAll env fuel) {complain : St → St}
    {complain' : Mem → Mem} {giveBack : Mem → Outcome Mem Unit}
    (message : SameMessage complain complain') (tidy : m.Tidy) (span : Span mark m.mallocs held)
    (low : mark ≤ m.mallocs)
    (gives : ∀ m', Kept m.mallocs m m' → giveBack m' = .done () (m'.erase held)) (p : Nat)
    (c : UInt8) :
    Simulates Mem.toSt (Reads env m mark)
      (Bencode.parseElement env (Bencode.bListParse env fuel) (Bencode.bDictParse env fuel) held
        complain m.toSt p c)
      (parseElement env (bListParse env fuel) (bDictParse env fuel) giveBack complain' m p c) := by
  simp only [Bencode.parseElement, parseElement]
  by_cases isList : c = 108
  · rw [if_pos isList, if_pos isList]
    exact parseCase_reads (bListAlloc_starts env) all.list (fun _ => rfl) (fun _ => rfl) free_list
      sameMessage_id tidy span low gives p
  rw [if_neg isList, if_neg isList]
  by_cases isInt : c = 105
  · rw [if_pos isInt, if_pos isInt]
    exact parseCase_reads (bIntAlloc_starts env) (bIntParse_refines env) (fun _ => rfl)
      (fun _ => rfl) (fun _ => by simp [BValue.free]) sameMessage_id tidy span low gives p
  rw [if_neg isInt, if_neg isInt]
  by_cases isDict : c = 100
  · rw [if_pos isDict, if_pos isDict]
    exact parseCase_reads (bDictAlloc_starts env) all.dict (fun _ => rfl) (fun _ => rfl) free_dict
      sameMessage_id tidy span low gives p
  rw [if_neg isDict, if_neg isDict]
  exact parseCase_reads (bStringAlloc_starts env) (bStringParse_refines env) (fun _ => rfl)
    (fun _ => rfl) (fun _ => by simp [BValue.free]) message tidy span low gives p

end Elements

section Loops

variable {env : Env} {fuel : Nat} {m m' : Mem} {v : BValue}

theorem Target.builds_refl (target : Target none m v) : Builds m m v v :=
  ⟨rfl, .refl _ _, target⟩

theorem Target.builds (target : Target none m v) (kept : Kept m.mallocs m m') (tidy : m'.Tidy) :
    Builds m m' v v :=
  ⟨rfl, kept.mono target.low.le, target.kept kept tidy⟩

theorem malloc_builds (target : Target none m v) :
    Builds m { m with toSt := m.toSt.malloc env } v v :=
  target.builds ⟨Nat.le_succ _, fun _ _ => rfl, fun _ _ => rfl⟩ target.tidy.malloc

theorem Refines.resume {α : Type} {wrap : α → BValue}
    {parse : St → Nat → α → Outcome St (Option Nat × α)}
    {parse' : Mem → Nat → Nat → Outcome Mem (Option Nat)} (refines : Refines wrap parse parse')
    {x y : α} (built : Builds m m' (wrap x) (wrap y)) (p : Nat) :
    Simulates Mem.toSt (fun r next m'' => r.1 = next ∧ Builds m m'' (wrap x) (wrap r.2))
      (parse m'.toSt p y) (parse' m' p (wrap x).node) := by
  have later := refines m' p y built.target
  rw [built.node] at later
  exact later.mono fun _ _ _ related => ⟨related.1, built.trans related.2⟩

theorem bListParse_refines (all : RefinesAll env fuel) :
    Refines .list (Bencode.bListParse env (fuel + 1)) (bListParse env (fuel + 1)) := by
  intro m p l target
  rw [Bencode.bListParse, bListParse]
  cases env.load p with
  | none => exact .fault rfl
  | some c =>
    dsimp only
    split
    next => exact .done rfl ⟨rfl, target.builds_refl⟩
    next => exact all.listLoop m (p + 1) l target

theorem bDictParse_refines (all : RefinesAll env fuel) :
    Refines .dict (Bencode.bDictParse env (fuel + 1)) (bDictParse env (fuel + 1)) := by
  intro m p d target
  rw [Bencode.bDictParse, bDictParse]
  cases env.load p with
  | none => exact .fault rfl
  | some c =>
    dsimp only
    split
    next => exact .done rfl ⟨rfl, target.builds_refl⟩
    next => exact all.dictLoop m (p + 1) d target

theorem bListAdd_node (st : St) (entry : BValue) (l : BList) :
    (Bencode.bListAdd env st entry l).1.node = l.node := by
  rw [Bencode.bListAdd]
  split <;> rfl

theorem bDictAdd_node (st : St) (entry : BValue) (key : BString) (d : BDict) :
    (Bencode.bDictAdd env st entry key d).1.node = d.node := by
  rw [Bencode.bDictAdd]
  split <;> rfl

theorem bListLoop_refines (all : RefinesAll env fuel) :
    Refines .list (Bencode.bListLoop env (fuel + 1)) (bListLoop env (fuel + 1)) := by
  intro m p l target
  rw [Bencode.bListLoop, bListLoop]
  cases env.load p with
  | none => exact .fault rfl
  | some c =>
    dsimp only
    split
    next => exact .done rfl ⟨rfl, target.builds_refl⟩
    next =>
      have nothing : Span m.mallocs m.mallocs [] := ⟨List.nodup_nil, by simp⟩
      refine (parseElement_reads all sameMessage_id target.tidy nothing le_rfl
        (fun m' _ => by rw [erase_nil]) p c).andThen ?_
      intro element element' m₁ reads
      cases reads with
      | skipped => exact all.listLoop.resume (malloc_builds target) p
      | rejected kept tidy => exact .done rfl ⟨rfl, target.builds kept tidy⟩
      | parsed q v node kept value =>
        have built := target.builds kept value.tidy
        have span : Span l.node v.node (Bencode.bListFree l) := node ▸ target.span
        obtain ⟨m₂, adds, added⟩ := bListAdd_correct env built.target.stored span value
        have grown : Builds m₁ m₂ (.list l) (.list (Bencode.bListAdd env m₁.toSt v l).1) :=
          ⟨bListAdd_node _ _ _, added.kept, added.target⟩
        simp only [node_list, adds, done_andThen, ← added.state]
        exact all.listLoop.resume (built.trans grown) q

theorem bStringParse_head (env : Env) (st : St) (p : Nat) (s : BString) :
    (Bencode.bStringParse env st p s).Sat
      ⟨fun r _ => r.1.isSome → r.2.head.isSome, True, True, True⟩ := by
  unfold Bencode.bStringParse
  split
  next => trivial
  next =>
    split
    next => simp
    next =>
      dsimp only
      split
      next => simp
      next =>
        split
        next => simp
        next =>
          split
          next =>
            split
            next => simp
            next => trivial
          next => trivial

theorem storedString_cells {key : BString} (stored : StoredString m none key)
    (cells : ∀ a ∈ Bencode.bStringFree key, m'.cells a = m.cells a) : StoredString m' none key := by
  refine ⟨?_, fun head member => ?_⟩
  · rw [cells key.node (by simp [Bencode.bStringFree])]
    exact stored.1
  · rw [cells head (by simp [Bencode.bStringFree, Option.mem_def.mp member])]
    exact stored.2 head member

theorem key_released {d : BDict} {key : BString} (target : Target none m (.dict d))
    (stored : StoredString m none key) (span : Span key.node m.mallocs (Bencode.bStringFree key))
    (low : d.node ≤ key.node)
    (apart : ∀ a ∈ Bencode.bDictFree d, a ∉ Bencode.bStringFree key) :
    bStringFree m (some key.node) = .done () (m.erase (Bencode.bStringFree key)) ∧
      Builds m (m.erase (Bencode.bStringFree key)) (.dict d) (.dict d) := by
  refine ⟨bStringFree_stored stored span.nodup, rfl, kept_erase span low, ?_, target.span,
    target.tidy.erase span⟩
  exact stored_congr _ (same_erase (fun _ _ => ⟨rfl, rfl⟩) apart) target.stored

-- A dictionary with the key that has been read for its next entry.
structure Keyed (m m' : Mem) (d : BDict) (key : BString) : Prop where
  built : Builds m m' (.dict d) (.dict d)
  older : Span d.node key.node (Bencode.bDictFree d)
  key : Target none m' (.string key)

namespace Keyed

variable {m₁ m₂ : Mem} {d : BDict} {key : BString}

theorem low (keyed : Keyed m m₁ d key) : d.node ≤ key.node :=
  (keyed.older.inside d.node (by simp [Bencode.bDictFree])).2.le

theorem apart (keyed : Keyed m m₁ d key) :
    ∀ a ∈ Bencode.bDictFree d, a ∉ Bencode.bStringFree key := by
  intro a inside member
  have := (keyed.older.inside a inside).2
  have := (keyed.key.span.inside a member).1
  simp only [node_string] at this
  omega

theorem stored (keyed : Keyed m m₁ d key) : StoredString m₁ none key := by
  simpa only [Stored] using keyed.key.stored

theorem kept (keyed : Keyed m m₁ d key) (kept : Kept m₁.mallocs m₁ m₂) (tidy : m₂.Tidy) :
    Keyed m m₂ d key where
  built := keyed.built.trans (keyed.built.target.builds kept tidy)
  older := keyed.older
  key := keyed.key.kept kept tidy

theorem released (keyed : Keyed m m₁ d key) :
    bStringFree m₁ (some key.node) = .done () (m₁.erase (Bencode.bStringFree key)) ∧
      Builds m (m₁.erase (Bencode.bStringFree key)) (.dict d) (.dict d) := by
  obtain ⟨frees, built⟩ := key_released keyed.built.target keyed.stored keyed.key.span keyed.low
    keyed.apart
  exact ⟨frees, keyed.built.trans built⟩

theorem gives (keyed : Keyed m m₁ d key) (kept : Kept m₁.mallocs m₁ m₂) :
    bStringFree m₂ (some key.node) = .done () (m₂.erase (Bencode.bStringFree key)) :=
  bStringFree_stored (storedString_congr (kept.same keyed.key.span) keyed.stored)
    keyed.key.span.nodup

theorem added (env : Env) (keyed : Keyed m m₁ d key) {head : Nat} (chars : key.head = some head)
    (node : v.node = m₁.mallocs) (kept : Kept m₁.mallocs m₁ m₂) (value : Target none m₂ v) :
    ∃ m₃, bStringGet m₂ key.node = .done (some head) m₂ ∧
      bDictAdd env m₂ v.node (some head) d.node v.tag = .done () m₃ ∧
      m₃.toSt = (Bencode.bDictAdd env m₂.toSt v key d).2 ∧
      bStringFree m₃ (some key.node) = .done () (m₃.erase (Bencode.bStringFree key)) ∧
      Builds m (m₃.erase (Bencode.bStringFree key)) (.dict d)
        (.dict (Bencode.bDictAdd env m₂.toSt v key d).1) := by
  have keyed₂ := keyed.kept kept value.tidy
  have text := keyed₂.stored
  have below (a : Nat) (member : a ∈ Bencode.bStringFree key) : key.node ≤ a ∧ a < v.node := by
    rw [node]
    exact keyed.key.span.inside a member
  have oldest := below key.node (by simp [Bencode.bStringFree])
  obtain ⟨m₃, adds, added⟩ := bDictAdd_correct env keyed₂.built.target.stored
    (keyed.older.mono le_rfl oldest.2.le) value (text.2 head chars)
    (below head (by simp [Bencode.bStringFree, chars])).2
  have text₃ : StoredString m₃ none key :=
    storedString_cells text fun a member => added.cells a (below a member).2
  have grown : Builds m₂ m₃ (.dict d) (.dict (Bencode.bDictAdd env m₂.toSt v key d).1) :=
    ⟨bDictAdd_node _ _ _ _, added.kept, added.target⟩
  obtain ⟨frees, built⟩ := key_released added.target text₃
    (keyed₂.key.span.mono le_rfl added.kept.more)
    (by rw [bDictAdd_node]; exact keyed.low) fun a member => by
      rcases added.blocks a member with old | new
      · exact keyed.apart a old
      · intro inside
        have := (below a inside).2
        omega
  refine ⟨m₃, ?_, adds, added.state, frees, (keyed₂.built.trans grown).trans built⟩
  simp only [bStringGet, text.1, chars]

end Keyed

theorem bDictLoop_refines (all : RefinesAll env fuel) :
    Refines .dict (Bencode.bDictLoop env (fuel + 1)) (bDictLoop env (fuel + 1)) := by
  intro m p d target
  rw [Bencode.bDictLoop, bDictLoop]
  cases env.load p with
  | none => exact .fault rfl
  | some c =>
    dsimp only
    split
    next => exact .done rfl ⟨rfl, target.builds_refl⟩
    next =>
      cases success : env.alloc m.mallocs with
      | false =>
        rw [if_pos rfl, (bStringAlloc_starts env).fails m success]
        exact .done rfl ⟨rfl, malloc_builds target⟩
      | true =>
        obtain ⟨m₁, got, state, kept, key⟩ := (bStringAlloc_starts env).gets m target.tidy success
        rw [if_neg (by simp), got]
        have parsed := (bStringParse_refines env m₁ p _ key).sat (bStringParse_head env _ p _)
        rw [state] at parsed
        refine parsed.andThen ?_
        rintro ⟨next, key⟩ _ m₂ ⟨⟨rfl, built⟩, head⟩
        have node : key.node = m.mallocs := built.node
        have kept₁ : Kept m.mallocs m m₂ := kept.trans built.kept
        have keyed : Keyed m m₂ d key :=
          ⟨target.builds kept₁ built.target.tidy, node ▸ target.span, built.target⟩
        cases next with
        | none =>
          obtain ⟨frees, whole⟩ := keyed.released
          rw [node] at frees
          simp only [frees, done_andThen]
          exact .done rfl ⟨rfl, whole⟩
        | some q =>
          dsimp only
          cases env.load q with
          | none => exact .fault rfl
          | some c =>
            dsimp only
            refine (parseElement_reads all (sameMessage_print _ _ _ _) built.target.tidy
              keyed.key.span keyed.key.low.le (fun m' kept => ?_) q c).andThen ?_
            · rw [← node]
              exact keyed.gives kept
            intro element element' m₃ reads
            cases reads with
            | skipped =>
              have after : Keyed m { m₂ with toSt := m₂.toSt.malloc env } d key :=
                keyed.kept ⟨Nat.le_succ _, fun _ _ => rfl, fun _ _ => rfl⟩ built.target.tidy.malloc
              obtain ⟨frees, whole⟩ := after.released
              simp only [node_dict, ← node, frees, done_andThen]
              exact all.dictLoop.resume whole q
            | rejected kept tidy =>
              have low : Kept m.mallocs m m₃ := (kept₁.trans (node ▸ kept))
              exact .done rfl ⟨rfl, target.builds low tidy⟩
            | parsed r v named kept value =>
              obtain ⟨head, chars⟩ := Option.isSome_iff_exists.mp (head rfl)
              obtain ⟨m₄, gets, adds, state, frees, whole⟩ :=
                keyed.added env chars named kept value
              simp only [node_dict, ← node, gets, adds, frees, done_andThen, ← state]
              exact all.dictLoop.resume whole r

theorem parse_refines (env : Env) (fuel : Nat) : RefinesAll env fuel := by
  induction fuel with
  | zero =>
    constructor
    all_goals
      intro m p x target
      simp only [Bencode.bListParse, Bencode.bListLoop, Bencode.bDictParse, Bencode.bDictLoop,
        bListParse, bListLoop, bDictParse, bDictLoop]
      exact .timeout rfl
  | succ fuel all =>
    exact ⟨bListParse_refines all, bListLoop_refines all, bDictParse_refines all,
      bDictLoop_refines all⟩

end Loops

section Heap

variable {m m₁ m₂ : Mem} {v v' : BValue}

theorem Builds.released (built : Builds m m₁ v v') :
    release m₁.fuel v'.tag m₁ (some v.node) = .done () (m₁.erase v'.free) := by
  rw [← built.node]
  exact release_target built.target

/-- The parsers on the heap end as those on trees do, whatever allocations fail. A tree that they
leave is linked together as it should be, and releasing it works. -/
theorem heap_parse_refines (env : Env) (fuel p : Nat) (m : Mem) :
    (∀ d, Target none m (.dict d) →
      Simulates Mem.toSt
        (fun r next m' => r.1 = next ∧ Kept d.node m m' ∧ Stored m' none (.dict r.2) ∧
          bDictFree m'.fuel m' (some d.node) = .done () (m'.erase (Bencode.bDictFree r.2)))
        (Bencode.bDictParse env fuel m.toSt p d) (bDictParse env fuel m p d.node)) ∧
    ∀ l, Target none m (.list l) →
      Simulates Mem.toSt
        (fun r next m' => r.1 = next ∧ Kept l.node m m' ∧ Stored m' none (.list r.2) ∧
          bListFree m'.fuel m' (some l.node) = .done () (m'.erase (Bencode.bListFree r.2)))
        (Bencode.bListParse env fuel m.toSt p l) (bListParse env fuel m p l.node) := by
  have all := parse_refines env fuel
  refine ⟨fun d target => ?_, fun l target => ?_⟩
  · exact (all.dict m p d target).mono fun _ _ _ related =>
      ⟨related.1, related.2.kept, related.2.target.stored, related.2.released⟩
  · exact (all.list m p l target).mono fun _ _ _ related =>
      ⟨related.1, related.2.kept, related.2.target.stored, related.2.released⟩

def Mem.empty : Mem where
  toSt := ⟨⟨0, 0, 0⟩, [], []⟩
  cells _ := none
  links _ := ⟨0, 0⟩

theorem empty_tidy : Mem.empty.Tidy := ⟨fun _ _ => rfl, by simp [Mem.empty], by simp [Mem.empty]⟩

theorem heap_parse_refines_of_entry :
    let env : Env := .plentiful (ascii "d1:ai5ee")
    let m := (bDictAlloc env .empty).2
    ∃ m' d', bDictParse env 3 m 0 0 = .done (some 8) m' ∧ Stored m' none (.dict d') ∧
      bDictFree m'.fuel m' (some 0) = .done () (m'.erase (Bencode.bDictFree d')) := by
  intro env m
  obtain ⟨m₁, got, -, -, target⟩ := (bDictAlloc_starts env).gets .empty empty_tidy rfl
  obtain rfl : m = m₁ := congrArg Prod.snd got
  have refines := (heap_parse_refines env 3 0 m).1 (Bencode.bDictAlloc 0) target
  have accepted : acceptedAt (Bencode.bDictParse env 3 m.toSt 0 (Bencode.bDictAlloc 0)) = some 8 := by
    decide +kernel
  obtain ⟨d', st', result⟩ := acceptedAt_some accepted
  rw [result] at refines
  obtain ⟨_, m', parsed, rfl, -, stored, frees⟩ := refines.returns
  exact ⟨m', d', parsed, stored, frees⟩

theorem released_cells (tidy : m.Tidy) (kept : Kept m.mallocs m m₂) {blocks : List Nat}
    (state : m₁.mallocs = m.mallocs + 1) (span : Span m.mallocs m₂.mallocs blocks) (tidy₂ : m₂.Tidy)
    (balanced : Heap.Balanced m₁.toSt.heap m₂.toSt.heap [m.mallocs] blocks) (a : Nat) :
    (m₂.erase blocks).cells a = m.cells a := by
  rw [erase_cells]
  by_cases low : a < m.mallocs
  · have older : a ∉ blocks := fun member => absurd (span.inside a member).1 (Nat.not_le.mpr low)
    rw [Cells.erase_other older, kept.cells a low]
  rw [tidy.beyond a (Nat.not_lt.mp low)]
  by_cases held : a ∈ blocks
  · exact Cells.erase_mem held
  rw [Cells.erase_other held]
  by_cases high : m₂.mallocs ≤ a
  · exact tidy₂.beyond a high
  · -- The block was handed out and is not held any more.
    have accounted : a ∈ m₂.freed ++ blocks := by
      refine (balanced.mem_iff a).mpr ?_
      by_cases first : a = m.mallocs
      · simp [first]
      · refine .inr ⟨?_, Nat.not_le.mp high⟩
        change m₁.mallocs ≤ a
        omega
    exact tidy₂.dead a ((List.mem_append.mp accounted).resolve_right held)

theorem parsed_restores {α : Type} {env : Env} {wrap : α → BValue} {init : Nat → α} {type : Tag}
    {alloc : Mem → Option Nat × Mem} {parse : St → Nat → α → Outcome St (Option Nat × α)}
    {parse' : Mem → Nat → Nat → Outcome Mem (Option Nat)} {p node : Nat} {next : Option Nat}
    (starts : Starts env alloc fun node => wrap (init node)) (refines : Refines wrap parse parse')
    (named : ∀ node, (wrap (init node)).node = node) (tag : ∀ x, (wrap x).tag = type)
    (owns : ∀ st node, (parse st p (init node)).Sat (keeping st [node] fun x => (wrap x).free))
    (mallocs : Allocates env) (tidy : m.Tidy) (allocated : alloc m = (some node, m₁))
    (parsed : parse' m₁ p node = .done next m₂) :
    ∃ m₃, release m₂.fuel type m₂ (some node) = .done () m₃ ∧ ∀ a, m₃.cells a = m.cells a := by
  obtain ⟨m₀, got, state, older, target⟩ := starts.gets m tidy (mallocs _)
  rw [allocated] at got
  obtain ⟨rfl, rfl⟩ : node = m.mallocs ∧ m₁ = m₀ := by simpa using got
  have result := refines m₁ p _ target
  rw [named, parsed] at result
  obtain ⟨⟨_, x⟩, returned, rfl, built⟩ := result.returned
  have balanced := owns m₁.toSt m.mallocs
  rw [returned] at balanced
  have frees := built.released
  have kept := built.kept
  have span := built.target.span
  rw [named, tag] at frees
  rw [named] at kept
  rw [built.node, named] at span
  have count : m₁.mallocs = m.mallocs + 1 := congrArg (fun st : St => st.mallocs) state
  exact ⟨_, frees, released_cells tidy (older.trans kept) count span built.target.tidy balanced⟩

/-- Where every allocation succeeds, a parse and the release of its result leave the heap as it
was, whether or not the text was accepted. -/
theorem parse_then_free_restores (env : Env) (mallocs : Allocates env) (m : Mem) (tidy : m.Tidy)
    (fuel p : Nat) (next : Option Nat) (node : Nat) (m₁ m₂ : Mem) :
    (bDictAlloc env m = (some node, m₁) → bDictParse env fuel m₁ p node = .done next m₂ →
      ∃ m₃, bDictFree m₂.fuel m₂ (some node) = .done () m₃ ∧ ∀ a, m₃.cells a = m.cells a) ∧
    (bListAlloc env m = (some node, m₁) → bListParse env fuel m₁ p node = .done next m₂ →
      ∃ m₃, bListFree m₂.fuel m₂ (some node) = .done () m₃ ∧ ∀ a, m₃.cells a = m.cells a) := by
  have all := parse_refines env fuel
  have owns := parse_owns mallocs fuel
  constructor
  · exact parsed_restores (bDictAlloc_starts env) all.dict (fun _ => rfl) (fun _ => rfl)
      (fun st node => owns.dict st p (Bencode.bDictAlloc node)) mallocs tidy
  · exact parsed_restores (bListAlloc_starts env) all.list (fun _ => rfl) (fun _ => rfl)
      (fun st node => owns.list st p (Bencode.bListAlloc node)) mallocs tidy

theorem parse_then_free_restores_empty :
    let env : Env := .plentiful (ascii "l1:ai5ee")
    let m := (bListAlloc env .empty).2
    ∃ m₂ m₃, bListParse env 4 m 0 0 = .done (some 8) m₂ ∧
      bListFree m₂.fuel m₂ (some 0) = .done () m₃ ∧ ∀ a, m₃.cells a = none := by
  intro env m
  obtain ⟨m₁, got, -, -, target⟩ := (bListAlloc_starts env).gets .empty empty_tidy rfl
  obtain rfl : m = m₁ := congrArg Prod.snd got
  have refines := (parse_refines env 4).list m 0 (Bencode.bListAlloc 0) target
  have accepted : acceptedAt (Bencode.bListParse env 4 m.toSt 0 (Bencode.bListAlloc 0)) = some 8 := by
    decide +kernel
  obtain ⟨l, st, result⟩ := acceptedAt_some accepted
  rw [result] at refines
  obtain ⟨_, m₂, parsed, rfl, -⟩ := refines.returns
  obtain ⟨m₃, frees, restored⟩ := (parse_then_free_restores env (fun _ => rfl) .empty empty_tidy 4 0
    (some 8) 0 m m₂).2 got parsed
  exact ⟨m₂, m₃, parsed, frees, restored⟩

end Heap

end BTServer.Bencode.Pointer
