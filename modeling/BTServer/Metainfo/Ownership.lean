import BTServer.Metainfo.Transfer

set_option autoImplicit false

namespace BTServer.Metainfo

open Bencode CString Heap Outcome

def released (files : Nat) : List Slot :=
  [.announce, .comment, .commentUtf8, .announceList, .pieceHash, .private_, .name, .nameUtf8,
    .md5sum, .publisher, .publisherUtf8, .publisherUrl, .publisherUrl] ++
    (List.range files).flatMap (fun file => [.path file, .pathUtf8 file]) ++ [.dirName]

theorem flatMap_range {α β : Type} (xs : List α) (f : Option α → List β) :
    (List.range xs.length).flatMap (fun k => f xs[k]?) = xs.flatMap fun x => f (some x) := by
  have lookup : (List.range xs.length).map (fun k => xs[k]?) = xs.map some := by
    apply List.ext_getElem <;> simp
  calc (List.range xs.length).flatMap (fun k => f xs[k]?)
      = ((List.range xs.length).map fun k => xs[k]?).flatMap f := by rw [List.flatMap_map]
    _ = xs.flatMap fun x => f (some x) := by rw [lookup, List.flatMap_map]

theorem multiFilesFree_perm (files : List MultiFiles) :
    (files.flatMap multiFilesFree).Perm
      (files.flatMap (fun file => listFree file.path ++ listFree file.pathUtf8) ++
        files.map MultiFiles.node) := by
  induction files with
  | nil => exact .refl _
  | cons file files ih =>
    rw [List.perm_iff_count] at ih ⊢
    intro block
    have rest := ih block
    simp only [List.flatMap_cons, List.map_cons, multiFilesFree, List.count_append,
      List.count_cons, List.count_nil] at rest ⊢
    omega

theorem torrentMembersFree_perm (t : Torrent) :
    (torrentMembersFree t).Perm ((released (fileCount t)).flatMap (held t) ++ nodes t) := by
  have files := multiFilesFree_perm t.info.multi.filesList
  have ranged := flatMap_range t.info.multi.filesList fun file =>
    listFree (file.bind MultiFiles.path) ++ listFree (file.bind MultiFiles.pathUtf8)
  simp only [Option.bind_some] at ranged
  rw [← ranged] at files
  rw [List.perm_iff_count] at files ⊢
  intro block
  have inner := files block
  simp only [torrentMembersFree, torrentInfoFree, infoMultiFilesFree, released, fileCount, nodes,
    held, List.flatMap_append, List.flatMap_cons, List.flatMap_nil, List.flatMap_assoc,
    List.append_nil, List.count_append] at inner ⊢
  omega

theorem count_paths (files : Nat) (slot : Slot) :
    ((List.range files).flatMap fun file => [Slot.path file, .pathUtf8 file]).count slot =
      match slot with
      | .path file | .pathUtf8 file => if file < files then 1 else 0
      | _ => 0 := by
  induction files with
  | zero => cases slot <;> rfl
  | succ files ih =>
    rw [List.range_succ, List.flatMap_append, List.count_append, ih]
    cases slot with
    | path file | pathUtf8 file =>
      simp only [List.flatMap_cons, List.flatMap_nil, List.append_nil, List.count_cons,
        List.count_nil, beq_iff_eq, Slot.path.injEq, Slot.pathUtf8.injEq, reduceCtorEq, if_false]
      split <;> split <;> split <;> omega
    | _ => rfl

theorem released_count (files : Nat) (slot : Slot) :
    (released files).count slot =
      match slot with
      | .createBy | .publisherUrlUtf8 => 0
      | .publisherUrl => 2
      | .path file | .pathUtf8 file => if file < files then 1 else 0
      | _ => 1 := by
  rw [released, List.count_append, List.count_append, count_paths]
  cases slot with
  | path file | pathUtf8 file => simp
  | _ => rfl

theorem lookup_mem {α β : Type} [BEq α] [LawfulBEq α] {key : α} {x : β} {table : List (α × β)}
    (found : table.lookup key = some x) : (key, x) ∈ table := by
  obtain ⟨front, back, rfl, -⟩ := List.lookup_eq_some_iff.mp found
  simp

theorem filesSlots_bounds {file : Nat} {files : List (List (Bytes × Value))} {slot : Slot}
    (member : slot ∈ filesSlots file files) :
    ∃ k, k < file + files.length ∧ (slot = .path k ∨ slot = .pathUtf8 k) := by
  induction files generalizing file with
  | nil => simp [filesSlots] at member
  | cons es files ih =>
    rw [filesSlots, List.mem_append] at member
    rcases member with here | later
    · obtain ⟨⟨key, v⟩, -, stored⟩ := List.mem_filterMap.mp here
      refine ⟨file, by simp, ?_⟩
      cases v with
      | list vs =>
        have entry := lookup_mem stored
        simp only [List.mem_cons, Prod.mk.injEq, List.not_mem_nil, or_false] at entry
        exact entry.imp And.right And.right
      | _ => simp [fileSlot] at stored
    · obtain ⟨k, bound, shape⟩ := ih later
      exact ⟨k, by rw [List.length_cons]; omega, shape⟩

theorem topSlot_single {entry : Bytes × Value} {slot : Slot} (stored : topSlot entry = some slot)
    (files : Nat) : slot = .createBy ∨ (released files).count slot = 1 := by
  obtain ⟨key, v⟩ := entry
  rw [released_count]
  cases v with
  | str data len =>
    have member := lookup_mem stored
    simp only [List.mem_cons, Prod.mk.injEq, List.not_mem_nil, or_false] at member
    rcases member with ⟨-, rfl⟩ | ⟨-, rfl⟩ | ⟨-, rfl⟩ | ⟨-, rfl⟩ <;> simp
  | list vs =>
    have member := lookup_mem stored
    simp only [List.mem_cons, Prod.mk.injEq, List.not_mem_nil, or_false] at member
    rw [member.2]
    simp
  | _ => simp [topSlot] at stored

theorem infoSlot_single {entry : Bytes × Value} {slot : Slot} (stored : infoSlot entry = some slot)
    (files : Nat) :
    slot = .publisherUrl ∨ slot = .publisherUrlUtf8 ∨ (released files).count slot = 1 := by
  obtain ⟨key, v⟩ := entry
  rw [released_count]
  cases v with
  | str data len =>
    have member := lookup_mem stored
    simp only [List.mem_cons, Prod.mk.injEq, List.not_mem_nil, or_false] at member
    rcases member with ⟨-, rfl⟩ | ⟨-, rfl⟩ | ⟨-, rfl⟩ | ⟨-, rfl⟩ | ⟨-, rfl⟩ | ⟨-, rfl⟩ | ⟨-, rfl⟩ |
      ⟨-, rfl⟩ | ⟨-, rfl⟩ <;> simp
  | _ => simp [infoSlot] at stored

/-- No two entries are stored to one member, and none to a member that `torrent_free` does not
release exactly once. -/
structure SingleOwner (es : List (Bytes × Value)) : Prop where
  distinct : (slots 0 es).Nodup
  createBy : .createBy ∉ slots 0 es
  publisherUrl : .publisherUrl ∉ slots 0 es
  publisherUrlUtf8 : .publisherUrlUtf8 ∉ slots 0 es

theorem singleOwner_iff (es : List (Bytes × Value)) :
    SingleOwner es ↔ (slots 0 es).Nodup ∧ ∀ slot ∈ slots 0 es,
      (released ((es.flatMap infoOf).flatMap filesOf).length).count slot = 1 := by
  constructor
  · intro owner
    refine ⟨owner.distinct, fun slot member => ?_⟩
    have place := member
    rw [slots, infoSlots, List.mem_append, List.mem_append] at place
    rcases place with top | info | files
    · obtain ⟨entry, -, stored⟩ := List.mem_filterMap.mp top
      rcases topSlot_single stored _ with rfl | single
      · exact absurd member owner.createBy
      · exact single
    · obtain ⟨entry, -, stored⟩ := List.mem_filterMap.mp info
      rcases infoSlot_single stored _ with rfl | rfl | single
      · exact absurd member owner.publisherUrl
      · exact absurd member owner.publisherUrlUtf8
      · exact single
    · obtain ⟨k, bound, shape⟩ := filesSlots_bounds files
      rw [Nat.zero_add] at bound
      rcases shape with rfl | rfl
      · exact (released_count _ _).trans (if_pos bound)
      · exact (released_count _ _).trans (if_pos bound)
  · rintro ⟨distinct, each⟩
    constructor
    · exact distinct
    · intro member
      simpa [released_count] using each _ member
    · intro member
      simpa [released_count] using each _ member
    · intro member
      simpa [released_count] using each _ member

def start (errno : Int) : St := { errno, ints := 0, mallocs := 0, freed := [], trace := [] }

def ReleasesOnce (st : St) (run : Outcome St Unit) : Prop :=
  ∃ st', run = .done () st' ∧ Balanced st.heap st'.heap [] []

-- The torrent and its dictionary are allocated.
def opened (env : Env) (st : St) : St := (st.malloc env).malloc env

theorem torrentAlloc_empty {env : Env} (mallocs : Allocates env) (st : St) :
    ∃ t, torrentAlloc env st = (some t, st.malloc env) ∧ held t = (fun _ => []) ∧
      nodes t = [st.mallocs] ∧ fileCount t = 0 := by
  refine ⟨_, if_pos (mallocs _), ?_, rfl, rfl⟩
  funext slot
  cases slot <;> rfl

theorem torrentRun_accepted {env : Env} (mallocs : Allocates env) {errno : Int} {fuel q : Nat}
    {d : BDict} {after : St} {t : Torrent}
    (alloc : torrentAlloc env (start errno) = (some t, (start errno).malloc env))
    (accepted : bDictParse env fuel (opened env (start errno)) 0 (bDictAlloc 1) =
      .done (some q, d) after) :
    torrentRun env fuel (start errno) =
      .done () (torrentFree ((forEach (torrentEntry env) after t d.entries).st.free
        (bDictFree { d with entries := (forEach (torrentEntry env) after t d.entries).entry }))
        (some (forEach (torrentEntry env) after t d.entries).target)) := by
  rw [torrentRun, alloc]
  dsimp only
  rw [torrentParse, if_pos (mallocs _)]
  change ((bDictParse env fuel (opened env (start errno)) 0
    (bDictAlloc 1)).andThen _).andThen _ = _
  rw [accepted]
  rfl

theorem parsed_balanced {env : Env} (mallocs : Allocates env) {errno : Int} {fuel q : Nat}
    {d : BDict} {after : St} {t : Torrent} (node : nodes t = [0])
    (accepted : bDictParse env fuel (opened env (start errno)) 0 (bDictAlloc 1) =
      .done (some q, d) after) :
    Balanced (start errno).heap after.heap [] (bDictFree d ++ nodes t) := by
  have owns := (parse_owns mallocs fuel).dict (opened env (start errno)) 0 (bDictAlloc 1)
  rw [accepted] at owns
  have both := (balanced_malloc (start errno).heap []).trans
    (balanced_malloc ((start errno).malloc env).heap [0])
  apply both.trans
  apply (Balanced.frame owns [0]).congr (.refl _)
  rw [node]
  exact List.perm_append_comm

theorem releasesOnce_iff {st last : St} {d : BDict} {t : Torrent} :
    ReleasesOnce st (.done () (torrentFree (last.free (bDictFree d)) (some t))) ↔
      Balanced st.heap (last.heap.free (bDictFree d ++ torrentMembersFree t)) [] [] := by
  have joined : (torrentFree (last.free (bDictFree d)) (some t)).heap =
      last.heap.free (bDictFree d ++ torrentMembersFree t) := by
    simp [torrentFree, Heap.free]
  rw [← joined, ReleasesOnce]
  constructor
  · rintro ⟨st', same, balanced⟩
    cases same
    exact balanced
  · intro balanced
    exact ⟨_, rfl, balanced⟩

theorem members_released_iff {t : Torrent} {files : Nat} {moves : List (Slot × List Nat)}
    (count : fileCount t = files) (stored : held t = store (fun _ => []) moves) :
    (torrentMembersFree t).Perm (nodes t ++ moves.flatMap Prod.snd) ↔
      ((released files).flatMap (store (fun _ => []) moves)).Perm (moves.flatMap Prod.snd) := by
  have freed := torrentMembersFree_perm t
  rw [count, stored] at freed
  constructor
  · intro all
    have both := freed.symm.trans (all.trans List.perm_append_comm)
    exact (List.perm_append_right_iff _).mp both
  · intro same
    exact freed.trans ((same.append_right _).trans List.perm_append_comm)

theorem releases_once_iff_single {env : Env} (mallocs : Allocates env) {errno : Int}
    {fuel q : Nat} {d : BDict} {after : St}
    (accepted : bDictParse env fuel (opened env (start errno)) 0 (bDictAlloc 1) =
      .done (some q, d) after) :
    ReleasesOnce (start errno) (torrentRun env fuel (start errno)) ↔
      SingleOwner (eraseEntries d.entries) := by
  obtain ⟨t, alloc, empty, node, noFiles⟩ := torrentAlloc_empty mallocs (start errno)
  rw [torrentRun_accepted mallocs alloc accepted, releasesOnce_iff]
  obtain ⟨-, count, moves, order, solid, stored, carried⟩ := torrent_carried mallocs after t d
  generalize forEach (torrentEntry env) after t d.entries = result at *
  have whole := (parsed_balanced mallocs node accepted).trans carried
  rw [noFiles] at order
  rw [noFiles, Nat.zero_add] at count
  rw [empty] at stored
  have distinct : (moves.flatMap Prod.snd).Nodup := by
    obtain ⟨n, -, perm⟩ := whole
    have all : (List.range' (start errno).heap.mallocs n).Nodup := List.nodup_range'
    have kept := (perm.nodup_iff.mpr (by simpa [start, St.heap] using all)).of_append_right
    exact kept.of_append_right
  rw [balanced_free_iff whole, List.append_assoc, List.perm_append_left_iff,
    members_released_iff count stored, release_once_iff _ distinct solid, order.nodup_iff,
    singleOwner_iff]
  simp only [order.mem_iff]

theorem torrent_ownership_iff (env : Env) (errno : Int) (fuel q : Nat) (d : BDict) (after : St)
    (mallocs : Allocates env)
    (accepted : bDictParse env fuel (opened env (start errno)) 0 (bDictAlloc 1) =
      .done (some q, d) after) :
    ReleasesOnce (start errno) (torrentRun env fuel (start errno)) ↔
      ∀ es, Holds env (opened env (start errno)).toScan es → SingleOwner es := by
  have content := holds_of_accepted accepted
  rw [releases_once_iff_single mallocs accepted]
  constructor
  · intro owner es holds
    rw [← holds_unique content holds]
    exact owner
  · intro owner
    exact owner _ content

theorem torrent_ownership_announce :
    ∃ fuel, ReleasesOnce (start 0)
      (torrentRun (.plentiful (ascii "d8:announce1:ae")) fuel (start 0)) := by
  have mallocs : Allocates (.plentiful (ascii "d8:announce1:ae")) := fun _ => rfl
  have storable : StorableEntries [(ascii "announce", .str (ascii "a") 1)] := by
    simp [StorableEntries, Storable, ascii, keyLen]
  obtain ⟨s', reads⟩ := encEntries_reads mallocs _ (storable_parsable_entries _ storable)
    (opened (.plentiful (ascii "d8:announce1:ae")) (start 0)).toScan rfl
  have holds : Holds (.plentiful (ascii "d8:announce1:ae")) (opened _ (start 0)).toScan
      [(ascii "announce", .str (ascii "a") 1)] :=
    ⟨_, [], s', by decide, reads⟩
  obtain ⟨enough, parses⟩ := accepted_of_holds holds
  obtain ⟨q, d, after, accepted, -⟩ := parses enough le_rfl 1
  refine ⟨enough, (torrent_ownership_iff _ 0 enough q d after mallocs accepted).mpr ?_⟩
  intro es content
  rw [← holds_unique holds content]
  exact ⟨by decide, by decide, by decide, by decide⟩

def allocatedAndFreed : Outcome St Unit → Nat × Nat
  | .done _ st => (st.mallocs, st.freed.length)
  | .fault st | .crash st | .timeout st => (st.mallocs, st.freed.length)

theorem releasesOnce_counts {errno : Int} {run : Outcome St Unit}
    (once : ReleasesOnce (start errno) run) :
    (allocatedAndFreed run).1 = (allocatedAndFreed run).2 := by
  obtain ⟨st', rfl, n, count, perm⟩ := once
  have length := perm.length_eq
  simp only [start, St.heap, List.append_nil, List.nil_append, List.length_range'] at count length
  simp only [allocatedAndFreed]
  omega

/-- Nothing releases the string that `create by` has moved to the torrent. -/
theorem create_by_is_lost :
    acceptedAt (bDictParse (.plentiful (ascii "d9:create by1:xe")) 5
      (opened (.plentiful (ascii "d9:create by1:xe")) (start 0)) 0 (bDictAlloc 1)) = some 16 ∧
    ¬ ReleasesOnce (start 0)
      (torrentRun (.plentiful (ascii "d9:create by1:xe")) 5 (start 0)) := by
  constructor
  · decide +kernel
  · intro once
    exact absurd (releasesOnce_counts once) (by decide +kernel)

end BTServer.Metainfo
