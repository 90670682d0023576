import BTServer.Metainfo.Slots

set_option autoImplicit false

namespace BTServer.Metainfo

open Bencode CString Heap

def entryContent (e : DEntry BValue) : List (Bytes × Value) := eraseVal e.key e.val

def entryFree (e : DEntry BValue) : List Nat := valFree e.val ++ [e.node]

def itemFree (e : LEntry BValue) : List Nat := e.entry.free ++ [e.node]

theorem eraseEntries_flatMap (es : List (DEntry BValue)) :
    eraseEntries es = es.flatMap entryContent := by
  induction es with
  | nil => rfl
  | cons e es ih => rw [eraseEntries, ih]; rfl

theorem dEntriesFree_flatMap (es : List (DEntry BValue)) :
    dEntriesFree es = es.flatMap entryFree := by
  induction es with
  | nil => rfl
  | cons e es ih => rw [dEntriesFree, ih]; rfl

theorem eraseItems_flatMap (es : List (LEntry BValue)) :
    eraseItems es = es.flatMap fun e => [e.entry.erase] := by
  induction es with
  | nil => rfl
  | cons e es ih => rw [eraseItems, ih]; rfl

theorem lEntriesFree_flatMap (es : List (LEntry BValue)) :
    lEntriesFree es = es.flatMap itemFree := by
  induction es with
  | nil => rfl
  | cons e es ih => rw [lEntriesFree, ih]; rfl

theorem entryAt_some {α : Type} {type : BValue → Option α} {vec : DEntry BValue} {key : String}
    {x : α} (found : entryAt type vec key = some x) :
    vec.key = ascii key ∧ ∃ v, vec.val = some v ∧ type v = some x := by
  unfold entryAt at found
  split at found
  next same => exact ⟨same, Option.bind_eq_some_iff.mp found⟩
  next => simp at found

theorem entryAt_missing {α : Type} {type : BValue → Option α} {vec : DEntry BValue} {key : String}
    {v : BValue} {x : α} (missing : ∀ x, entryAt type vec key = some x → False)
    (val : vec.val = some v) (typed : type v = some x) : (vec.key == ascii key) = false := by
  apply beq_false_of_ne
  intro same
  apply missing x
  simp [entryAt, same, val, typed]

theorem stringAt_some {vec : DEntry BValue} {key : String} {s : BString}
    (found : stringAt vec key = some s) : vec.key = ascii key ∧ vec.val = some (.string s) := by
  obtain ⟨same, v, val, typed⟩ := entryAt_some found
  cases v <;> simp_all [asString]

theorem intAt_some {vec : DEntry BValue} {key : String} {i : BInt}
    (found : intAt vec key = some i) : vec.key = ascii key ∧ vec.val = some (.int i) := by
  obtain ⟨same, v, val, typed⟩ := entryAt_some found
  cases v <;> simp_all [asInt]

theorem listAt_some {vec : DEntry BValue} {key : String} {l : BList}
    (found : listAt vec key = some l) : vec.key = ascii key ∧ vec.val = some (.list l) := by
  obtain ⟨same, v, val, typed⟩ := entryAt_some found
  cases v <;> simp_all [asList]

theorem dictAt_some {vec : DEntry BValue} {key : String} {d : BDict}
    (found : dictAt vec key = some d) : vec.key = ascii key ∧ vec.val = some (.dict d) := by
  obtain ⟨same, v, val, typed⟩ := entryAt_some found
  cases v <;> simp_all [asDict]

theorem files_missing {vec : DEntry BValue}
    (missing : ∀ l, listAt vec "files" = some l → False) :
    (entryContent vec).flatMap filesOf = [] := by
  cases val : vec.val with
  | none => simp [entryContent, val, eraseVal]
  | some v =>
    cases v with
    | list l =>
      have other := entryAt_missing missing val rfl
      simp [entryContent, val, eraseVal, BValue.erase, filesOf, ne_of_beq_false other]
    | _ => simp [entryContent, val, eraseVal, BValue.erase, filesOf]

theorem info_missing {vec : DEntry BValue}
    (missing : ∀ d, dictAt vec "info" = some d → False) :
    (entryContent vec).flatMap infoOf = [] := by
  cases val : vec.val with
  | none => simp [entryContent, val, eraseVal]
  | some v =>
    cases v with
    | dict d =>
      have other := entryAt_missing missing val rfl
      simp [entryContent, val, eraseVal, BValue.erase, infoOf, ne_of_beq_false other]
    | _ => simp [entryContent, val, eraseVal, BValue.erase, infoOf]

section Branch

variable (members : List (Bytes × Value) → List Slot) (files : List (Bytes × Value) → Nat)
  {st : St} {t t' : Torrent} {vec : DEntry BValue} {key : String} {slot : Slot} {v : BValue}

theorem value_moved (entry : vec.key = ascii key ∧ vec.val = some v)
    (member : members [(ascii key, v.erase)] = [slot]) (noFiles : files [(ascii key, v.erase)] = 0)
    (stored : held t' = Function.update (held t) slot v.free) (counted : nodes t' = nodes t)
    (same : fileCount t' = fileCount t) :
    Carried (members (entryContent vec)) (files (entryContent vec)) st st t t' (entryFree vec)
      (entryFree (moved vec)) := by
  obtain ⟨name, val⟩ := entry
  have content : entryContent vec = [(ascii key, v.erase)] := by
    simp [entryContent, name, val, eraseVal]
  have blocks : entryFree vec = v.free ++ [vec.node] := by
    simp [entryFree, val, valFree]
  rw [content, member, noFiles, blocks]
  exact carried_move vec.node stored counted same

theorem value_copied (entry : vec.key = ascii key ∧ vec.val = some v)
    (member : members [(ascii key, v.erase)] = []) (noFiles : files [(ascii key, v.erase)] = 0)
    (unchanged : held t' = held t) (counted : nodes t' = nodes t)
    (same : fileCount t' = fileCount t) :
    Carried (members (entryContent vec)) (files (entryContent vec)) st st t t' (entryFree vec)
      (entryFree vec) := by
  obtain ⟨name, val⟩ := entry
  have content : entryContent vec = [(ascii key, v.erase)] := by
    simp [entryContent, name, val, eraseVal]
  rw [content, member, noFiles]
  exact carried_same unchanged counted same

theorem value_ignored (member : members (entryContent vec) = [])
    (noFiles : files (entryContent vec) = 0) :
    Carried (members (entryContent vec)) (files (entryContent vec)) st st t t (entryFree vec)
      (entryFree vec) := by
  rw [member, noFiles]
  exact carried_same rfl rfl rfl

end Branch

theorem getElem?_concat {α β : Type} (xs : List α) (x : α) (f : α → Option β) (k : Nat) :
    (xs ++ [x])[k]?.bind f = if k = xs.length then f x else xs[k]?.bind f := by
  by_cases last : k = xs.length
  next => simp [last]
  next =>
    rw [if_neg last]
    rcases Nat.lt_or_gt_of_ne last with before | behind
    · rw [List.getElem?_append_left before]
    · rw [List.getElem?_eq_none (by simp; omega), List.getElem?_eq_none (by omega)]

def withFile (t : Torrent) (info : TorrentInfo) (multi : InfoMultiFile) (ptr : MultiFiles) :
    Torrent :=
  { t with info := { info with multi := multiFilesAdd ptr multi } }

theorem held_withFile_path (t : Torrent) (info : TorrentInfo) (multi : InfoMultiFile)
    (ptr : MultiFiles) (l : BList) :
    held (withFile t info multi { ptr with path := some l }) =
      Function.update (held (withFile t info multi ptr)) (.path multi.filesList.length)
        (bListFree l) := by
  funext slot
  cases slot with
  | path k =>
    by_cases last : k = multi.filesList.length <;>
      simp [held, withFile, multiFilesAdd, getElem?_concat, Function.update, last, listFree]
  | pathUtf8 k => simp [held, withFile, multiFilesAdd, getElem?_concat]
  | _ => rfl

theorem held_withFile_pathUtf8 (t : Torrent) (info : TorrentInfo) (multi : InfoMultiFile)
    (ptr : MultiFiles) (l : BList) :
    held (withFile t info multi { ptr with pathUtf8 := some l }) =
      Function.update (held (withFile t info multi ptr)) (.pathUtf8 multi.filesList.length)
        (bListFree l) := by
  funext slot
  cases slot with
  | path k => simp [held, withFile, multiFilesAdd, getElem?_concat]
  | pathUtf8 k =>
    by_cases last : k = multi.filesList.length <;>
      simp [held, withFile, multiFilesAdd, getElem?_concat, Function.update, last, listFree]
  | _ => rfl

theorem held_withFile_length (t : Torrent) (info : TorrentInfo) (multi : InfoMultiFile)
    (ptr : MultiFiles) (n : UInt64) :
    held (withFile t info multi { ptr with length := n }) = held (withFile t info multi ptr) := by
  funext slot
  cases slot with
  | path k => simp [held, withFile, multiFilesAdd, getElem?_concat]
  | pathUtf8 k => simp [held, withFile, multiFilesAdd, getElem?_concat]
  | _ => rfl

theorem multiFilesEntry_carried (t : Torrent) (info : TorrentInfo) (multi : InfoMultiFile)
    (st : St) (ptr : MultiFiles) (vec : DEntry BValue) :
    (multiFilesEntry st ptr vec).status = 0 ∧
      Carried ((entryContent vec).filterMap (fileSlot multi.filesList.length)) 0 st
        (multiFilesEntry st ptr vec).st (withFile t info multi ptr)
        (withFile t info multi (multiFilesEntry st ptr vec).target) (entryFree vec)
        (entryFree (multiFilesEntry st ptr vec).entry) := by
  have nodes_kept (ptr' : MultiFiles) (same : ptr'.node = ptr.node) :
      nodes (withFile t info multi ptr') = nodes (withFile t info multi ptr) := by
    simp [nodes, withFile, multiFilesAdd, same]
  have count (ptr' : MultiFiles) :
      fileCount (withFile t info multi ptr') = fileCount (withFile t info multi ptr) := by
    simp [fileCount, withFile, multiFilesAdd]
  unfold multiFilesEntry
  split
  next l found =>
    exact ⟨rfl, value_moved (List.filterMap _) (fun _ => 0) (listAt_some found) rfl rfl
      (held_withFile_path t info multi ptr l) (nodes_kept _ rfl) (count _)⟩
  split
  next l found =>
    exact ⟨rfl, value_moved (List.filterMap _) (fun _ => 0) (listAt_some found) rfl rfl
      (held_withFile_pathUtf8 t info multi ptr l) (nodes_kept _ rfl) (count _)⟩
  split
  next i found =>
    exact ⟨rfl, value_copied (List.filterMap _) (fun _ => 0) (intAt_some found) rfl rfl
      (held_withFile_length t info multi ptr _) (nodes_kept _ rfl) (count _)⟩
  next _ noPath _ noPathUtf8 _ _ =>
    refine ⟨rfl, value_ignored (List.filterMap _) (fun _ => 0) ?_ rfl⟩
    cases val : vec.val with
    | none => simp [entryContent, val, eraseVal]
    | some v =>
      cases v with
      | list l =>
        have other (key : String) (missing : ∀ l, listAt vec key = some l → False) :
            (vec.key == ascii key) = false := entryAt_missing missing val rfl
        simp [entryContent, val, eraseVal, BValue.erase, fileSlot, List.lookup_cons,
          other "path" noPath, other "path.utf-8" noPathUtf8]
      | _ => simp [entryContent, val, eraseVal, BValue.erase, fileSlot]

theorem held_withFile_new (t : Torrent) (info : TorrentInfo) (multi : InfoMultiFile)
    (node : Nat) :
    held (withFile t info multi { node, length := 0, path := none, pathUtf8 := none }) =
      held { t with info := { info with multi } } := by
  have past : multi.filesList[multi.filesList.length]? = none := List.getElem?_eq_none le_rfl
  funext slot
  cases slot with
  | path k =>
    by_cases last : k = multi.filesList.length <;>
      simp [held, withFile, multiFilesAdd, getElem?_concat, last]
  | pathUtf8 k =>
    by_cases last : k = multi.filesList.length <;>
      simp [held, withFile, multiFilesAdd, getElem?_concat, last]
  | _ => rfl

theorem carried_file (env : Env) (t : Torrent) (info : TorrentInfo) (multi : InfoMultiFile)
    (st : St) (blocks : List Nat) :
    Carried [] 1 st (st.malloc env) { t with info := { info with multi } }
      (withFile t info multi { node := st.mallocs, length := 0, path := none, pathUtf8 := none })
      blocks blocks := by
  refine ⟨by simp [fileCount, withFile, multiFilesAdd], [], .refl _, by simp,
    held_withFile_new t info multi st.mallocs, ?_⟩
  apply (balanced_malloc st.heap _).congr (.refl _)
  rw [List.perm_iff_count]
  intro block
  simp only [nodes, withFile, multiFilesAdd, St.heap, List.map_append, List.map_cons, List.map_nil,
    List.flatMap_nil, List.count_append, List.count_nil]
  omega

theorem torrentInfoFile_carried {env : Env} (mallocs : Allocates env) (t : Torrent)
    (info : TorrentInfo) (st : St) (multi : InfoMultiFile) (vec : LEntry BValue) :
    (torrentInfoFile env st multi vec).status = 0 ∧
      Carried (filesSlots (fileCount { t with info := { info with multi } })
          ([vec.entry.erase].filterMap dictOf)) ([vec.entry.erase].filterMap dictOf).length st
        (torrentInfoFile env st multi vec).st { t with info := { info with multi } }
        { t with info := { info with multi := (torrentInfoFile env st multi vec).target } }
        (itemFree vec) (itemFree (torrentInfoFile env st multi vec).entry) := by
  cases entry : vec.entry with
  | dict d =>
    have loop := (forEach_carried (withFile t info multi) entryContent entryFree
      (fun _ => List.filterMap (fileSlot multi.filesList.length)) (fun _ => 0) (fun _ => rfl) rfl
      (fun _ _ _ => by rw [List.filterMap_append]) (fun _ _ => rfl) multiFilesEntry
      (multiFilesEntry_carried t info multi) (st.malloc env)
      { node := st.mallocs, length := 0, path := none, pathUtf8 := none } d.entries).2
    simp only [← eraseEntries_flatMap, ← dEntriesFree_flatMap] at loop
    have all := (carried_file env t info multi st _).trans loop
    have framed := all.frame [d.node, vec.node]
    have files : [(BValue.dict d).erase].filterMap dictOf = [eraseEntries d.entries] := rfl
    have blocks (entries : List (DEntry BValue)) : ([d.node, vec.node] ++ dEntriesFree entries).Perm
        (itemFree ⟨vec.node, .dict ⟨d.node, entries⟩⟩) := by
      rw [itemFree, free_dict, bDictFree, List.append_assoc]
      exact List.perm_append_comm
    simp only [torrentInfoFile, entry, multiFilesAlloc, mallocs _, if_true, true_and, files]
    apply framed.congr
    · simp [filesSlots, fileCount]
    · have whole := blocks d.entries
      rwa [← entry] at whole
    · exact blocks _
  | _ =>
    simp only [torrentInfoFile, entry, BValue.erase, List.filterMap_cons, dictOf, List.filterMap_nil,
      filesSlots, List.length_nil, true_and]
    exact carried_same rfl rfl rfl

theorem files_carried {env : Env} (mallocs : Allocates env) (t : Torrent) (st : St)
    (info : TorrentInfo) {vec : DEntry BValue} {l : BList} (found : listAt vec "files" = some l) :
    (forEach (torrentInfoFile env) st info.multi l.entries).status = 0 ∧
      Carried (infoSlots (fileCount { t with info }) (entryContent vec))
        ((entryContent vec).flatMap filesOf).length st
        (forEach (torrentInfoFile env) st info.multi l.entries).st { t with info }
        { t with info := { info with
          multi := (forEach (torrentInfoFile env) st info.multi l.entries).target } }
        (entryFree vec) (entryFree { vec with val := some (.list { l with
          entries := (forEach (torrentInfoFile env) st info.multi l.entries).entry }) }) := by
  obtain ⟨name, val⟩ := listAt_some found
  have loop := forEach_carried (fun multi => { t with info := { info with multi } })
    (fun e => [e.entry.erase]) itemFree (fun file vs => filesSlots file (vs.filterMap dictOf))
    (fun vs => (vs.filterMap dictOf).length) (fun _ => rfl) rfl
    (fun _ _ _ => by rw [List.filterMap_append, filesSlots_append])
    (fun _ _ => by rw [List.filterMap_append, List.length_append]) (torrentInfoFile env)
    (torrentInfoFile_carried mallocs t info) st info.multi l.entries
  simp only [← eraseItems_flatMap, ← lEntriesFree_flatMap] at loop
  obtain ⟨success, carried⟩ := loop
  have content : entryContent vec = [(ascii "files", .list (eraseItems l.entries))] := by
    simp [entryContent, name, val, eraseVal, BValue.erase]
  have inside : filesOf (ascii "files", .list (eraseItems l.entries)) =
      (eraseItems l.entries).filterMap dictOf := by simp [filesOf]
  have blocks (entries : List (LEntry BValue)) : ([l.node, vec.node] ++ lEntriesFree entries).Perm
      (entryFree { vec with val := some (.list ⟨l.node, entries⟩) }) := by
    rw [entryFree, valFree, free_list, bListFree, List.append_assoc]
    exact List.perm_append_comm
  have whole := blocks l.entries
  rw [← val] at whole
  refine ⟨success, ?_⟩
  rw [content]
  simp only [infoSlots, List.filterMap_cons, infoSlot, List.filterMap_nil, List.nil_append,
    List.flatMap_cons, List.flatMap_nil, List.append_nil, inside]
  exact (carried.frame [l.node, vec.node]).congr (.refl _) whole (blocks _)

theorem torrentInfoEntry_carried {env : Env} (mallocs : Allocates env) (t : Torrent) (st : St)
    (info : TorrentInfo) (vec : DEntry BValue) :
    (torrentInfoEntry env st info vec).status = 0 ∧
      Carried (infoSlots (fileCount { t with info }) (entryContent vec))
        ((entryContent vec).flatMap filesOf).length st (torrentInfoEntry env st info vec).st
        { t with info } { t with info := (torrentInfoEntry env st info vec).target }
        (entryFree vec) (entryFree (torrentInfoEntry env st info vec).entry) := by
  have string {key : String} {slot : Slot} {s : BString} {info' : TorrentInfo}
      (found : stringAt vec key = some s)
      (member : infoSlot (ascii key, .str s.data s.len.toNat) = some slot)
      (stored : held { t with info := info' } =
        Function.update (held { t with info }) slot (bStringFree s))
      (multi : info'.multi = info.multi) :
      Carried (infoSlots (fileCount { t with info }) (entryContent vec))
        ((entryContent vec).flatMap filesOf).length st st { t with info } { t with info := info' }
        (entryFree vec) (entryFree (moved vec)) := by
    have shape (file : Nat) : infoSlots file [(ascii key, (BValue.string s).erase)] = [slot] := by
      simp [infoSlots, BValue.erase, member, filesOf, filesSlots]
    apply value_moved (infoSlots _) (fun es => (es.flatMap filesOf).length) (stringAt_some found)
      (shape _)
    · simp [BValue.erase, filesOf]
    · rw [stored, BValue.free]
    · simp [nodes, multi]
    · simp [fileCount, multi]
  unfold torrentInfoEntry
  split
  next i found =>
    exact ⟨rfl, value_copied (infoSlots _) (fun es => (es.flatMap filesOf).length)
      (intAt_some found) rfl rfl (by funext slot; cases slot <;> rfl) rfl rfl⟩
  split
  next s found => exact ⟨rfl, string found rfl (by funext slot; cases slot <;> rfl) rfl⟩
  split
  next s found => exact ⟨rfl, string found rfl (by funext slot; cases slot <;> rfl) rfl⟩
  split
  next s found => exact ⟨rfl, string found rfl (by funext slot; cases slot <;> rfl) rfl⟩
  split
  next i found =>
    exact ⟨rfl, value_copied (infoSlots _) (fun es => (es.flatMap filesOf).length)
      (intAt_some found) rfl rfl (by funext slot; cases slot <;> rfl) rfl rfl⟩
  split
  next s found => exact ⟨rfl, string found rfl (by funext slot; cases slot <;> rfl) rfl⟩
  split
  next s found => exact ⟨rfl, string found rfl (by funext slot; cases slot <;> rfl) rfl⟩
  split
  next s found => exact ⟨rfl, string found rfl (by funext slot; cases slot <;> rfl) rfl⟩
  split
  next s found => exact ⟨rfl, string found rfl (by funext slot; cases slot <;> rfl) rfl⟩
  split
  next s found => exact ⟨rfl, string found rfl (by funext slot; cases slot <;> rfl) rfl⟩
  split
  next s found => exact ⟨rfl, string found rfl (by funext slot; cases slot <;> rfl) rfl⟩
  split
  next l found =>
    exact files_carried mallocs t st info found
  next _ _ _ noPieces _ noName _ noNameUtf8 _ _ _ noPublisher _ noPrivate _ noMd5sum
      _ noPublisherUtf8 _ noPublisherUrl _ noPublisherUrlUtf8 _ noFiles =>
    have strings : (entryContent vec).filterMap infoSlot = [] := by
      cases val : vec.val with
      | none => simp [entryContent, val, eraseVal]
      | some v =>
        cases v with
        | string s =>
          have other (key : String) (missing : ∀ s, stringAt vec key = some s → False) :
              (vec.key == ascii key) = false := entryAt_missing missing val rfl
          simp [entryContent, val, eraseVal, BValue.erase, infoSlot, List.lookup_cons,
            other "pieces" noPieces, other "name" noName, other "name.utf-8" noNameUtf8,
            other "publisher" noPublisher, other "private" noPrivate, other "md5sum" noMd5sum,
            other "publisher utf-8" noPublisherUtf8, other "publisher url" noPublisherUrl,
            other "publisher url utf-8" noPublisherUrlUtf8]
        | _ => simp [entryContent, val, eraseVal, BValue.erase, infoSlot]
    have lists := files_missing noFiles
    refine ⟨rfl, value_ignored (infoSlots _) (fun es => (es.flatMap filesOf).length) ?_ ?_⟩
    · rw [infoSlots, strings, lists]
      rfl
    · rw [lists]
      rfl

theorem torrentInfoParse_carried {env : Env} (mallocs : Allocates env) (t : Torrent) (st : St)
    (d : BDict) (info : TorrentInfo) :
    (torrentInfoParse env st d info).status = 0 ∧
      Carried (infoSlots (fileCount { t with info }) (eraseEntries d.entries))
        ((eraseEntries d.entries).flatMap filesOf).length st (torrentInfoParse env st d info).st
        { t with info } { t with info := (torrentInfoParse env st d info).target }
        (bDictFree d) (bDictFree (torrentInfoParse env st d info).entry) := by
  have loop := forEach_carried (fun info => { t with info }) entryContent entryFree infoSlots
    (fun es => (es.flatMap filesOf).length) (fun _ => rfl) rfl infoSlots_append
    (fun _ _ => by rw [List.flatMap_append, List.length_append]) (torrentInfoEntry env)
    (torrentInfoEntry_carried mallocs t) st info d.entries
  simp only [← eraseEntries_flatMap, ← dEntriesFree_flatMap] at loop
  obtain ⟨success, carried⟩ := loop
  exact ⟨success, (carried.frame [d.node]).congr (.refl _) List.perm_append_comm
    List.perm_append_comm⟩

theorem info_carried {env : Env} (mallocs : Allocates env) (t : Torrent) (st : St)
    {vec : DEntry BValue} {d : BDict} (found : dictAt vec "info" = some d) :
    (torrentInfoParse env st d t.info).status = 0 ∧
      Carried (slots (fileCount t) (entryContent vec))
        (((entryContent vec).flatMap infoOf).flatMap filesOf).length st
        (torrentInfoParse env st d t.info).st t
        { t with info := (torrentInfoParse env st d t.info).target } (entryFree vec)
        (entryFree { vec with
          val := some (.dict (torrentInfoParse env st d t.info).entry) }) := by
  obtain ⟨name, val⟩ := dictAt_some found
  obtain ⟨success, carried⟩ := torrentInfoParse_carried mallocs t st d t.info
  have content : entryContent vec = [(ascii "info", .dict (eraseEntries d.entries))] := by
    simp [entryContent, name, val, eraseVal, BValue.erase]
  have inside : infoOf (ascii "info", .dict (eraseEntries d.entries)) = eraseEntries d.entries := by
    simp [infoOf]
  have blocks (d : BDict) :
      ([vec.node] ++ bDictFree d).Perm (entryFree { vec with val := some (.dict d) }) :=
    List.perm_append_comm
  have whole := blocks d
  rw [← val] at whole
  refine ⟨success, ?_⟩
  rw [content]
  simp only [slots, List.filterMap_cons, topSlot, List.filterMap_nil, List.nil_append,
    List.flatMap_cons, List.flatMap_nil, List.append_nil, inside]
  exact (carried.frame [vec.node]).congr (.refl _) whole (blocks _)

theorem torrentEntry_carried {env : Env} (mallocs : Allocates env) (st : St) (t : Torrent)
    (vec : DEntry BValue) :
    (torrentEntry env st t vec).status = 0 ∧
      Carried (slots (fileCount t) (entryContent vec))
        (((entryContent vec).flatMap infoOf).flatMap filesOf).length st
        (torrentEntry env st t vec).st t (torrentEntry env st t vec).target (entryFree vec)
        (entryFree (torrentEntry env st t vec).entry) := by
  have string {key : String} {slot : Slot} {s : BString} {t' : Torrent}
      (found : stringAt vec key = some s)
      (member : topSlot (ascii key, .str s.data s.len.toNat) = some slot)
      (stored : held t' = Function.update (held t) slot (bStringFree s))
      (node : t'.node = t.node) (info : t'.info = t.info) :
      Carried (slots (fileCount t) (entryContent vec))
        (((entryContent vec).flatMap infoOf).flatMap filesOf).length st st t t' (entryFree vec)
        (entryFree (moved vec)) := by
    have shape (file : Nat) : slots file [(ascii key, (BValue.string s).erase)] = [slot] := by
      simp [slots, BValue.erase, member, infoOf, infoSlots, filesSlots]
    apply value_moved (slots _) (fun es => ((es.flatMap infoOf).flatMap filesOf).length)
      (stringAt_some found) (shape _)
    · simp [BValue.erase, infoOf]
    · rw [stored, BValue.free]
    · simp [nodes, node, info]
    · simp [fileCount, info]
  unfold torrentEntry
  split
  next s found => exact ⟨rfl, string found rfl (by funext slot; cases slot <;> rfl) rfl rfl⟩
  split
  next l found =>
    exact ⟨rfl, value_moved (slots _) (fun es => ((es.flatMap infoOf).flatMap filesOf).length)
      (listAt_some found) rfl rfl (by funext slot; cases slot <;> rfl) rfl rfl⟩
  split
  next s found => exact ⟨rfl, string found rfl (by funext slot; cases slot <;> rfl) rfl rfl⟩
  split
  next s found => exact ⟨rfl, string found rfl (by funext slot; cases slot <;> rfl) rfl rfl⟩
  split
  next s found => exact ⟨rfl, string found rfl (by funext slot; cases slot <;> rfl) rfl rfl⟩
  split
  next s found => exact ⟨rfl, string found rfl (by funext slot; cases slot <;> rfl) rfl rfl⟩
  split
  next i found =>
    exact ⟨rfl, value_copied (slots _) (fun es => ((es.flatMap infoOf).flatMap filesOf).length)
      (intAt_some found) rfl rfl (by funext slot; cases slot <;> rfl) rfl rfl⟩
  split
  next s found => exact ⟨rfl, string found rfl (by funext slot; cases slot <;> rfl) rfl rfl⟩
  split
  next s found => exact ⟨rfl, string found rfl (by funext slot; cases slot <;> rfl) rfl rfl⟩
  split
  next d found =>
    exact info_carried mallocs t st found
  next _ noAnnounce _ noAnnounceList _ noComment _ noCommentUtf8 _ _ _ noCreateBy _ _ _ _ _ _
      _ noInfo =>
    have own : (entryContent vec).filterMap topSlot = [] := by
      cases val : vec.val with
      | none => simp [entryContent, val, eraseVal]
      | some v =>
        cases v with
        | string s =>
          have other (key : String) (missing : ∀ s, stringAt vec key = some s → False) :
              (vec.key == ascii key) = false := entryAt_missing missing val rfl
          simp [entryContent, val, eraseVal, BValue.erase, topSlot, List.lookup_cons,
            other "announce" noAnnounce, other "comment" noComment,
            other "comment-utf8" noCommentUtf8, other "create by" noCreateBy]
        | list l =>
          have other := entryAt_missing noAnnounceList val rfl
          simp [entryContent, val, eraseVal, BValue.erase, topSlot, List.lookup_cons, other]
        | _ => simp [entryContent, val, eraseVal, BValue.erase, topSlot]
    have dicts := info_missing noInfo
    refine ⟨rfl, value_ignored (slots _)
      (fun es => ((es.flatMap infoOf).flatMap filesOf).length) ?_ ?_⟩
    · rw [slots, own, dicts]
      rfl
    · rw [dicts]
      rfl

theorem torrent_carried {env : Env} (mallocs : Allocates env) (st : St) (t : Torrent)
    (d : BDict) :
    (forEach (torrentEntry env) st t d.entries).status = 0 ∧
      Carried (slots (fileCount t) (eraseEntries d.entries))
        (((eraseEntries d.entries).flatMap infoOf).flatMap filesOf).length st
        (forEach (torrentEntry env) st t d.entries).st t
        (forEach (torrentEntry env) st t d.entries).target (bDictFree d)
        (bDictFree { d with entries := (forEach (torrentEntry env) st t d.entries).entry }) := by
  have loop := forEach_carried id entryContent entryFree slots
    (fun es => ((es.flatMap infoOf).flatMap filesOf).length) (fun _ => rfl) rfl slots_append
    (fun _ _ => by rw [List.flatMap_append, List.flatMap_append, List.length_append])
    (torrentEntry env) (torrentEntry_carried mallocs) st t d.entries
  simp only [← eraseEntries_flatMap, ← dEntriesFree_flatMap, id] at loop
  obtain ⟨success, carried⟩ := loop
  exact ⟨success, (carried.frame [d.node]).congr (.refl _) List.perm_append_comm
    List.perm_append_comm⟩

end BTServer.Metainfo
