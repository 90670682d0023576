import BTServer.Bencode.Trees
import BTServer.Metainfo.Transfer
import BTServer.Shared.Keyed

set_option autoImplicit false

namespace BTServer.Metainfo

open Bencode CString Outcome Keyed

def textOf : Value → Option (Bytes × Nat)
  | .str data len => some (data, len)
  | _ => none

def numberOf : Value → Option Int
  | .int n => some n
  | _ => none

def itemsOf : Value → Option (List Value)
  | .list vs => some vs
  | _ => none

theorem entryContent_found {key : String} {vec : DEntry BValue} {v : BValue}
    (entry : vec.key = ascii key ∧ vec.val = some v) :
    entryContent vec = [(ascii key, v.erase)] := by
  simp [entryContent, entry.1, entry.2, eraseVal]

theorem last_missing {α β : Type} {key : String} {type : Value → Option α} {vec : DEntry BValue}
    {stored : BValue → Option β} (erased : ∀ v, stored v = none → type v.erase = none)
    (missing : ∀ x, entryAt stored vec key = some x → False) :
    last (ascii key) type (entryContent vec) = none := by
  have absent : entryAt stored vec key = none := Option.eq_none_iff_forall_ne_some.mpr missing
  cases val : vec.val with
  | none => simp [entryContent, val, eraseVal]
  | some v =>
    have content : entryContent vec = [(vec.key, v.erase)] := by
      simp [entryContent, val, eraseVal]
    have nothing : under (ascii key) type (vec.key, v.erase) = none := by
      rw [under]
      split
      next same =>
        apply erased
        rw [entryAt, if_pos same, val] at absent
        exact absent
      next => rfl
    rw [content, last, List.filterMap_cons, nothing]
    rfl

theorem textOf_erase (v : BValue) (other : asString v = none) : textOf v.erase = none := by
  cases v <;> simp_all [asString, BValue.erase, textOf]

theorem numberOf_erase (v : BValue) (other : asInt v = none) : numberOf v.erase = none := by
  cases v <;> simp_all [asInt, BValue.erase, numberOf]

theorem itemsOf_erase (v : BValue) (other : asList v = none) : itemsOf v.erase = none := by
  cases v <;> simp_all [asList, BValue.erase, itemsOf]

-- A torrent without its addresses. A member that has not been stored is `none` or 0.
structure FileView where
  length : Int := 0
  path : Option (List Value) := none
  pathUtf8 : Option (List Value) := none

structure InfoView where
  pieceLen : Int := 0
  pieceHash : Option (Bytes × Nat) := none
  private_ : Option (Bytes × Nat) := none
  files : List FileView := []
  dirName : Option (Bytes × Nat) := none
  name : Option (Bytes × Nat) := none
  nameUtf8 : Option (Bytes × Nat) := none
  length : Int := 0
  md5sum : Option (Bytes × Nat) := none
  publisher : Option (Bytes × Nat) := none
  publisherUtf8 : Option (Bytes × Nat) := none
  publisherUrl : Option (Bytes × Nat) := none
  publisherUrlUtf8 : Option (Bytes × Nat) := none

structure TorrentView where
  announce : Option (Bytes × Nat) := none
  announceList : Option (List Value) := none
  comment : Option (Bytes × Nat) := none
  commentUtf8 : Option (Bytes × Nat) := none
  createBy : Option (Bytes × Nat) := none
  createDate : Int := 0
  encoding : Int := 0
  info : InfoView := {}

def textView (s : Option BString) : Option (Bytes × Nat) := s.map fun s => (s.data, s.len.toNat)

def itemsView (l : Option BList) : Option (List Value) := l.map fun l => eraseItems l.entries

def MultiFiles.view (file : MultiFiles) : FileView where
  length := file.length.toNat
  path := itemsView file.path
  pathUtf8 := itemsView file.pathUtf8

def TorrentInfo.view (info : TorrentInfo) : InfoView where
  pieceLen := info.pieceLen.toNat
  pieceHash := textView info.pieceHash
  private_ := textView info.private_
  files := info.multi.filesList.map MultiFiles.view
  dirName := textView info.multi.dirName
  name := textView info.name
  nameUtf8 := textView info.nameUtf8
  length := info.length.toNat
  md5sum := textView info.md5sum
  publisher := textView info.publisher
  publisherUtf8 := textView info.publisherUtf8
  publisherUrl := textView info.publisherUrl
  publisherUrlUtf8 := textView info.publisherUrlUtf8

def Torrent.view (t : Torrent) : TorrentView where
  announce := textView t.announce
  announceList := itemsView t.announceList
  comment := textView t.comment
  commentUtf8 := textView t.commentUtf8
  createBy := textView t.createBy
  createDate := t.createDate.toNat
  encoding := t.encoding.toNat
  info := t.info.view

/-- A file once the entries have been gone through: the last one counts. -/
def FileView.update (v : FileView) (es : List (Bytes × Value)) : FileView where
  length := (last (ascii "length") numberOf es).getD v.length
  path := (last (ascii "path") itemsOf es).or v.path
  pathUtf8 := (last (ascii "path.utf-8") itemsOf es).or v.pathUtf8

def InfoView.update (v : InfoView) (es : List (Bytes × Value)) : InfoView where
  pieceLen := (last (ascii "piece length") numberOf es).getD v.pieceLen
  pieceHash := (last (ascii "pieces") textOf es).or v.pieceHash
  private_ := (last (ascii "private") textOf es).or v.private_
  files := v.files ++ (es.flatMap filesOf).map (FileView.update {})
  dirName := v.dirName
  name := (last (ascii "name") textOf es).or v.name
  nameUtf8 := (last (ascii "name.utf-8") textOf es).or v.nameUtf8
  length := (last (ascii "length") numberOf es).getD v.length
  md5sum := (last (ascii "md5sum") textOf es).or v.md5sum
  publisher := (last (ascii "publisher") textOf es).or v.publisher
  publisherUtf8 := (last (ascii "publisher utf-8") textOf es).or v.publisherUtf8
  publisherUrl := (last (ascii "publisher url") textOf es).or v.publisherUrl
  publisherUrlUtf8 := (last (ascii "publisher url utf-8") textOf es).or v.publisherUrlUtf8

def TorrentView.update (v : TorrentView) (es : List (Bytes × Value)) : TorrentView where
  announce := (last (ascii "announce") textOf es).or v.announce
  announceList := (last (ascii "announce-list") itemsOf es).or v.announceList
  comment := (last (ascii "comment") textOf es).or v.comment
  commentUtf8 := (last (ascii "comment-utf8") textOf es).or v.commentUtf8
  createBy := (last (ascii "create by") textOf es).or v.createBy
  createDate := (last (ascii "creation date") numberOf es).getD v.createDate
  encoding := v.encoding
  info := v.info.update (es.flatMap infoOf)

theorem FileView.update_nil (v : FileView) : v.update [] = v := by simp [update]

theorem InfoView.update_nil (v : InfoView) : v.update [] = v := by simp [update]

theorem TorrentView.update_nil (v : TorrentView) : v.update [] = v := by
  simp [update, InfoView.update_nil]

theorem FileView.update_append (v : FileView) (es later : List (Bytes × Value)) :
    v.update (es ++ later) = (v.update es).update later := by
  simp [update, last_append, Option.or_assoc, Option.getD_or]

theorem InfoView.update_append (v : InfoView) (es later : List (Bytes × Value)) :
    v.update (es ++ later) = (v.update es).update later := by
  simp [update, last_append, Option.or_assoc, Option.getD_or]

theorem TorrentView.update_append (v : TorrentView) (es later : List (Bytes × Value)) :
    v.update (es ++ later) = (v.update es).update later := by
  simp [update, last_append, Option.or_assoc, Option.getD_or, InfoView.update_append]

/-- The loops over entries do what `update` says if each of their rounds does, as long as no round
ends them. -/
theorem forEach_update {T E C V : Type} (view : T → V) (content : E → List C)
    (update : V → List C → V) (none : ∀ v, update v [] = v)
    (more : ∀ v es later, update v (es ++ later) = update (update v es) later)
    (step : St → T → E → Step T E)
    (round : ∀ st t e, (step st t e).status = 0 →
      view (step st t e).target = update (view t) (content e)) (st : St) (t : T) (es : List E)
    (success : (forEach step st t es).status = 0) :
    view (forEach step st t es).target = update (view t) (es.flatMap content) := by
  induction es generalizing st t with
  | nil => exact (none _).symm
  | cons e es ih =>
    by_cases going : (step st t e).status = 0
    next =>
      rw [forEach, if_pos going] at success ⊢
      rw [List.flatMap_cons, more, ← round st t e going]
      exact ih _ _ success
    next =>
      rw [forEach, if_neg going] at success
      exact absurd success going

theorem forEach_succeeds {T E : Type} {step : St → T → E → Step T E}
    (round : ∀ st t e, (step st t e).status = 0) (st : St) (t : T) (es : List E) :
    (forEach step st t es).status = 0 := by
  induction es generalizing st t with
  | nil => rfl
  | cons e es ih =>
    rw [forEach, if_pos (round st t e)]
    exact ih _ _

theorem multiFilesEntry_update (st : St) (ptr : MultiFiles) (vec : DEntry BValue) :
    (multiFilesEntry st ptr vec).status = 0 ∧
      (multiFilesEntry st ptr vec).target.view = ptr.view.update (entryContent vec) := by
  unfold multiFilesEntry
  split
  next l found => rw [entryContent_found (listAt_some found)]; exact ⟨rfl, rfl⟩
  split
  next l found => rw [entryContent_found (listAt_some found)]; exact ⟨rfl, rfl⟩
  split
  next i found =>
    rw [entryContent_found (intAt_some found)]
    exact ⟨rfl, rfl⟩
  next _ noPath _ noPathUtf8 _ noLength =>
    simp [FileView.update, last_missing itemsOf_erase noPath,
      last_missing itemsOf_erase noPathUtf8, last_missing numberOf_erase noLength]

theorem torrentInfoFile_update {env : Env} (st : St) (multi : InfoMultiFile) (vec : LEntry BValue)
    (success : (torrentInfoFile env st multi vec).status = 0) :
    ((torrentInfoFile env st multi vec).target.filesList.map MultiFiles.view,
        (torrentInfoFile env st multi vec).target.dirName) =
      (multi.filesList.map MultiFiles.view ++
        ([vec.entry.erase].filterMap dictOf).map (FileView.update {}), multi.dirName) := by
  cases entry : vec.entry with
  | dict d =>
    have file := forEach_update MultiFiles.view entryContent FileView.update
      FileView.update_nil FileView.update_append multiFilesEntry
      (fun st ptr vec _ => (multiFilesEntry_update st ptr vec).2) (st.malloc env)
      { node := st.mallocs, length := 0, path := none, pathUtf8 := none } d.entries
      (forEach_succeeds (fun st ptr vec => (multiFilesEntry_update st ptr vec).1) _ _ _)
    rw [← eraseEntries_flatMap] at file
    simp only [torrentInfoFile, entry, multiFilesAlloc] at success ⊢
    split at success
    next files d' st' allocated =>
      split at allocated
      next =>
        cases allocated
        simp only [multiFilesAdd, List.map_append, List.map_cons, List.map_nil, file]
        rfl
      next => cases allocated
    next => cases success
  | _ =>
    simp [torrentInfoFile, entry, BValue.erase, dictOf]

theorem files_update {env : Env} (st : St) (multi : InfoMultiFile) (es : List (LEntry BValue))
    (success : (forEach (torrentInfoFile env) st multi es).status = 0) :
    (forEach (torrentInfoFile env) st multi es).target.filesList.map MultiFiles.view =
        multi.filesList.map MultiFiles.view ++
          ((eraseItems es).filterMap dictOf).map (FileView.update {}) ∧
      (forEach (torrentInfoFile env) st multi es).target.dirName = multi.dirName := by
  have files := forEach_update
    (fun multi => (multi.filesList.map MultiFiles.view, multi.dirName))
    (fun e => [e.entry.erase])
    (fun v vs => (v.1 ++ (vs.filterMap dictOf).map (FileView.update {}), v.2)) (by simp) (by simp)
    (torrentInfoFile env) torrentInfoFile_update st multi es success
  rw [← eraseItems_flatMap] at files
  exact ⟨(Prod.mk.inj files).1, (Prod.mk.inj files).2⟩

theorem torrentInfoEntry_update {env : Env} (st : St) (info : TorrentInfo) (vec : DEntry BValue)
    (success : (torrentInfoEntry env st info vec).status = 0) :
    (torrentInfoEntry env st info vec).target.view = info.view.update (entryContent vec) := by
  have plain {key : String} {x : BValue} {v : InfoView}
      (entry : vec.key = ascii key ∧ vec.val = some x)
      (stored : { v with files := v.files ++ [] } = info.view.update [(ascii key, x.erase)]) :
      v = info.view.update (entryContent vec) := by
    rw [entryContent_found entry, ← stored, List.append_nil]
  unfold torrentInfoEntry at success ⊢
  split
  next i found => exact plain (intAt_some found) rfl
  split
  next s found => exact plain (stringAt_some found) rfl
  split
  next s found => exact plain (stringAt_some found) rfl
  split
  next s found => exact plain (stringAt_some found) rfl
  split
  next i found => exact plain (intAt_some found) rfl
  split
  next s found => exact plain (stringAt_some found) rfl
  split
  next s found => exact plain (stringAt_some found) rfl
  split
  next s found => exact plain (stringAt_some found) rfl
  split
  next s found => exact plain (stringAt_some found) rfl
  split
  next s found => exact plain (stringAt_some found) rfl
  split
  next s found => exact plain (stringAt_some found) rfl
  split
  next l found =>
    obtain ⟨files, dirName⟩ := files_update st info.multi l.entries (by simpa [found] using success)
    have inside : [(ascii "files", Value.list (eraseItems l.entries))].flatMap filesOf =
        (eraseItems l.entries).filterMap dictOf := by simp [filesOf]
    rw [entryContent_found (listAt_some found)]
    simp only [TorrentInfo.view, files, dirName, BValue.erase, InfoView.update, inside]
    rfl
  next _ noPieceLength _ noPieces _ noName _ noNameUtf8 _ noLength _ noPublisher _ noPrivate
      _ noMd5sum _ noPublisherUtf8 _ noPublisherUrl _ noPublisherUrlUtf8 _ noFiles =>
    simp [InfoView.update, last_missing numberOf_erase noPieceLength,
      last_missing textOf_erase noPieces, last_missing textOf_erase noName,
      last_missing textOf_erase noNameUtf8, last_missing numberOf_erase noLength,
      last_missing textOf_erase noPublisher, last_missing textOf_erase noPrivate,
      last_missing textOf_erase noMd5sum, last_missing textOf_erase noPublisherUtf8,
      last_missing textOf_erase noPublisherUrl,
      last_missing textOf_erase noPublisherUrlUtf8, files_missing noFiles]

theorem torrentInfoParse_update {env : Env} (st : St) (d : BDict) (info : TorrentInfo)
    (success : (torrentInfoParse env st d info).status = 0) :
    (torrentInfoParse env st d info).target.view = info.view.update (eraseEntries d.entries) := by
  rw [eraseEntries_flatMap]
  exact forEach_update TorrentInfo.view entryContent InfoView.update InfoView.update_nil
    InfoView.update_append (torrentInfoEntry env) torrentInfoEntry_update st info d.entries success

theorem torrentEntry_update {env : Env} (st : St) (t : Torrent) (vec : DEntry BValue)
    (success : (torrentEntry env st t vec).status = 0) :
    (torrentEntry env st t vec).target.view = t.view.update (entryContent vec) := by
  have plain {key : String} {x : BValue} {v : TorrentView}
      (entry : vec.key = ascii key ∧ vec.val = some x)
      (stored : { v with info := v.info.update [] } = t.view.update [(ascii key, x.erase)]) :
      v = t.view.update (entryContent vec) := by
    rw [entryContent_found entry, ← stored, InfoView.update_nil]
  unfold torrentEntry at success ⊢
  split
  next s found => exact plain (stringAt_some found) rfl
  split
  next l found => exact plain (listAt_some found) rfl
  split
  next s found => exact plain (stringAt_some found) rfl
  split
  next s found => exact plain (stringAt_some found) rfl
  split
  next s found => exact plain (stringAt_some found) rfl
  split
  next s found => exact plain (stringAt_some found) rfl
  split
  next i found => exact plain (intAt_some found) rfl
  split
  next s found => exact plain (stringAt_some found) rfl
  split
  next s found => exact plain (stringAt_some found) rfl
  split
  next d found =>
    have info := torrentInfoParse_update st d t.info (by simpa [found] using success)
    have inside : [(ascii "info", Value.dict (eraseEntries d.entries))].flatMap infoOf =
        eraseEntries d.entries := by simp [infoOf]
    rw [entryContent_found (dictAt_some found)]
    simp only [Torrent.view, info, BValue.erase, TorrentView.update, inside]
    rfl
  next _ noAnnounce _ noAnnounceList _ noComment _ noCommentUtf8 _ _ _ noCreateBy _ noCreateDate
      _ _ _ _ _ noInfo =>
    simp [TorrentView.update, last_missing textOf_erase noAnnounce,
      last_missing itemsOf_erase noAnnounceList, last_missing textOf_erase noComment,
      last_missing textOf_erase noCommentUtf8, last_missing textOf_erase noCreateBy,
      last_missing numberOf_erase noCreateDate, info_missing noInfo, InfoView.update_nil]

theorem torrentParse_enc {env : Env} (mallocs : Allocates env) (es : List (Bytes × Value))
    (rest : Bytes) (whole : env.buf = enc (.dict es) ++ rest) {st st₁ : St} {t : Torrent}
    (new : torrentAlloc env st = (some t, st₁)) :
    ∃ enough, ∀ fuel, enough ≤ fuel → ∃ status t' st',
      torrentParse env fuel st₁ t = .done (status, t') st' ∧
        match seeEntries env (st₁.malloc env).toScan es with
        | some (es', _) => status = 0 ∧ t'.view = TorrentView.update {} es'
        | none => status = -1 := by
  obtain ⟨enough, parses⟩ := bDictParse_enc mallocs es rest whole (st₁.malloc env)
  refine ⟨enough, fun fuel large => ?_⟩
  obtain ⟨next, d, st₂, parsed, seen⟩ := parses fuel large st₁.mallocs
  rw [torrentParse, if_pos (mallocs _), parsed]
  have empty : t.view = {} := by
    rw [torrentAlloc, if_pos (mallocs _)] at new
    cases new
    rfl
  cases next with
  | none =>
    refine ⟨_, _, _, rfl, ?_⟩
    cases read : seeEntries env (st₁.malloc env).toScan es with
    | some result => simp [read] at seen
    | none => rfl
  | some q =>
    have success := (torrent_carried mallocs st₂ t d).1
    have stored := forEach_update Torrent.view entryContent TorrentView.update
      TorrentView.update_nil TorrentView.update_append (torrentEntry env) torrentEntry_update st₂ t
      d.entries success
    rw [← eraseEntries_flatMap, empty] at stored
    refine ⟨_, _, _, rfl, ?_⟩
    cases read : seeEntries env (st₁.malloc env).toScan es with
    | some result =>
      rw [read] at seen
      exact ⟨success, seen.2 ▸ stored⟩
    | none => simp [read] at seen

-- The entries of the dictionary, of an info dictionary or of a file in another order.
inductive Reordered : List (Bytes × Value) → List (Bytes × Value) → Prop where
  | top {es es'} : Shuffled es es' → Reordered es es'
  | info {es es'} (front back) : Shuffled es es' →
      Reordered (front ++ (ascii "info", .dict es) :: back)
        (front ++ (ascii "info", .dict es') :: back)
  | file {es es'} (front back before after) (vs vs' : List Value) : Shuffled es es' →
      Reordered
        (front ++ (ascii "info", .dict
          (before ++ (ascii "files", .list (vs ++ .dict es :: vs')) :: after)) :: back)
        (front ++ (ascii "info", .dict
          (before ++ (ascii "files", .list (vs ++ .dict es' :: vs')) :: after)) :: back)
  | trans {es es' es''} : Reordered es es' → Reordered es' es'' → Reordered es es''

theorem FileView.update_shuffled (v : FileView) {es es' : List (Bytes × Value)}
    (shuffled : Shuffled es es') : v.update es = v.update es' := by
  simp only [update, last_shuffled _ _ shuffled]

theorem InfoView.update_shuffled (v : InfoView) {es es' : List (Bytes × Value)}
    (shuffled : Shuffled es es') : v.update es = v.update es' := by
  have files := flatMap_shuffled (ascii "files") filesOf (fun e other => by
    obtain ⟨key, v⟩ := e
    cases v <;> simp_all [filesOf]) shuffled
  simp only [update, last_shuffled _ _ shuffled, files]

theorem TorrentView.update_shuffled (v : TorrentView) {es es' : List (Bytes × Value)}
    (shuffled : Shuffled es es') : v.update es = v.update es' := by
  have info := flatMap_shuffled (ascii "info") infoOf (fun e other => by
    obtain ⟨key, v⟩ := e
    cases v <;> simp_all [infoOf]) shuffled
  simp only [update, last_shuffled _ _ shuffled, info]

theorem TorrentView.update_info (v : TorrentView) (front back : List (Bytes × Value))
    {es es' : List (Bytes × Value)} (same : ∀ v : InfoView, v.update es = v.update es') :
    v.update (front ++ (ascii "info", .dict es) :: back) =
      v.update (front ++ (ascii "info", .dict es') :: back) := by
  have here (v : TorrentView) :
      v.update [(ascii "info", .dict es)] = v.update [(ascii "info", .dict es')] := by
    have inside (es : List (Bytes × Value)) : [(ascii "info", Value.dict es)].flatMap infoOf = es := by
      simp [infoOf]
    simp only [update, inside, same]
    rfl
  have split (e : Bytes × Value) : front ++ e :: back = front ++ ([e] ++ back) := rfl
  simp only [split, update_append, here]

theorem InfoView.update_file (v : InfoView) (before after : List (Bytes × Value))
    (vs vs' : List Value) {es es' : List (Bytes × Value)} (shuffled : Shuffled es es') :
    v.update (before ++ (ascii "files", .list (vs ++ .dict es :: vs')) :: after) =
      v.update (before ++ (ascii "files", .list (vs ++ .dict es' :: vs')) :: after) := by
  have here (v : InfoView) :
      v.update [(ascii "files", .list (vs ++ .dict es :: vs'))] =
        v.update [(ascii "files", .list (vs ++ .dict es' :: vs'))] := by
    have inside (vs : List Value) :
        [(ascii "files", Value.list vs)].flatMap filesOf = vs.filterMap dictOf := by
      simp [filesOf]
    simp only [update, inside, List.filterMap_append, List.filterMap_cons, dictOf, List.map_append,
      List.map_cons, FileView.update_shuffled {} shuffled]
    rfl
  have split (e : Bytes × Value) : before ++ e :: after = before ++ ([e] ++ after) := rfl
  simp only [split, update_append, here]

theorem TorrentView.update_reordered (v : TorrentView) {es es' : List (Bytes × Value)}
    (reordered : Reordered es es') : v.update es = v.update es' := by
  induction reordered with
  | top shuffled => exact v.update_shuffled shuffled
  | info front back shuffled =>
    exact v.update_info front back fun info => info.update_shuffled shuffled
  | file front back before after vs vs' shuffled =>
    exact v.update_info front back fun info => info.update_file before after vs vs' shuffled
  | trans _ _ first second => exact first.trans second

theorem Reordered.parsable {es es' : List (Bytes × Value)} (reordered : Reordered es es')
    (parsable : ParsableEntries es) : ParsableEntries es' := by
  have shuffle {es es' : List (Bytes × Value)} (shuffled : Shuffled es es')
      (parsable : Parsable (.dict es)) : Parsable (.dict es') := by
    simp only [Parsable, parsableEntries_iff] at parsable ⊢
    exact fun e member => parsable e (shuffled.1.mem_iff.mpr member)
  have entry (key : Bytes) (front back : List (Bytes × Value)) {v v' : Value}
      (changed : Parsable v → Parsable v') (parsable : ParsableEntries (front ++ (key, v) :: back)) :
      ParsableEntries (front ++ (key, v') :: back) := by
    simp only [parsableEntries_iff, List.forall_mem_append, List.forall_mem_cons] at parsable ⊢
    exact ⟨parsable.1, ⟨parsable.2.1.1, changed parsable.2.1.2⟩, parsable.2.2⟩
  have item (front back : List Value) {v v' : Value} (changed : Parsable v → Parsable v')
      (parsable : Parsable (.list (front ++ v :: back))) :
      Parsable (.list (front ++ v' :: back)) := by
    simp only [Parsable, parsableItems_iff, List.forall_mem_append, List.forall_mem_cons]
      at parsable ⊢
    exact ⟨parsable.1, changed parsable.2.1, parsable.2.2⟩
  induction reordered with
  | top shuffled => simpa only [Parsable] using shuffle shuffled (by simpa only [Parsable])
  | info front back shuffled => exact entry _ front back (shuffle shuffled) parsable
  | file front back before after vs vs' shuffled =>
    apply entry _ front back _ parsable
    simp only [Parsable]
    exact entry _ before after (item vs vs' (shuffle shuffled))
  | trans _ _ first second => exact second (first parsable)

def Yields (es : List (Bytes × Value)) (view : TorrentView) : Prop :=
  ∀ env st rest t st₁, st.errno = 0 → Allocates env → env.buf = enc (.dict es) ++ rest →
    torrentAlloc env st = (some t, st₁) → ∃ enough, ∀ fuel, enough ≤ fuel → ∃ t' st',
      torrentParse env fuel st₁ t = .done (0, t') st' ∧ t'.view = view

theorem yields_parsable {es : List (Bytes × Value)} (parsable : ParsableEntries es) :
    Yields es (TorrentView.update {} es) := by
  intro env st rest t st₁ errno mallocs whole new
  have clear : (st₁.malloc env).errno = 0 := by
    rw [torrentAlloc, if_pos (mallocs _)] at new
    cases new
    exact (mallocs.malloc_errno _).trans ((mallocs.malloc_errno _).trans errno)
  obtain ⟨s', -, read⟩ := seeEntries_parsable mallocs es parsable (st₁.malloc env).toScan clear
  obtain ⟨enough, parses⟩ := torrentParse_enc mallocs es rest whole new
  refine ⟨enough, fun fuel large => ?_⟩
  obtain ⟨status, t', st', parsed, result⟩ := parses fuel large
  rw [read] at result
  obtain ⟨rfl, view⟩ := result
  exact ⟨t', st', parsed, view⟩

theorem metainfo_projection (es : List (Bytes × Value)) (parsable : ParsableEntries es) :
    Yields es (TorrentView.update {} es) ∧
      ∀ es', Reordered es es' → Yields es' (TorrentView.update {} es) := by
  refine ⟨yields_parsable parsable, fun es' reordered => ?_⟩
  rw [TorrentView.update_reordered {} reordered]
  exact yields_parsable (reordered.parsable parsable)

theorem metainfo_projection_of_file :
    Yields [(ascii "info", .dict [(ascii "length", .int 1), (ascii "length", .int 2),
        (ascii "files", .list [.int 3, .dict [(ascii "path", .list []), (ascii "length", .int 4)]])]),
        (ascii "comment", .int 5)]
      { info := { length := 2, files := [{ length := 4, path := some [] }] } } ∧
    Yields [(ascii "comment", .int 5), (ascii "info", .dict [(ascii "length", .int 1),
        (ascii "length", .int 2), (ascii "files", .list [.int 3, .dict [(ascii "path", .list []),
          (ascii "length", .int 4)]])])]
      { info := { length := 2, files := [{ length := 4, path := some [] }] } } := by
  obtain ⟨ordered, reordered⟩ := metainfo_projection
    [(ascii "info", .dict [(ascii "length", .int 1), (ascii "length", .int 2),
      (ascii "files", .list [.int 3, .dict [(ascii "path", .list []), (ascii "length", .int 4)]])]),
      (ascii "comment", .int 5)]
    (by simp [ParsableEntries, Parsable, ParsableItems, ascii, keyLen])
  exact ⟨ordered, reordered _ (.top ⟨List.Perm.swap _ _ _, by decide⟩)⟩

end BTServer.Metainfo
