import BTServer.Bencode.Model

set_option autoImplicit false

namespace BTServer.Metainfo

open Bencode CString

structure MultiFiles where
  node : Nat
  length : UInt64
  path : Option BList
  pathUtf8 : Option BList

structure InfoMultiFile where
  filesList : List MultiFiles
  dirName : Option BString

structure TorrentInfo where
  pieceLen : UInt32
  pieceHash : Option BString
  private_ : Option BString
  multi : InfoMultiFile
  name : Option BString
  nameUtf8 : Option BString
  length : UInt64
  md5sum : Option BString
  publisher : Option BString
  publisherUtf8 : Option BString
  publisherUrl : Option BString
  publisherUrlUtf8 : Option BString

structure Torrent where
  node : Nat
  announce : Option BString
  announceList : Option BList
  comment : Option BString
  commentUtf8 : Option BString
  createBy : Option BString
  createDate : UInt32
  encoding : UInt32
  info : TorrentInfo

-- The condition of a branch: `strncmp` finds the key and the entry has the type. An entry whose
-- value has been moved out has none, and no loop comes to an entry twice.
def entryAt {α : Type} (type : BValue → Option α) (vec : DEntry BValue) (key : String) : Option α :=
  if vec.key = ascii key then vec.val.bind type else none

def asString : BValue → Option BString
  | .string s => some s
  | _ => none

def asInt : BValue → Option BInt
  | .int i => some i
  | _ => none

def asList : BValue → Option BList
  | .list l => some l
  | _ => none

def asDict : BValue → Option BDict
  | .dict d => some d
  | _ => none

def stringAt : DEntry BValue → String → Option BString := entryAt asString
def intAt : DEntry BValue → String → Option BInt := entryAt asInt
def listAt : DEntry BValue → String → Option BList := entryAt asList
def dictAt : DEntry BValue → String → Option BDict := entryAt asDict

def moved (vec : DEntry BValue) : DEntry BValue := { vec with val := none }

/-- What a round of a loop over entries leaves. A status other than 0 is returned at once. -/
structure Step (T E : Type) where
  status : Int
  target : T
  entry : E
  st : St

def forEach {T E : Type} (step : St → T → E → Step T E) : St → T → List E → Step T (List E)
  | st, target, [] => ⟨0, target, [], st⟩
  | st, target, vec :: rest =>
    let first := step st target vec
    if first.status = 0 then
      let later := forEach step first.st first.target rest
      { later with entry := first.entry :: later.entry }
    else { first with entry := first.entry :: rest }

def multiFilesEntry (st : St) (ptr : MultiFiles) (vec : DEntry BValue) :
    Step MultiFiles (DEntry BValue) :=
  if let some l := listAt vec "path" then
    ⟨0, { ptr with path := some l }, moved vec, st⟩
  else if let some l := listAt vec "path.utf-8" then
    ⟨0, { ptr with pathUtf8 := some l }, moved vec, st⟩
  else if let some i := intAt vec "length" then
    ⟨0, { ptr with length := i.val.toUInt64 }, vec, st⟩
  else ⟨0, ptr, vec, st⟩

def multiFilesAlloc (env : Env) (st : St) (dict : BDict) : Option MultiFiles × BDict × St :=
  if env.alloc st.mallocs then
    let ptr : MultiFiles := { node := st.mallocs, length := 0, path := none, pathUtf8 := none }
    let loop := forEach multiFilesEntry (st.malloc env) ptr dict.entries
    (some loop.target, { dict with entries := loop.entry }, loop.st)
  else
    (none, dict, (st.malloc env).print .error "multi_files_alloc" 58
      (ascii "No memory to alloc multi_files\n"))

def multiFilesAdd (ptr : MultiFiles) (head : InfoMultiFile) : InfoMultiFile :=
  { head with filesList := head.filesList ++ [ptr] }

def torrentInfoFile (env : Env) (st : St) (multi : InfoMultiFile) (vec : LEntry BValue) :
    Step InfoMultiFile (LEntry BValue) :=
  match vec.entry with
  | .dict d =>
    match multiFilesAlloc env st d with
    | (some files, d, st) => ⟨0, multiFilesAdd files multi, { vec with entry := .dict d }, st⟩
    | (none, d, st) => ⟨-1, multi, { vec with entry := .dict d }, st⟩
  | _ => ⟨0, multi, vec, st⟩

def torrentInfoEntry (env : Env) (st : St) (info : TorrentInfo) (vec : DEntry BValue) :
    Step TorrentInfo (DEntry BValue) :=
  if let some i := intAt vec "piece length" then
    ⟨0, { info with pieceLen := i.val }, vec, st⟩
  else if let some s := stringAt vec "pieces" then
    ⟨0, { info with pieceHash := some s }, moved vec, st⟩
  else if let some s := stringAt vec "name" then
    ⟨0, { info with name := some s }, moved vec, st⟩
  else if let some s := stringAt vec "name.utf-8" then
    ⟨0, { info with nameUtf8 := some s }, moved vec, st⟩
  else if let some i := intAt vec "length" then
    ⟨0, { info with length := i.val.toUInt64 }, vec, st⟩
  else if let some s := stringAt vec "publisher" then
    ⟨0, { info with publisher := some s }, moved vec, st⟩
  else if let some s := stringAt vec "private" then
    ⟨0, { info with private_ := some s }, moved vec, st⟩
  else if let some s := stringAt vec "md5sum" then
    ⟨0, { info with md5sum := some s }, moved vec, st⟩
  else if let some s := stringAt vec "publisher utf-8" then
    ⟨0, { info with publisherUtf8 := some s }, moved vec, st⟩
  else if let some s := stringAt vec "publisher url" then
    ⟨0, { info with publisherUrl := some s }, moved vec, st⟩
  else if let some s := stringAt vec "publisher url utf-8" then
    ⟨0, { info with publisherUrlUtf8 := some s }, moved vec, st⟩
  else if let some l := listAt vec "files" then
    let files := forEach (torrentInfoFile env) st info.multi l.entries
    ⟨files.status, { info with multi := files.target },
      { vec with val := some (.list { l with entries := files.entry }) }, files.st⟩
  else ⟨0, info, vec, st⟩

def torrentInfoParse (env : Env) (st : St) (infoDict : BDict) (info : TorrentInfo) :
    Step TorrentInfo BDict :=
  let loop := forEach (torrentInfoEntry env) st info infoDict.entries
  { loop with entry := { infoDict with entries := loop.entry } }

-- The source tests for "comment" three times and for "comment-utf8" twice.
def torrentEntry (env : Env) (st : St) (ptr : Torrent) (vec : DEntry BValue) :
    Step Torrent (DEntry BValue) :=
  if let some s := stringAt vec "announce" then
    ⟨0, { ptr with announce := some s }, moved vec, st⟩
  else if let some l := listAt vec "announce-list" then
    ⟨0, { ptr with announceList := some l }, moved vec, st⟩
  else if let some s := stringAt vec "comment" then
    ⟨0, { ptr with comment := some s }, moved vec, st⟩
  else if let some s := stringAt vec "comment-utf8" then
    ⟨0, { ptr with commentUtf8 := some s }, moved vec, st⟩
  else if let some s := stringAt vec "comment" then
    ⟨0, { ptr with comment := some s }, moved vec, st⟩
  else if let some s := stringAt vec "create by" then
    ⟨0, { ptr with createBy := some s }, moved vec, st⟩
  else if let some i := intAt vec "creation date" then
    ⟨0, { ptr with createDate := i.val }, vec, st⟩
  else if let some s := stringAt vec "comment" then
    ⟨0, { ptr with comment := some s }, moved vec, st⟩
  else if let some s := stringAt vec "comment-utf8" then
    ⟨0, { ptr with commentUtf8 := some s }, moved vec, st⟩
  else if let some d := dictAt vec "info" then
    let info := torrentInfoParse env st d ptr.info
    ⟨info.status, { ptr with info := info.target }, { vec with val := some (.dict info.entry) },
      info.st⟩
  else ⟨0, ptr, vec, st⟩

def torrentParse (env : Env) (fuel : Nat) (st : St) (ptr : Torrent) :
    Outcome St (Int × Torrent) :=
  if env.alloc st.mallocs then
    (bDictParse env fuel (st.malloc env) 0 (bDictAlloc st.mallocs)).andThen fun (t, dict) st =>
      match t with
      | none => .done (-1, ptr) (st.free (bDictFree dict))
      | some _ =>
        let loop := forEach (torrentEntry env) st ptr dict.entries
        .done (loop.status, loop.target)
          (loop.st.free (bDictFree { dict with entries := loop.entry }))
  else .done (-1, ptr) (st.malloc env)

def torrentAlloc (env : Env) (st : St) : Option Torrent × St :=
  if env.alloc st.mallocs then
    (some
      { node := st.mallocs, announce := none, announceList := none, comment := none,
        commentUtf8 := none, createBy := none, createDate := 0, encoding := 0,
        info :=
          { pieceLen := 0, pieceHash := none, private_ := none,
            multi := { filesList := [], dirName := none }, name := none, nameUtf8 := none,
            length := 0, md5sum := none, publisher := none, publisherUtf8 := none,
            publisherUrl := none, publisherUrlUtf8 := none } }, st.malloc env)
  else (none, st.malloc env)

-- The members that are freed may be `NULL`.
def stringFree (s : Option BString) : List Nat := s.elim [] bStringFree

def listFree (l : Option BList) : List Nat := l.elim [] bListFree

def multiFilesFree (ptr : MultiFiles) : List Nat :=
  listFree ptr.path ++ listFree ptr.pathUtf8 ++ [ptr.node]

def infoMultiFilesFree (ptr : InfoMultiFile) : List Nat :=
  ptr.filesList.flatMap multiFilesFree ++ stringFree ptr.dirName

def torrentInfoFree (ptr : TorrentInfo) : List Nat :=
  stringFree ptr.pieceHash ++ stringFree ptr.private_ ++ stringFree ptr.name ++
    stringFree ptr.nameUtf8 ++ stringFree ptr.md5sum ++ stringFree ptr.publisher ++
    stringFree ptr.publisherUtf8 ++ stringFree ptr.publisherUrl ++ stringFree ptr.publisherUrl ++
    infoMultiFilesFree ptr.multi

def torrentMembersFree (ptr : Torrent) : List Nat :=
  stringFree ptr.announce ++ stringFree ptr.comment ++ stringFree ptr.commentUtf8 ++
    listFree ptr.announceList ++ torrentInfoFree ptr.info ++ [ptr.node]

def torrentFree (st : St) : Option Torrent → St
  | some ptr => st.free (torrentMembersFree ptr)
  | none => st.print .error "torrent_free" 131 (ascii "Duplicated free torrent (nil)\n")

/-- The life of a torrent, as `torrent_test_1` has it. -/
def torrentRun (env : Env) (fuel : Nat) (st : St) : Outcome St Unit :=
  match torrentAlloc env st with
  | (some t, st) =>
    (torrentParse env fuel st t).andThen fun (_, t) st => .done () (torrentFree st (some t))
  | (none, st) => .done () st

end BTServer.Metainfo
