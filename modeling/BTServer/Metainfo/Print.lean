import BTServer.Bencode.Print
import BTServer.Metainfo.Ownership
import BTServer.Metainfo.Projection

set_option autoImplicit false

namespace BTServer.Metainfo

open Bencode CString Outcome Keyed

-- What is seen of printing, in order: a call of `print_msg`, a member that is given to
-- `b_string_get` or `b_list_print`, a file that the loop comes to, what `printf` puts out.
inductive Event where
  | message (m : Trace)
  | use (slot : Slot)
  | visit (file : Nat)
  | output (text : Bytes)

abbrev Printing := Outcome (List Event) Unit

def messages : Outcome (List Trace) Unit → Printing
  | .done _ log => .done () (log.map .message)
  | .fault log => .fault (log.map .message)
  | .crash log => .crash (log.map .message)
  | .timeout log => .timeout (log.map .message)

def traceInfo (func : String) (line : Nat) (text : Bytes) : Printing :=
  .done () [.message ⟨.info, func, line, text⟩]

def bStringGet (slot : Slot) (ptr : Option BString) (statement : BString → Printing) : Printing :=
  follow (.done () [.use slot]) (match ptr with
    | some s => statement s
    | none => .crash [])

def memberPrint (mem : Memory) (slot : Slot) (ret : Option BList) : Printing :=
  follow (.done () [.use slot]) (messages (bListPrint mem ret))

def onlyIf (cond : Bool) (statement : Printing) : Printing :=
  if cond then statement else .done () []

/-- `if (member) TRACE(INFO, "title%s\n", b_string_get(member));` -/
def textPrint (func : String) (line : Nat) (title : String) (slot : Slot)
    (member : Option BString) : Printing :=
  onlyIf member.isSome (bStringGet slot member fun s =>
    traceInfo func line (ascii title ++ cstr s.data ++ ascii "\n"))

/-- `if (member) TRACE(INFO, "title%d\n", b_string_get(member));` shows the address. -/
def addressPrint (mem : Memory) (func : String) (line : Nat) (title : String) (slot : Slot)
    (member : Option BString) : Printing :=
  onlyIf member.isSome (bStringGet slot member fun s =>
    traceInfo func line (ascii title ++ percentD (s.head.elim 0 mem.address : Nat) ++ ascii "\n"))

/-- `if (n) TRACE(INFO, "title%d\n", n);` -/
def numberPrint (func : String) (line : Nat) (title : String) (n : Nat) : Printing :=
  onlyIf (n ≠ 0) (traceInfo func line (ascii title ++ percentD n ++ ascii "\n"))

-- The second `b_list_print` is given `path` as well.
def multiFilesPrint (mem : Memory) (file : Nat) : List MultiFiles → Printing
  | [] => .done () []
  | vec :: rest =>
    (inOrder
      [.done () [.visit file],
        onlyIf vec.path.isSome (inOrder [traceInfo "multi_files_print" 296 (ascii "[ path ]:\n"),
          memberPrint mem (.path file) vec.path]),
        onlyIf vec.pathUtf8.isSome (inOrder
          [traceInfo "multi_files_print" 300 (ascii "[ path(utf-8) ]:\n"),
            memberPrint mem (.path file) vec.path]),
        traceInfo "multi_files_print" 303
          (ascii "[ lenght ]:\n" ++ percentD vec.length.toNat ++ ascii "\n")]).follow
      (multiFilesPrint mem (file + 1) rest)

def hexDigit (n : Nat) : UInt8 := if n < 10 then (48 + n).toUInt8 else (87 + n).toUInt8

/-- The bytes in `%02x `, twenty in a line. -/
def hexDump (hash : Bytes) : Bytes :=
  (hash.zipIdx.flatMap fun (c, i) => (if i ≠ 0 ∧ i % 20 = 0 then ascii "\n" else []) ++
    [hexDigit (c.toNat / 16), hexDigit (c.toNat % 16), 32]) ++ ascii "\n"

def pieceHashPrint (member : Option BString) : Printing :=
  onlyIf member.isSome (bStringGet .pieceHash member fun s => inOrder
    [traceInfo "torrent_info_print" 333
        (ascii "[ piece_hash (" ++ percentD s.len.toNat ++ ascii ") ]:\n\n"),
      .done () [.output (hexDump (s.data.take s.len.toNat))]])

def torrentInfoPrint (mem : Memory) (ptr : TorrentInfo) : Printing :=
  let func := "torrent_info_print"
  inOrder
    [textPrint func 310 "[ publisher ]:\n" .publisher ptr.publisher,
      textPrint func 312 "[ publisher(utf-8) ]:\n" .publisherUtf8 ptr.publisherUtf8,
      textPrint func 314 "[ publisher_url ]:\n" .publisherUrl ptr.publisherUrl,
      textPrint func 316 "[ publisher_url(utf-8) ]:\n" .publisherUrlUtf8 ptr.publisherUrlUtf8,
      textPrint func 318 "[ name ]:\n" .name ptr.name,
      textPrint func 320 "[ name(utf-8) ]:\n" .nameUtf8 ptr.nameUtf8,
      numberPrint func 322 "[ length ]:\n" ptr.length.toNat,
      addressPrint mem func 324 "[ md5sum(single file) ]:\n" .md5sum ptr.md5sum,
      addressPrint mem func 326 "[ private ]:\n" .private_ ptr.private_,
      numberPrint func 328 "[ piece_len ]:\n" ptr.pieceLen.toNat,
      pieceHashPrint ptr.pieceHash,
      textPrint func 341 "[ dir_name ]:\n" .dirName ptr.multi.dirName,
      multiFilesPrint mem 0 ptr.multi.filesList]

def torrentPrint (mem : Memory) (ptr : Torrent) : Printing :=
  let func := "torrent_print"
  inOrder
    [traceInfo func 349 (ascii "[ Torrent Info BEGIN ]\n"),
      textPrint func 351 "[ announce ]:\n" .announce ptr.announce,
      onlyIf ptr.announceList.isSome (memberPrint mem .announceList ptr.announceList),
      textPrint func 356 "[ comment ]:\n" .comment ptr.comment,
      textPrint func 358 "[ comment(utf8) ]:\n" .commentUtf8 ptr.commentUtf8,
      textPrint func 360 "[ create by ]:\n" .createBy ptr.createBy,
      onlyIf (ptr.createDate ≠ 0) (traceInfo func 362
        (ascii "[ create date ]:\n" ++ mem.ctime ptr.createDate ++ ascii "\n")),
      numberPrint func 364 "[ encoding ]:\n" ptr.encoding.toNat,
      torrentInfoPrint mem ptr.info,
      traceInfo func 366 (ascii "[ Torrent Info END ]\n")]

def Event.visited : Event → Option Nat
  | .visit file => some file
  | _ => none

def Event.usedOf (file : Nat) : Event → Option Slot
  | .use (.path i) => if i = file then some (.path i) else none
  | .use (.pathUtf8 i) => if i = file then some (.pathUtf8 i) else none
  | _ => none

/-- No `NULL` is used, each file is visited once and its members are printed if they are there. -/
structure Printable (mem : Memory) (t : Torrent) : Prop where
  returns : ∃ log, torrentPrint mem t = .done () log
  visits : (torrentPrint mem t).final.filterMap Event.visited =
    List.range t.info.multi.filesList.length
  paths : ∀ i vec, t.info.multi.filesList[i]? = some vec →
    (torrentPrint mem t).final.filterMap (Event.usedOf i) =
      (if vec.path.isSome then [.path i] else []) ++
        (if vec.pathUtf8.isSome then [.pathUtf8 i] else [])

-- A mark that nothing but the visit of a file and the use of its members has.
structure OfFiles {β : Type} (mark : Event → Option β) : Prop where
  message : ∀ m, mark (.message m) = none
  output : ∀ text, mark (.output text) = none
  use : ∀ slot, (∀ i, slot ≠ .path i ∧ slot ≠ .pathUtf8 i) → mark (.use slot) = none

section Marks

variable {β : Type} {mark : Event → Option β} {func title : String} {line : Nat} {slot : Slot}
  {mem : Memory}

theorem traceInfo_marks (files : OfFiles mark) (text : Bytes) :
    (traceInfo func line text).Marks mark [] :=
  marks_none (files.message _)

theorem onlyIf_marks {cond : Bool} {statement : Printing}
    (inside : cond = true → statement.Marks mark []) : (onlyIf cond statement).Marks mark [] := by
  unfold onlyIf
  split
  next holds => exact inside holds
  next => exact marks_nothing

theorem bStringGet_marks (files : OfFiles mark) (other : ∀ i, slot ≠ .path i ∧ slot ≠ .pathUtf8 i)
    {member : Option BString} (present : member.isSome = true) {statement : BString → Printing}
    (inside : ∀ s, (statement s).Marks mark []) :
    (bStringGet slot member statement).Marks mark [] := by
  obtain ⟨s, rfl⟩ := Option.isSome_iff_exists.mp present
  exact (marks_none (files.use slot other)).follow (inside s)

theorem textPrint_marks (files : OfFiles mark) (other : ∀ i, slot ≠ .path i ∧ slot ≠ .pathUtf8 i)
    (member : Option BString) : (textPrint func line title slot member).Marks mark [] :=
  onlyIf_marks fun present => bStringGet_marks files other present fun _ => traceInfo_marks files _

theorem addressPrint_marks (files : OfFiles mark)
    (other : ∀ i, slot ≠ .path i ∧ slot ≠ .pathUtf8 i) (member : Option BString) :
    (addressPrint mem func line title slot member).Marks mark [] :=
  onlyIf_marks fun present => bStringGet_marks files other present fun _ => traceInfo_marks files _

theorem numberPrint_marks (files : OfFiles mark) (n : Nat) :
    (numberPrint func line title n).Marks mark [] :=
  onlyIf_marks fun _ => traceInfo_marks files _

theorem pieceHashPrint_marks (files : OfFiles mark) (member : Option BString) :
    (pieceHashPrint member).Marks mark [] := by
  refine onlyIf_marks fun present => bStringGet_marks files (by simp) present fun s => ?_
  exact marks_inOrder (.cons (traceInfo_marks files _) (.cons (marks_none (files.output _)) .nil))

theorem messages_marks (files : OfFiles mark) {call : Outcome (List Trace) Unit} {log : List Trace}
    (returned : call = .done () log) : (messages call).Marks mark [] := by
  refine ⟨log.map .message, by rw [returned, messages], ?_⟩
  simp [List.filterMap_map, files.message]

end Marks

-- The lists that a torrent has taken over are as the parser built them.
def WholeMember (member : Option BList) : Prop := ∀ l, member = some l → Whole (.list l)

structure WholeFile (file : MultiFiles) : Prop where
  path : WholeMember file.path
  pathUtf8 : WholeMember file.pathUtf8

structure WholeTorrent (t : Torrent) : Prop where
  announceList : WholeMember t.announceList
  files : ∀ file ∈ t.info.multi.filesList, WholeFile file

def WholeEntry (e : DEntry BValue) : Prop := ∀ v, e.val = some v → Whole v

theorem forEach_invariant {T E : Type} {step : St → T → E → Step T E} {inv : T → Prop}
    {ok : E → Prop} (round : ∀ st t e, inv t → ok e → inv (step st t e).target) (st : St) {t : T}
    {es : List E} (start : inv t) (all : ∀ e ∈ es, ok e) : inv (forEach step st t es).target := by
  induction es generalizing st t with
  | nil => exact start
  | cons e es ih =>
    obtain ⟨here, later⟩ := List.forall_mem_cons.mp all
    have first := round st t e start here
    rw [forEach]
    dsimp only
    split
    next => exact ih _ first later
    next => exact first

section Whole

variable {env : Env}

-- Only the branches that store or go through a list or a dictionary matter here.
theorem torrentInfoEntry_cases (st : St) (info : TorrentInfo) (vec : DEntry BValue) :
    (∃ l, listAt vec "files" = some l ∧ torrentInfoEntry env st info vec =
      let files := forEach (torrentInfoFile env) st info.multi l.entries
      ⟨files.status, { info with multi := files.target },
        { vec with val := some (.list { l with entries := files.entry }) }, files.st⟩) ∨
    ((∀ l, listAt vec "files" = some l → False) ∧
      (torrentInfoEntry env st info vec).status = 0 ∧
      (torrentInfoEntry env st info vec).target.multi = info.multi ∧
      (torrentInfoEntry env st info vec).st = st) := by
  have plain {x : BValue} (val : vec.val = some x) (type : asList x = none) (l : BList)
      (found : listAt vec "files" = some l) : False := by
    have same := val.symm.trans (listAt_some found).2
    cases same
    cases type
  unfold torrentInfoEntry
  split
  next i found => exact .inr ⟨plain (intAt_some found).2 rfl, rfl, rfl, rfl⟩
  split
  next s found => exact .inr ⟨plain (stringAt_some found).2 rfl, rfl, rfl, rfl⟩
  split
  next s found => exact .inr ⟨plain (stringAt_some found).2 rfl, rfl, rfl, rfl⟩
  split
  next s found => exact .inr ⟨plain (stringAt_some found).2 rfl, rfl, rfl, rfl⟩
  split
  next i found => exact .inr ⟨plain (intAt_some found).2 rfl, rfl, rfl, rfl⟩
  split
  next s found => exact .inr ⟨plain (stringAt_some found).2 rfl, rfl, rfl, rfl⟩
  split
  next s found => exact .inr ⟨plain (stringAt_some found).2 rfl, rfl, rfl, rfl⟩
  split
  next s found => exact .inr ⟨plain (stringAt_some found).2 rfl, rfl, rfl, rfl⟩
  split
  next s found => exact .inr ⟨plain (stringAt_some found).2 rfl, rfl, rfl, rfl⟩
  split
  next s found => exact .inr ⟨plain (stringAt_some found).2 rfl, rfl, rfl, rfl⟩
  split
  next s found => exact .inr ⟨plain (stringAt_some found).2 rfl, rfl, rfl, rfl⟩
  split
  next l found => exact .inl ⟨l, found, rfl⟩
  next noFiles => exact .inr ⟨noFiles, rfl, rfl, rfl⟩

theorem torrentEntry_cases (st : St) (t : Torrent) (vec : DEntry BValue) :
    (∃ d, dictAt vec "info" = some d ∧ torrentEntry env st t vec =
      let info := torrentInfoParse env st d t.info
      ⟨info.status, { t with info := info.target }, { vec with val := some (.dict info.entry) },
        info.st⟩) ∨
    (∃ l, listAt vec "announce-list" = some l ∧ torrentEntry env st t vec =
      ⟨0, { t with announceList := some l }, moved vec, st⟩) ∨
    ((∀ d, dictAt vec "info" = some d → False) ∧ (torrentEntry env st t vec).status = 0 ∧
      (torrentEntry env st t vec).target.announceList = t.announceList ∧
      (torrentEntry env st t vec).target.info = t.info ∧ (torrentEntry env st t vec).st = st) := by
  have plain {x : BValue} (val : vec.val = some x) (type : asDict x = none) (d : BDict)
      (found : dictAt vec "info" = some d) : False := by
    have same := val.symm.trans (dictAt_some found).2
    cases same
    cases type
  unfold torrentEntry
  split
  next s found => exact .inr (.inr ⟨plain (stringAt_some found).2 rfl, rfl, rfl, rfl, rfl⟩)
  split
  next l found => exact .inr (.inl ⟨l, found, rfl⟩)
  split
  next s found => exact .inr (.inr ⟨plain (stringAt_some found).2 rfl, rfl, rfl, rfl, rfl⟩)
  split
  next s found => exact .inr (.inr ⟨plain (stringAt_some found).2 rfl, rfl, rfl, rfl, rfl⟩)
  split
  next s found => exact .inr (.inr ⟨plain (stringAt_some found).2 rfl, rfl, rfl, rfl, rfl⟩)
  split
  next s found => exact .inr (.inr ⟨plain (stringAt_some found).2 rfl, rfl, rfl, rfl, rfl⟩)
  split
  next i found => exact .inr (.inr ⟨plain (intAt_some found).2 rfl, rfl, rfl, rfl, rfl⟩)
  split
  next s found => exact .inr (.inr ⟨plain (stringAt_some found).2 rfl, rfl, rfl, rfl, rfl⟩)
  split
  next s found => exact .inr (.inr ⟨plain (stringAt_some found).2 rfl, rfl, rfl, rfl, rfl⟩)
  split
  next d found => exact .inl ⟨d, found, rfl⟩
  next noInfo => exact .inr (.inr ⟨noInfo, rfl, rfl, rfl, rfl⟩)

theorem wholeMember_of_listAt {vec : DEntry BValue} {key : String} {l : BList}
    (ok : WholeEntry vec) (found : listAt vec key = some l) : WholeMember (some l) := by
  rintro _ ⟨⟩
  exact ok _ (listAt_some found).2

theorem multiFilesEntry_whole (st : St) (ptr : MultiFiles) (vec : DEntry BValue)
    (file : WholeFile ptr) (ok : WholeEntry vec) :
    WholeFile (multiFilesEntry st ptr vec).target := by
  unfold multiFilesEntry
  split
  next l found => exact ⟨wholeMember_of_listAt ok found, file.pathUtf8⟩
  split
  next l found => exact ⟨file.path, wholeMember_of_listAt ok found⟩
  split
  next => exact ⟨file.path, file.pathUtf8⟩
  next => exact file

theorem torrentInfoFile_whole (st : St) (multi : InfoMultiFile) (vec : LEntry BValue)
    (files : ∀ file ∈ multi.filesList, WholeFile file) (ok : Whole vec.entry) :
    ∀ file ∈ (torrentInfoFile env st multi vec).target.filesList, WholeFile file := by
  cases entry : vec.entry with
  | dict d =>
    rw [entry] at ok
    cases ok with
    | dict entries values =>
      simp only [torrentInfoFile, entry, multiFilesAlloc]
      split
      next added d' st' allocated =>
        split at allocated
        next =>
          cases allocated
          intro file member
          rcases List.mem_append.mp member with old | new
          next => exact files file old
          next =>
            rw [List.mem_singleton.mp new]
            refine forEach_invariant multiFilesEntry_whole _ ⟨?_, ?_⟩ values
            · rintro _ ⟨⟩
            · rintro _ ⟨⟩
        next => cases allocated
      next => exact files
  | _ => simpa only [torrentInfoFile, entry] using files

theorem torrentInfoEntry_whole (st : St) (info : TorrentInfo) (vec : DEntry BValue)
    (files : ∀ file ∈ info.multi.filesList, WholeFile file) (ok : WholeEntry vec) :
    ∀ file ∈ (torrentInfoEntry env st info vec).target.multi.filesList, WholeFile file := by
  rcases torrentInfoEntry_cases st info vec with ⟨l, found, round⟩ | ⟨-, -, multi, -⟩
  next =>
    rw [round]
    cases ok _ (listAt_some found).2 with
    | list items =>
      exact @forEach_invariant _ _ _
        (fun multi : InfoMultiFile => ∀ file ∈ multi.filesList, WholeFile file)
        (fun e : LEntry BValue => Whole e.entry)
        torrentInfoFile_whole st _ _ files items
  next =>
    rw [multi]
    exact files

theorem torrentEntry_whole (st : St) (t : Torrent) (vec : DEntry BValue) (torrent : WholeTorrent t)
    (ok : WholeEntry vec) : WholeTorrent (torrentEntry env st t vec).target := by
  rcases torrentEntry_cases st t vec with ⟨d, found, round⟩ | ⟨l, found, round⟩ | other
  next =>
    rw [round]
    cases ok _ (dictAt_some found).2 with
    | dict entries values =>
      exact ⟨torrent.announceList, @forEach_invariant _ _ _
        (fun info : TorrentInfo => ∀ file ∈ info.multi.filesList, WholeFile file) WholeEntry
        torrentInfoEntry_whole st _ _ torrent.files values⟩
  next =>
    rw [round]
    exact ⟨wholeMember_of_listAt ok found, torrent.files⟩
  next =>
    obtain ⟨-, -, announceList, info, -⟩ := other
    exact ⟨announceList ▸ torrent.announceList, info ▸ torrent.files⟩

end Whole

theorem torrentParse_zero {env : Env} {fuel : Nat} {st st' : St} {t t' : Torrent}
    (parsed : torrentParse env fuel st t = .done (0, t') st') :
    env.alloc st.mallocs = true ∧ ∃ q d st₁,
      bDictParse env fuel (st.malloc env) 0 (bDictAlloc st.mallocs) = .done (some q, d) st₁ ∧
        (forEach (torrentEntry env) st₁ t d.entries).status = 0 ∧
        (forEach (torrentEntry env) st₁ t d.entries).target = t' := by
  unfold torrentParse at parsed
  split at parsed
  next node =>
    refine ⟨node, ?_⟩
    obtain ⟨⟨next, d⟩, st₁, read, stored⟩ := andThen_eq_done parsed
    cases next with
    | none => cases stored
    | some q =>
      simp only [Outcome.done.injEq, Prod.mk.injEq] at stored
      exact ⟨q, d, st₁, read, stored.1.1, stored.1.2⟩
  next => cases parsed

theorem torrentAlloc_some {env : Env} {st st₁ : St} {t : Torrent}
    (new : torrentAlloc env st = (some t, st₁)) :
    env.alloc st.mallocs = true ∧ st₁ = st.malloc env ∧ t.view = {} ∧ WholeTorrent t := by
  unfold torrentAlloc at new
  split at new
  next node =>
    cases new
    refine ⟨node, rfl, rfl, ?_, by simp⟩
    rintro _ ⟨⟩
  next => cases new

theorem torrentParse_stored {env : Env} {fuel : Nat} {st st₁ st' : St} {t t' : Torrent}
    (new : torrentAlloc env st = (some t, st₁))
    (parsed : torrentParse env fuel st₁ t = .done (0, t') st') :
    WholeTorrent t' ∧ ∃ es, Holds env (st₁.malloc env).toScan es ∧ t'.view = TorrentView.update {} es := by
  obtain ⟨-, -, empty, whole⟩ := torrentAlloc_some new
  obtain ⟨-, q, d, st₂, read, success, rfl⟩ := torrentParse_zero parsed
  have built := (parse_whole env fuel).dict (st₁.malloc env) 0 (bDictAlloc st₁.mallocs)
    (.dict (by simp [bDictAlloc]) (by simp [bDictAlloc]))
  rw [read] at built
  cases built with
  | dict entries values =>
    refine ⟨forEach_invariant torrentEntry_whole _ whole values, _, holds_of_accepted read, ?_⟩
    rw [eraseEntries_flatMap, ← empty]
    exact forEach_update Torrent.view entryContent TorrentView.update TorrentView.update_nil
      TorrentView.update_append (torrentEntry env) torrentEntry_update st₂ t d.entries success

section Files

variable {β : Type} {mark : Event → Option β} {mem : Memory}

theorem memberPrint_returns {member : Option BList} (whole : WholeMember member)
    (present : member.isSome = true) : ∃ log, bListPrint mem member = .done () log := by
  obtain ⟨l, rfl⟩ := Option.isSome_iff_exists.mp present
  obtain ⟨log, returned, -⟩ := bListPrint_tells mem (whole l rfl)
  exact ⟨log, returned⟩

theorem announceList_marks (files : OfFiles mark) {member : Option BList}
    (whole : WholeMember member) :
    (onlyIf member.isSome (memberPrint mem .announceList member)).Marks mark [] := by
  refine onlyIf_marks fun present => ?_
  obtain ⟨log, returned⟩ := @memberPrint_returns mem _ whole present
  exact (marks_none (files.use _ (by simp))).follow (messages_marks files returned)

def fileMarks (mark : Event → Option β) (file : Nat) (vec : MultiFiles) : List β :=
  (mark (.visit file)).toList ++ if vec.path.isSome then (mark (.use (.path file))).toList else []

theorem marks_event (x : Event) : Marks (.done () [x]) mark (mark x).toList := by
  cases found : mark x with
  | none => exact marks_none found
  | some b => exact marks_some found

theorem multiFilesPrint_marks (files : OfFiles mark) (file : Nat) {vecs : List MultiFiles}
    (whole : ∀ vec ∈ vecs, WholeFile vec) (plain : ∀ vec ∈ vecs, vec.pathUtf8 = none) :
    (multiFilesPrint mem file vecs).Marks mark
      ((vecs.zipIdx file).flatMap fun (vec, i) => fileMarks mark i vec) := by
  induction vecs generalizing file with
  | nil => exact marks_nothing
  | cons vec vecs ih =>
    obtain ⟨here, later⟩ := List.forall_mem_cons.mp whole
    obtain ⟨none, others⟩ := List.forall_mem_cons.mp plain
    have path : (onlyIf vec.path.isSome (inOrder
        [traceInfo "multi_files_print" 296 (ascii "[ path ]:\n"),
          memberPrint mem (.path file) vec.path])).Marks mark
        (if vec.path.isSome then (mark (.use (.path file))).toList else []) := by
      unfold onlyIf
      split
      next present =>
        obtain ⟨log, returned⟩ := @memberPrint_returns mem _ here.path present
        have used := (marks_event (.use (.path file))).follow (messages_marks files returned)
        exact Marks.congr (marks_inOrder (.cons (traceInfo_marks files _) (.cons used .nil)))
          (by simp)
      next => exact marks_nothing
    rw [multiFilesPrint, List.zipIdx_cons, List.flatMap_cons]
    refine Marks.follow ?_ (ih (file + 1) later others)
    have noUtf8 (statement : Printing) : (onlyIf vec.pathUtf8.isSome statement).Marks mark [] :=
      onlyIf_marks fun present => by simp [none] at present
    exact Marks.congr (marks_inOrder (.cons (marks_event _) (.cons path (.cons (noUtf8 _)
      (.cons (traceInfo_marks files _) .nil))))) (by simp [fileMarks])

theorem torrentPrint_marks (files : OfFiles mark) {t : Torrent} (whole : WholeTorrent t)
    (plain : ∀ vec ∈ t.info.multi.filesList, vec.pathUtf8 = none) :
    (torrentPrint mem t).Marks mark
      (t.info.multi.filesList.zipIdx.flatMap fun (vec, i) => fileMarks mark i vec) := by
  have text {func title : String} {line : Nat} (slot : Slot) (member : Option BString)
      (other : ∀ i, slot ≠ .path i ∧ slot ≠ .pathUtf8 i) :
      (textPrint func line title slot member).Marks mark [] := textPrint_marks files other member
  have info : (torrentInfoPrint mem t.info).Marks mark _ := marks_inOrder
    (.cons (text _ _ (by simp)) (.cons (text _ _ (by simp)) (.cons (text _ _ (by simp))
      (.cons (text _ _ (by simp)) (.cons (text _ _ (by simp)) (.cons (text _ _ (by simp))
      (.cons (numberPrint_marks files _) (.cons (addressPrint_marks files (by simp) _)
      (.cons (addressPrint_marks files (by simp) _) (.cons (numberPrint_marks files _)
      (.cons (pieceHashPrint_marks files _) (.cons (text _ _ (by simp))
      (.cons (multiFilesPrint_marks files 0 whole.files plain) .nil)))))))))))))
  have all : (torrentPrint mem t).Marks mark _ := marks_inOrder
    (.cons (traceInfo_marks files _) (.cons (text _ _ (by simp))
      (.cons (announceList_marks files whole.announceList) (.cons (text _ _ (by simp))
      (.cons (text _ _ (by simp)) (.cons (text _ _ (by simp))
      (.cons (onlyIf_marks fun _ => traceInfo_marks files _) (.cons (numberPrint_marks files _)
      (.cons info (.cons (traceInfo_marks files _) .nil))))))))))
  exact all.congr (by simp)

end Files

theorem visited_ofFiles : OfFiles Event.visited where
  message _ := rfl
  output _ := rfl
  use _ _ := rfl

theorem usedOf_ofFiles (file : Nat) : OfFiles (Event.usedOf file) where
  message _ := rfl
  output _ := rfl
  use slot other := by
    cases slot with
    | path i => exact absurd rfl (other i).1
    | pathUtf8 i => exact absurd rfl (other i).2
    | _ => rfl

theorem visited_files (vecs : List MultiFiles) :
    (vecs.zipIdx.flatMap fun (vec, i) => fileMarks Event.visited i vec) =
      List.range vecs.length := by
  have own (x : MultiFiles × Nat) : fileMarks Event.visited x.2 x.1 = [x.2] := by
    simp [fileMarks, Event.visited]
  calc vecs.zipIdx.flatMap (fun x => fileMarks Event.visited x.2 x.1)
    _ = vecs.zipIdx.flatMap (fun x => [x.2]) := by simp only [own]
    _ = vecs.zipIdx.map Prod.snd := List.map_eq_flatMap.symm
    _ = List.range vecs.length := by rw [List.zipIdx_map_snd, List.range_eq_range']

theorem usedOf_file (i j : Nat) (vec : MultiFiles) :
    fileMarks (Event.usedOf i) j vec = if vec.path.isSome ∧ j = i then [.path i] else [] := by
  by_cases same : j = i
  next => simp [fileMarks, Event.usedOf, same]
  next => simp [fileMarks, Event.usedOf, same]

theorem usedOf_files {vecs : List MultiFiles} {vec : MultiFiles} {i : Nat} (start : Nat)
    (found : vecs[i]? = some vec) :
    ((vecs.zipIdx start).flatMap fun (vec, j) => fileMarks (Event.usedOf (start + i)) j vec) =
      if vec.path.isSome then [.path (start + i)] else [] := by
  induction vecs generalizing start i with
  | nil => simp at found
  | cons v vecs ih =>
    simp only [List.zipIdx_cons, List.flatMap_cons, usedOf_file] at ih ⊢
    cases i with
    | zero =>
      rw [List.getElem?_cons_zero, Option.some.injEq] at found
      have later : ((vecs.zipIdx (start + 1)).flatMap fun x =>
          if x.1.path.isSome ∧ x.2 = start + 0 then [Slot.path (start + 0)] else []) = [] := by
        refine List.flatMap_eq_nil_iff.mpr fun x member => ?_
        have behind := List.le_snd_of_mem_zipIdx member
        rw [if_neg (by omega)]
      rw [later, found]
      simp
    | succ i =>
      rw [List.getElem?_cons_succ] at found
      have rest := ih (start + 1) found
      rw [if_neg (by omega), show start + (i + 1) = start + 1 + i by omega, rest, List.nil_append]

theorem printable_of_plain (mem : Memory) {t : Torrent} (whole : WholeTorrent t)
    (plain : ∀ vec ∈ t.info.multi.filesList, vec.pathUtf8 = none) : Printable mem t := by
  obtain ⟨log, returned, visits⟩ := @torrentPrint_marks _ _ mem visited_ofFiles _ whole plain
  refine ⟨⟨log, returned⟩, ?_, fun i vec found => ?_⟩
  · rw [returned]
    exact visits.trans (visited_files _)
  · obtain ⟨log, returned, used⟩ := @torrentPrint_marks _ _ mem (usedOf_ofFiles i) _ whole plain
    have files := usedOf_files 0 found
    rw [Nat.zero_add] at files
    rw [returned, plain vec (List.mem_of_getElem? found)]
    simpa [final] using used.trans files

section Uses

variable {func title : String} {line : Nat} {slot other : Slot} {mem : Memory}

theorem traceInfo_uses (text : Bytes) : .use slot ∉ (traceInfo func line text).final := by
  simp [traceInfo, final]

theorem onlyIf_uses {cond : Bool} {statement : Printing} (inside : .use slot ∉ statement.final) :
    .use slot ∉ (onlyIf cond statement).final := by
  unfold onlyIf
  split
  next => exact inside
  next => simp [final]

theorem bStringGet_uses (different : slot ≠ other) {member : Option BString}
    {statement : BString → Printing} (inside : ∀ s, .use slot ∉ (statement s).final) :
    .use slot ∉ (bStringGet other member statement).final := by
  intro used
  rcases mem_final_follow used with here | later
  next => simp [final, different] at here
  next =>
    cases member with
    | some s => exact inside s later
    | none => simp [final] at later

theorem textPrint_uses (different : slot ≠ other) (member : Option BString) :
    .use slot ∉ (textPrint func line title other member).final :=
  onlyIf_uses (bStringGet_uses different fun _ => traceInfo_uses _)

theorem addressPrint_uses (different : slot ≠ other) (member : Option BString) :
    .use slot ∉ (addressPrint mem func line title other member).final :=
  onlyIf_uses (bStringGet_uses different fun _ => traceInfo_uses _)

theorem numberPrint_uses (n : Nat) : .use slot ∉ (numberPrint func line title n).final :=
  onlyIf_uses (traceInfo_uses _)

theorem memberPrint_uses (different : slot ≠ other) (member : Option BList) :
    .use slot ∉ (memberPrint mem other member).final := by
  intro used
  rcases mem_final_follow used with here | later
  next => simp [final, different] at here
  next =>
    revert later
    cases bListPrint mem member <;> simp [messages, final]

theorem nothing_uses : .use slot ∉ (inOrder ([] : List Printing)).final := by
  simp [inOrder, final]

theorem follow_uses {first second : Printing} (here : .use slot ∉ first.final)
    (later : .use slot ∉ second.final) : .use slot ∉ (first.follow second).final :=
  fun used => (mem_final_follow used).elim here later

theorem multiFilesPrint_uses (i file : Nat) (vecs : List MultiFiles) :
    .use (.pathUtf8 i) ∉ (multiFilesPrint mem file vecs).final := by
  induction vecs generalizing file with
  | nil => exact nothing_uses
  | cons vec vecs ih =>
    have path (title : Bytes) (line : Nat) : .use (.pathUtf8 i) ∉
        (inOrder [traceInfo "multi_files_print" line title,
          memberPrint mem (.path file) vec.path]).final :=
      follow_uses (traceInfo_uses _) (follow_uses (memberPrint_uses (by simp) _) nothing_uses)
    rw [multiFilesPrint]
    exact follow_uses (follow_uses (by simp [final]) (follow_uses (onlyIf_uses (path _ _))
      (follow_uses (onlyIf_uses (path _ _)) (follow_uses (traceInfo_uses _) nothing_uses))))
      (ih (file + 1))

theorem pieceHashPrint_uses (different : slot ≠ .pieceHash) (member : Option BString) :
    .use slot ∉ (pieceHashPrint member).final :=
  onlyIf_uses (bStringGet_uses different fun _ =>
    follow_uses (traceInfo_uses _) (follow_uses (by simp [final]) nothing_uses))

/-- `path_utf8` is tested but never given to `b_list_print`. -/
theorem torrentPrint_uses (i : Nat) (t : Torrent) :
    .use (.pathUtf8 i) ∉ (torrentPrint mem t).final := by
  have text {func title : String} {line : Nat} (other : Slot) (member : Option BString)
      (different : .pathUtf8 i ≠ other) :
      .use (.pathUtf8 i) ∉ (textPrint func line title other member).final :=
    textPrint_uses different member
  have info : .use (.pathUtf8 i) ∉ (torrentInfoPrint mem t.info).final :=
    follow_uses (text _ _ (by simp)) (follow_uses (text _ _ (by simp)) (follow_uses
      (text _ _ (by simp)) (follow_uses (text _ _ (by simp)) (follow_uses (text _ _ (by simp))
      (follow_uses (text _ _ (by simp)) (follow_uses (numberPrint_uses _) (follow_uses
      (addressPrint_uses (by simp) _) (follow_uses (addressPrint_uses (by simp) _) (follow_uses
      (numberPrint_uses _) (follow_uses (pieceHashPrint_uses (by simp) _) (follow_uses
      (text _ _ (by simp)) (follow_uses (multiFilesPrint_uses i 0 _) nothing_uses))))))))))))
  exact follow_uses (traceInfo_uses _) (follow_uses (text _ _ (by simp)) (follow_uses
    (onlyIf_uses (memberPrint_uses (by simp) _)) (follow_uses (text _ _ (by simp)) (follow_uses
    (text _ _ (by simp)) (follow_uses (text _ _ (by simp)) (follow_uses
    (onlyIf_uses (traceInfo_uses _)) (follow_uses (numberPrint_uses _) (follow_uses info
    (follow_uses (traceInfo_uses _) nothing_uses)))))))))

theorem Printable.plain {t : Torrent} (printable : Printable mem t) :
    ∀ vec ∈ t.info.multi.filesList, vec.pathUtf8 = none := by
  intro vec member
  obtain ⟨i, found⟩ := List.mem_iff_getElem?.mp member
  cases stored : vec.pathUtf8 with
  | none => rfl
  | some l =>
    have used : Slot.pathUtf8 i ∈ (torrentPrint mem t).final.filterMap (Event.usedOf i) := by
      rw [printable.paths i vec found, stored]
      simp
    obtain ⟨event, logged, mark⟩ := List.mem_filterMap.mp used
    have same : event = .use (.pathUtf8 i) := by
      unfold Event.usedOf at mark
      split at mark
      next => split at mark <;> cases mark
      next => split at mark <;> cases mark; rfl
      next => cases mark
    exact absurd (same ▸ logged) (torrentPrint_uses i t)

end Uses

theorem plain_iff {t : Torrent} {es : List (Bytes × Value)}
    (view : t.view = TorrentView.update {} es) :
    (∀ vec ∈ t.info.multi.filesList, vec.pathUtf8 = none) ↔
      ∀ file ∈ (es.flatMap infoOf).flatMap filesOf,
        last (ascii "path.utf-8") itemsOf file = none := by
  have files : t.info.multi.filesList.map MultiFiles.view =
      ((es.flatMap infoOf).flatMap filesOf).map (FileView.update {}) :=
    congrArg (fun v => v.info.files) view
  have views : (∀ v ∈ t.info.multi.filesList.map MultiFiles.view, v.pathUtf8 = none) ↔
      ∀ v ∈ ((es.flatMap infoOf).flatMap filesOf).map (FileView.update {}), v.pathUtf8 = none := by
    rw [files]
  simpa only [List.forall_mem_map, MultiFiles.view, itemsView, Option.map_eq_none_iff,
    FileView.update, Option.or_none] using views

theorem torrent_printable_iff (env : Env) (mem : Memory) (fuel : Nat) (st st₁ st' : St)
    (t t' : Torrent) (new : torrentAlloc env st = (some t, st₁))
    (parsed : torrentParse env fuel st₁ t = .done (0, t') st') :
    Printable mem t' ↔ ∀ es, Holds env (st₁.malloc env).toScan es →
      ∀ file ∈ (es.flatMap infoOf).flatMap filesOf,
        last (ascii "path.utf-8") itemsOf file = none := by
  obtain ⟨whole, es, holds, view⟩ := torrentParse_stored new parsed
  constructor
  · intro printable es' content
    rw [← holds_unique holds content]
    exact (plain_iff view).mp printable.plain
  · intro without
    exact printable_of_plain mem whole ((plain_iff view).mpr (without es holds))

theorem torrent_printable_with_path :
    ∃ t st, torrentAlloc (.plentiful (ascii "d4:infod5:filesld4:pathleeeee"))
        (start 0) = (some t, st) ∧
      ∃ fuel t' st', torrentParse (.plentiful (ascii "d4:infod5:filesld4:pathleeeee"))
        fuel st t = .done (0, t') st' ∧ ∀ mem, Printable mem t' := by
  have parsable : ParsableEntries
      [(ascii "info", .dict [(ascii "files", .list [.dict [(ascii "path", .list [])]])])] := by
    simp [ParsableEntries, Parsable, ParsableItems, ascii, keyLen]
  obtain ⟨s', reads⟩ := @encEntries_reads
    (.plentiful (ascii "d4:infod5:filesld4:pathleeeee")) (fun _ => rfl) _ parsable
    (opened (.plentiful (ascii "d4:infod5:filesld4:pathleeeee")) (start 0)).toScan rfl
  have holds : Holds (.plentiful (ascii "d4:infod5:filesld4:pathleeeee"))
      (opened _ (start 0)).toScan
      [(ascii "info", .dict [(ascii "files", .list [.dict [(ascii "path", .list [])]])])] :=
    ⟨_, [], s', by decide, reads⟩
  obtain ⟨enough, parses⟩ := yields_parsable parsable
    (.plentiful (ascii "d4:infod5:filesld4:pathleeeee")) (start 0) [] _ _ rfl
    (fun _ => rfl) (by decide) rfl
  obtain ⟨t', st', parsed, -⟩ := parses enough le_rfl
  refine ⟨_, _, rfl, enough, t', st', parsed, fun mem => ?_⟩
  refine (torrent_printable_iff _ mem enough (start 0) _ st' _ t' rfl parsed).mpr fun es content => ?_
  rw [← holds_unique holds content]
  decide

theorem utf8_path_not_printable :
    ∃ t st, torrentAlloc (.plentiful (ascii "d4:infod5:filesld10:path.utf-8leeeee"))
        (start 0) = (some t, st) ∧
      ∃ fuel t' st', torrentParse
        (.plentiful (ascii "d4:infod5:filesld10:path.utf-8leeeee"))
        fuel st t = .done (0, t') st' ∧ ∀ mem, ¬ Printable mem t' := by
  have parsable : ParsableEntries
      [(ascii "info", .dict [(ascii "files", .list [.dict [(ascii "path.utf-8", .list [])]])])] := by
    simp [ParsableEntries, Parsable, ParsableItems, ascii, keyLen]
  obtain ⟨enough, parses⟩ := yields_parsable parsable
    (.plentiful (ascii "d4:infod5:filesld10:path.utf-8leeeee")) (start 0) [] _ _ rfl
    (fun _ => rfl) (by decide) rfl
  obtain ⟨t', st', parsed, view⟩ := parses enough le_rfl
  refine ⟨_, _, rfl, enough, t', st', parsed, fun mem printable => ?_⟩
  exact absurd ((plain_iff view).mp printable.plain) (by decide)

end BTServer.Metainfo
