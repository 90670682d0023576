import BTServer.Metainfo.Takeover
import Mathlib.Tactic.MkIffOfInductiveProp

set_option autoImplicit false

namespace BTServer.Metainfo

open Bencode CString Outcome

def Event.Fits : Event → Prop
  | .message m => m.Fits
  | _ => True

def TextRoom (n : Nat) (text : Option (Bytes × Nat)) : Prop := ∀ x ∈ text, (cstr x.1).length ≤ n

def ItemsRoom (items : Option (List Value)) : Prop := ∀ vs ∈ items, ShortTexts (itemTexts vs)

section Print

variable {func title : String} {line : Nat} {slot : Slot} {mem : Memory}

theorem traceInfo_tells {text : Bytes}
    (fits : (ascii func).length + (decimal line).length + text.length + 15 ≤ 2000) :
    (traceInfo func line text).Tells Event.Fits True :=
  tells_one (iff_of_true ((Trace.fits_iff _).mpr fits) trivial)

theorem use_tells {statement : Printing} {P : Prop} (shown : statement.Tells Event.Fits P) :
    (follow (.done () [.use slot]) statement).Tells Event.Fits P := by
  have used : Tells (.done () [.use slot]) Event.Fits True := tells_one (iff_of_true trivial trivial)
  exact (used.follow shown).congr (by rw [true_and])

theorem onlyIf_tells {cond : Bool} {statement : Printing}
    (inside : statement.Tells Event.Fits True) : (onlyIf cond statement).Tells Event.Fits True := by
  unfold onlyIf
  split
  next => exact inside
  next => exact tells_nothing

theorem messages_tells {call : Outcome (List Trace) Unit} {P : Prop}
    (tells : call.Tells Trace.Fits P) : (messages call).Tells Event.Fits P := by
  obtain ⟨log, rfl, fits⟩ := tells
  refine ⟨log.map .message, rfl, ?_⟩
  rw [List.forall_mem_map]
  exact fits

theorem textPrint_tells (n : Nat) (member : Option BString)
    (room : (ascii func).length + (decimal line).length + (ascii title).length + n + 16 = 2000) :
    (textPrint func line title slot member).Tells Event.Fits (TextRoom n (textView member)) := by
  cases member with
  | none => exact tells_nothing.congr (by simp [TextRoom, textView])
  | some s =>
    have newline : (ascii "\n").length = 1 := rfl
    have shown : (traceInfo func line (ascii title ++ cstr s.data ++ ascii "\n")).Tells Event.Fits
        (TextRoom n (textView (some s))) := by
      refine tells_one ((Trace.fits_iff _).trans ?_)
      simp only [List.length_append, newline, TextRoom, textView, Option.map_some, Option.mem_def,
        Option.some.injEq, forall_eq']
      omega
    exact use_tells shown

theorem numberPrint_tells (n : Nat)
    (room : (ascii func).length + (decimal line).length + (ascii title).length ≤ 1973) :
    (numberPrint func line title n).Tells Event.Fits True := by
  have newline : (ascii "\n").length = 1 := rfl
  have number := percentD_length n
  refine onlyIf_tells (traceInfo_tells ?_)
  simp only [List.length_append]
  omega

theorem addressPrint_tells (member : Option BString)
    (room : (ascii func).length + (decimal line).length + (ascii title).length ≤ 1973) :
    (addressPrint mem func line title slot member).Tells Event.Fits True := by
  cases member with
  | none => exact tells_nothing
  | some s =>
    have newline : (ascii "\n").length = 1 := rfl
    have number := percentD_length (s.head.elim 0 mem.address : Nat)
    have shown : (traceInfo func line (ascii title ++ percentD (s.head.elim 0 mem.address : Nat) ++
        ascii "\n")).Tells Event.Fits True := by
      apply traceInfo_tells
      simp only [List.length_append]
      omega
    exact use_tells shown

theorem pieceHashPrint_tells (member : Option BString) :
    (pieceHashPrint member).Tells Event.Fits True := by
  cases member with
  | none => exact tells_nothing
  | some s =>
    have func : (ascii "torrent_info_print").length = 18 := rfl
    have line : (decimal 333).length = 3 := by decide
    have opened : (ascii "[ piece_hash (").length = 14 := rfl
    have closed : (ascii ") ]:\n\n").length = 6 := rfl
    have number := percentD_length s.len.toNat
    have shown : (traceInfo "torrent_info_print" 333 (ascii "[ piece_hash (" ++
        percentD s.len.toNat ++ ascii ") ]:\n\n")).Tells Event.Fits True := by
      apply traceInfo_tells
      simp only [List.length_append]
      omega
    have dump : Tells (.done () [.output (hexDump (s.data.take s.len.toNat))]) Event.Fits True :=
      tells_one (iff_of_true trivial trivial)
    exact use_tells ((tells_inOrder (.cons shown (.cons dump .nil))).congr (by simp))

theorem memberPrint_tells {l : BList} (whole : Whole (.list l)) :
    (memberPrint mem slot (some l)).Tells Event.Fits (ItemsRoom (itemsView (some l))) := by
  have shown := messages_tells (bListPrint_tells mem whole)
  exact use_tells (shown.congr (by simp [ItemsRoom, itemsView]))

theorem announceList_tells {member : Option BList} (whole : WholeMember member) :
    (onlyIf member.isSome (memberPrint mem slot member)).Tells Event.Fits
      (ItemsRoom (itemsView member)) := by
  cases member with
  | none => exact tells_nothing.congr (by simp [ItemsRoom, itemsView])
  | some l => exact memberPrint_tells (whole l rfl)

theorem dated_tells (date : UInt32) :
    (traceInfo "torrent_print" 362 (ascii "[ create date ]:\n" ++ mem.ctime date ++
      ascii "\n")).Tells Event.Fits True := by
  have func : (ascii "torrent_print").length = 13 := rfl
  have line : (decimal 362).length = 3 := by decide
  have title : (ascii "[ create date ]:\n").length = 17 := rfl
  have newline : (ascii "\n").length = 1 := rfl
  have dated := mem.dated date
  apply traceInfo_tells
  simp only [List.length_append]
  omega

/-- A file with a utf-8 path only is where printing crashes. -/
def FileView.printed (v : FileView) : Bool := v.path.isSome || v.pathUtf8.isNone

def FilesRoom (files : List FileView) : Prop :=
  ∀ file ∈ files.takeWhile FileView.printed, ItemsRoom file.path

theorem titled_tells {text : Bytes} {l : BList} (whole : Whole (.list l))
    (fits : (ascii func).length + (decimal line).length + text.length + 15 ≤ 2000) :
    (inOrder [traceInfo func line text, memberPrint mem slot (some l)]).Tells Event.Fits
      (ItemsRoom (itemsView (some l))) :=
  (tells_inOrder (.cons (traceInfo_tells fits) (.cons (memberPrint_tells whole) .nil))).congr
    (by simp)

theorem multiFilesPrint_logs (file : Nat) {vecs : List MultiFiles}
    (whole : ∀ vec ∈ vecs, WholeFile vec) :
    (multiFilesPrint mem file vecs).Logs Event.Fits (FilesRoom (vecs.map MultiFiles.view)) := by
  induction vecs generalizing file with
  | nil => exact tells_nothing.logs.congr (by simp [FilesRoom])
  | cons vec vecs ih =>
    obtain ⟨here, later⟩ := List.forall_mem_cons.mp whole
    obtain ⟨node, length, path, pathUtf8⟩ := vec
    have visit : Tells (.done () [.visit file]) Event.Fits True :=
      tells_one (iff_of_true trivial trivial)
    have lenght : (traceInfo "multi_files_print" 303
        (ascii "[ lenght ]:\n" ++ percentD length.toNat ++ ascii "\n")).Tells Event.Fits True := by
      have func : (ascii "multi_files_print").length = 17 := rfl
      have line : (decimal 303).length = 3 := by decide
      have title : (ascii "[ lenght ]:\n").length = 12 := rfl
      have newline : (ascii "\n").length = 1 := rfl
      have number := percentD_length length.toNat
      apply traceInfo_tells
      simp only [List.length_append]
      omega
    cases path with
    | some l =>
      have titled {line : Nat} {title : Bytes} (fits : (ascii "multi_files_print").length +
          (decimal line).length + title.length + 15 ≤ 2000) := @titled_tells "multi_files_print"
        line (.path file) mem title l (here.path l rfl) fits
      cases pathUtf8 with
      | none =>
        refine (Tells.then_logs (tells_inOrder (.cons visit (.cons (titled (by decide))
          (.cons tells_nothing (.cons lenght .nil))))) (ih (file + 1) later)).congr ?_
        simp [FilesRoom, FileView.printed, MultiFiles.view, itemsView]
      | some l' =>
        -- The same path is shown twice.
        refine (Tells.then_logs (tells_inOrder (.cons visit (.cons (titled (by decide))
          (.cons (titled (by decide)) (.cons lenght .nil))))) (ih (file + 1) later)).congr ?_
        simp [FilesRoom, FileView.printed, MultiFiles.view, itemsView]
    | none =>
      cases pathUtf8 with
      | none =>
        refine (Tells.then_logs (tells_inOrder (.cons visit (.cons tells_nothing
          (.cons tells_nothing (.cons lenght .nil))))) (ih (file + 1) later)).congr ?_
        simp [FilesRoom, FileView.printed, MultiFiles.view, itemsView, ItemsRoom]
      | some l' =>
        have crashes : multiFilesPrint mem file (⟨node, length, none, some l'⟩ :: vecs) =
            .crash [.visit file,
              .message ⟨.info, "multi_files_print", 300, ascii "[ path(utf-8) ]:\n"⟩,
              .use (.path file),
              .message ⟨.dump, "b_list_print", 449, ascii "[ List Print begin ]\n"⟩] := rfl
        rw [crashes]
        refine iff_of_true ?_ (by simp [FilesRoom, FileView.printed, MultiFiles.view, itemsView])
        simp only [final, List.forall_mem_cons]
        refine ⟨trivial, (Trace.fits_iff _).mpr (by decide), trivial,
          (Trace.fits_iff _).mpr (by decide), by simp⟩

@[mk_iff] structure InfoRoom (v : InfoView) : Prop where
  publisher : TextRoom 1948 v.publisher
  publisherUtf8 : TextRoom 1941 v.publisherUtf8
  publisherUrl : TextRoom 1944 v.publisherUrl
  publisherUrlUtf8 : TextRoom 1937 v.publisherUrlUtf8
  name : TextRoom 1953 v.name
  nameUtf8 : TextRoom 1946 v.nameUtf8
  dirName : TextRoom 1949 v.dirName
  files : FilesRoom v.files

@[mk_iff] structure PrintRoom (v : TorrentView) : Prop where
  announce : TextRoom 1954 v.announce
  announceList : ItemsRoom v.announceList
  comment : TextRoom 1955 v.comment
  commentUtf8 : TextRoom 1949 v.commentUtf8
  createBy : TextRoom 1953 v.createBy
  info : InfoRoom v.info

theorem torrentInfoPrint_logs {info : TorrentInfo}
    (whole : ∀ file ∈ info.multi.filesList, WholeFile file) :
    (torrentInfoPrint mem info).Logs Event.Fits (InfoRoom info.view) := by
  have all : (torrentInfoPrint mem info).Logs Event.Fits _ :=
    Tells.then_logs (textPrint_tells 1948 _ (by decide)) (Tells.then_logs
      (textPrint_tells 1941 _ (by decide)) (Tells.then_logs (textPrint_tells 1944 _ (by decide))
      (Tells.then_logs (textPrint_tells 1937 _ (by decide)) (Tells.then_logs
      (textPrint_tells 1953 _ (by decide)) (Tells.then_logs (textPrint_tells 1946 _ (by decide))
      (Tells.then_logs (numberPrint_tells _ (by decide)) (Tells.then_logs
      (addressPrint_tells _ (by decide)) (Tells.then_logs (addressPrint_tells _ (by decide))
      (Tells.then_logs (numberPrint_tells _ (by decide)) (Tells.then_logs (pieceHashPrint_tells _)
      (Tells.then_logs (textPrint_tells 1949 _ (by decide)) (Logs.then_fixed
      (multiFilesPrint_logs 0 whole) tells_nothing))))))))))))
  exact all.congr (by simp [infoRoom_iff, TorrentInfo.view])

theorem torrentPrint_logs {t : Torrent} (whole : WholeTorrent t) :
    (torrentPrint mem t).Logs Event.Fits (PrintRoom t.view) := by
  have all : (torrentPrint mem t).Logs Event.Fits _ :=
    Tells.then_logs (traceInfo_tells (by decide)) (Tells.then_logs
      (textPrint_tells 1954 _ (by decide)) (Tells.then_logs
      (announceList_tells whole.announceList) (Tells.then_logs (textPrint_tells 1955 _ (by decide))
      (Tells.then_logs (textPrint_tells 1949 _ (by decide)) (Tells.then_logs
      (textPrint_tells 1953 _ (by decide)) (Tells.then_logs (onlyIf_tells (dated_tells _))
      (Tells.then_logs (numberPrint_tells _ (by decide)) (Logs.then_fixed
      (torrentInfoPrint_logs whole.files) (Tells.follow (traceInfo_tells (by decide))
      tells_nothing |>.congr (by simp))))))))))
  exact all.congr (by simp [printRoom_iff, Torrent.view])

end Print

section Calls

variable (env : Env) (s : Scan)

theorem torrentParse_adds (fuel : Nat) (st : St) (t : Torrent)
    (short : env.alloc st.mallocs = true →
      ∀ rest, env.buf = 100 :: rest → Short env .entries (st.toScan.malloc env) rest) :
    AddsFitting st (torrentParse env fuel st t).final := by
  unfold torrentParse
  split
  next node =>
    refine final_andThen (bDictParse_adds env fuel (st.malloc env) (bDictAlloc st.mallocs) (short node)) ?_
    rintro ⟨next, d⟩ st' added
    cases next with
    | none => exact added
    | some q => exact added.trans (torrent_fills st' t d.entries).adds
  next => exact .refl st

theorem torrentParse_fits_iff :
    (∀ fuel t, ∀ m ∈ (torrentParse env fuel ⟨s, [], []⟩ t).final.trace, m.Fits) ↔
      (env.alloc s.mallocs = true →
        ∀ rest, env.buf = 100 :: rest → Short env .entries (s.malloc env) rest) := by
  constructor
  · intro fits node rest whole
    refine short_of_logged fun m exits => ?_
    obtain ⟨fuel, logs⟩ := bDictParse_logs env (s.malloc env) whole exits
    obtain ⟨d, st', parsed, logged⟩ := logs (St.malloc env ⟨s, [], []⟩) (bDictAlloc s.mallocs) rfl
    obtain ⟨t, st₁, new⟩ : ∃ t st₁,
        torrentAlloc (.plentiful []) ⟨s, [], []⟩ = (some t, st₁) := ⟨_, _, rfl⟩
    refine fits fuel t m ?_
    rw [torrentParse, if_pos node, parsed]
    exact logged
  · intro short fuel t m added
    exact (torrentParse_adds env fuel ⟨s, [], []⟩ t short m added).resolve_left List.not_mem_nil

theorem printRoom_new : PrintRoom {} := by
  simp [printRoom_iff, infoRoom_iff, TextRoom, ItemsRoom, FilesRoom]

theorem torrentPrint_fits_iff (mem : Memory) : (∀ fuel t st₁ status t' st',
    torrentAlloc env ⟨s, [], []⟩ = (some t, st₁) →
      torrentParse env fuel st₁ t = .done (status, t') st' →
        ∀ m, .message m ∈ (torrentPrint mem t').final → m.Fits) ↔
      ∀ es, TakenOver env s es → PrintRoom (TorrentView.update {} es) := by
  have fits {t : Torrent} (whole : WholeTorrent t) :
      (∀ m, .message m ∈ (torrentPrint mem t).final → m.Fits) ↔ PrintRoom t.view := by
    refine Iff.trans ?_ (@torrentPrint_logs mem t whole)
    constructor
    · intro prints event logged
      cases event with
      | message m => exact prints m logged
      | _ => trivial
    · intro prints m logged
      exact prints _ logged
  constructor
  · intro prints es taken
    obtain ⟨fuel, t, st₁, status, t', st', new, parsed, view⟩ := parsed_of_takenOver taken
    rw [← view]
    exact (fits (torrentParse_returned new parsed).1).mp
      (prints fuel t st₁ status t' st' new parsed)
  · intro room fuel t st₁ status t' st' new parsed
    obtain ⟨whole, empty | ⟨es, taken, view⟩⟩ := torrentParse_returned new parsed
    next =>
      rw [fits whole, empty]
      exact printRoom_new
    next =>
      rw [fits whole, view]
      exact room es taken

end Calls

-- The calls begin with an empty trace, so that what is in it at the end are their own messages.
structure MessagesFit (env : Env) (mem : Memory) (s : Scan) : Prop where
  string : ∀ target, ∀ m ∈ (bStringParse env ⟨s, [], []⟩ 0 target).final.trace, m.Fits
  int : ∀ ret, ∀ m ∈ (bIntParse env ⟨s, [], []⟩ 0 ret).final.trace, m.Fits
  list : ∀ fuel ret, ∀ m ∈ (bListParse env fuel ⟨s, [], []⟩ 0 ret).final.trace, m.Fits
  dict : ∀ fuel ret, ∀ m ∈ (bDictParse env fuel ⟨s, [], []⟩ 0 ret).final.trace, m.Fits
  torrent : ∀ fuel t, ∀ m ∈ (torrentParse env fuel ⟨s, [], []⟩ t).final.trace, m.Fits
  dictPrint : ∀ fuel node next d st',
    bDictParse env fuel ⟨s, [], []⟩ 0 (bDictAlloc node) = .done (next, d) st' →
      ∀ m ∈ (bDictPrint mem d).final, m.Fits
  torrentPrint : ∀ fuel t st₁ status t' st', torrentAlloc env ⟨s, [], []⟩ = (some t, st₁) →
    torrentParse env fuel st₁ t = .done (status, t') st' →
      ∀ m, .message m ∈ (torrentPrint mem t').final → m.Fits

structure ShortInput (env : Env) (s : Scan) : Prop where
  string : StringRoom env.buf
  int : IntRoom env.buf
  list : ∀ rest, env.buf = 108 :: rest → Short env .items s rest
  dict : ∀ rest, env.buf = 100 :: rest → Short env .entries s rest
  torrent : env.alloc s.mallocs = true →
    ∀ rest, env.buf = 100 :: rest → Short env .entries (s.malloc env) rest
  dictPrint : ∀ es, Filled env s es → ShortTexts (entryTexts es)
  torrentPrint : ∀ es, TakenOver env s es → PrintRoom (TorrentView.update {} es)

theorem messages_fit_iff (env : Env) (mem : Memory) (s : Scan) :
    MessagesFit env mem s ↔ ShortInput env s := by
  constructor
  · intro fits
    exact ⟨(bStringParse_fits_iff env s).mp fits.string, (bIntParse_fits_iff env s).mp fits.int,
      (bListParse_fits_iff env s).mp fits.list, (bDictParse_fits_iff env s).mp fits.dict,
      (torrentParse_fits_iff env s).mp fits.torrent,
      (bDictPrint_fits_iff env s mem).mp fits.dictPrint,
      (torrentPrint_fits_iff env s mem).mp fits.torrentPrint⟩
  · intro short
    exact ⟨(bStringParse_fits_iff env s).mpr short.string, (bIntParse_fits_iff env s).mpr short.int,
      (bListParse_fits_iff env s).mpr short.list, (bDictParse_fits_iff env s).mpr short.dict,
      (torrentParse_fits_iff env s).mpr short.torrent,
      (bDictPrint_fits_iff env s mem).mpr short.dictPrint,
      (torrentPrint_fits_iff env s mem).mpr short.torrentPrint⟩

/-- A dictionary whose first key is 2000 letters and no colon. -/
theorem long_key_overflows : ¬ ∃ mem, MessagesFit
    (.plentiful (100 :: List.replicate 2000 97)
      (by rw [List.length_cons, List.length_replicate]; decide)) mem ⟨0, 0, 0⟩ := by
  rintro ⟨mem, fits⟩
  have short := (torrentParse_fits_iff _ _).mp fits.torrent rfl _ rfl
  have room := short _ _ _ (.key (by simp [NoEnd]) rfl .arrived)
  have absent : (58 : UInt8) ∉ List.replicate 2000 97 :=
    fun member => absurd (List.eq_of_mem_replicate member) (by decide)
  have long := room (strchr_absent absent (by decide))
  rw [cstr, List.takeWhile_replicate, if_pos (by decide), List.length_replicate] at long
  omega

end BTServer.Metainfo
