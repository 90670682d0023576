import BTServer.Bencode.Portable
import BTServer.Lua.Script
import BTServer.Metainfo.Takeover

set_option autoImplicit false

-- The torrent of the C program beside the table of the Lua scripts, for one and the same file.
namespace BTServer.Metainfo

open Bencode CString Keyed Outcome

def field (t : Lua.Table) (key : String) : Option Lua.LuaValue := t.lookup (.string (ascii key))

-- What the table shows with the type of a member, the member has. The other way round this holds
-- if no key comes twice: the scripts keep the last entry of a key whatever its type is, and the
-- program the last one that has the type.
structure TextSeen (distinct : Prop) (t : Lua.Table) (key : String)
    (member : Option (Bytes × Nat)) : Prop where
  seen : ∀ data, field t key = some (.string data) → member = some (data, data.length % 2 ^ 32)
  shown : distinct → ∀ data len, member = some (data, len) → field t key = some (.string data)

structure NumberSeen (distinct : Prop) (t : Lua.Table) (key : String) (member : Int) : Prop where
  seen : ∀ n, field t key = some (.number (.int n)) → member = n
  shown : distinct → member ≠ 0 → field t key = some (.number (.int member))

-- An empty list can not be told from an empty dictionary once it is a table.
structure ItemsSeen (distinct : Prop) (t : Lua.Table) (key : String)
    (member : Option (List Value)) : Prop where
  seen : ∀ u, field t key = some (.table u) → (u.lookup (.index 0)).isSome →
    ∃ vs, member = some vs ∧ Lua.taken (.list vs) = .table u
  shown : distinct → ∀ vs, member = some vs → field t key = some (Lua.taken (.list vs))

structure FileSeen (distinct : Prop) (t : Lua.Table) (file : FileView) : Prop where
  length : NumberSeen distinct t "length" file.length
  path : ItemsSeen distinct t "path" file.path
  pathUtf8 : ItemsSeen distinct t "path.utf-8" file.pathUtf8

/-- The files of a list, in its order. An item without a named field may be missing. -/
inductive FilesSeen (distinct : Prop) : List Lua.LuaValue → List FileView → Prop
  | nil : FilesSeen distinct [] []
  | file {t : Lua.Table} {file : FileView} {xs : List Lua.LuaValue} {files : List FileView}
      (here : FileSeen distinct t file) (later : FilesSeen distinct xs files) :
      FilesSeen distinct (.table t :: xs) (file :: files)
  | other {x : Lua.LuaValue} {xs : List Lua.LuaValue} {files : List FileView}
      (unnamed : ∀ t, x = .table t → ∀ name, t.lookup (.string name) = none)
      (later : FilesSeen distinct xs files) : FilesSeen distinct (x :: xs) files

def InfoView.texts (v : InfoView) : List (String × Option (Bytes × Nat)) :=
  [("pieces", v.pieceHash), ("private", v.private_), ("name", v.name), ("name.utf-8", v.nameUtf8),
    ("md5sum", v.md5sum), ("publisher", v.publisher), ("publisher utf-8", v.publisherUtf8),
    ("publisher url", v.publisherUrl), ("publisher url utf-8", v.publisherUrlUtf8)]

def InfoView.numbers (v : InfoView) : List (String × Int) :=
  [("piece length", v.pieceLen), ("length", v.length)]

structure InfoSeen (distinct : Prop) (t : Lua.Table) (v : InfoView) : Prop where
  texts : ∀ member ∈ v.texts, TextSeen distinct t member.1 member.2
  numbers : ∀ member ∈ v.numbers, NumberSeen distinct t member.1 member.2
  files : ∀ u, field t "files" = some (.table u) → ∃ earlier files xs,
    v.files = earlier ++ files ∧ (distinct → earlier = []) ∧
      (∀ i, u.lookup (.index i) = xs[i]?) ∧ FilesSeen distinct xs files
  noFiles : distinct → (∀ u, field t "files" ≠ some (.table u)) → v.files = []

def TorrentView.texts (v : TorrentView) : List (String × Option (Bytes × Nat)) :=
  [("announce", v.announce), ("comment", v.comment), ("comment-utf8", v.commentUtf8),
    ("create by", v.createBy)]

structure TorrentSeen (distinct : Prop) (t : Lua.Table) (v : TorrentView) : Prop where
  texts : ∀ member ∈ v.texts, TextSeen distinct t member.1 member.2
  createDate : NumberSeen distinct t "creation date" v.createDate
  announceList : ItemsSeen distinct t "announce-list" v.announceList
  info : ∀ u, field t "info" = some (.table u) → InfoSeen distinct u v.info
  noInfo : distinct → (∀ u, field t "info" ≠ some (.table u)) → v.info = {}

structure DistinctInfo (fields : List (Bytes × Value)) : Prop where
  keys : (fields.map Prod.fst).Nodup
  file : ∀ vs file, (ascii "files", .list vs) ∈ fields → .dict file ∈ vs →
    (file.map Prod.fst).Nodup

structure DistinctKeys (es : List (Bytes × Value)) : Prop where
  keys : (es.map Prod.fst).Nodup
  info : ∀ fields, (ascii "info", .dict fields) ∈ es → DistinctInfo fields

theorem taken_string {v : Value} {data : Bytes} (taken : Lua.taken v = .string data) :
    ∃ len, v = .str data len := by
  cases v <;> simp_all [Lua.taken]

theorem taken_integer {v : Value} {n : Int} (taken : Lua.taken v = .number (.int n)) :
    v = .int n := by
  cases v with
  | int m =>
    simp only [Lua.taken, Lua.LuaValue.number.injEq, Lua.numberOf] at taken
    split at taken <;> simp_all
  | _ => simp [Lua.taken] at taken

theorem taken_small {n : Int} (low : 0 ≤ n) (high : n < 2 ^ 32) :
    Lua.taken (.int n) = .number (.int n) := by
  rw [Lua.taken, Lua.numberOf, if_pos (by simp only [Lua.maxInteger]; omega)]

-- A table comes from a list, which has no names, or from a dictionary, which has no indices.
theorem taken_table {v : Value} {u : Lua.Table} (taken : Lua.taken v = .table u) :
    (∃ vs, v = .list vs ∧ (∀ i, u.lookup (.index i) = (vs.map Lua.taken)[i]?) ∧
        ∀ name, u.lookup (.string name) = none) ∨
      ∃ es, v = .dict es ∧ (∀ i, u.lookup (.index i) = none) ∧
        ∀ name, u.lookup (.string name) = (last name some es).map Lua.taken := by
  cases v with
  | str data len => simp [Lua.taken] at taken
  | int n => simp [Lua.taken] at taken
  | list vs =>
    simp only [Lua.taken, Lua.LuaValue.table.injEq] at taken
    subst taken
    refine .inl ⟨vs, rfl, fun i => ?_, fun name => ?_⟩
    · rw [Lua.lookup_list, List.getElem?_map]
    · simp [Lua.lookup_takenItems]
  | dict es =>
    simp only [Lua.taken, Lua.LuaValue.table.injEq] at taken
    subst taken
    exact .inr ⟨es, rfl, fun i => by simp [Lua.lookup_takenEntries], Lua.lookup_dict es⟩

section Members

variable {distinct : Prop} {t : Lua.Table} {es : List (Bytes × Value)}

def Shows (t : Lua.Table) (es : List (Bytes × Value)) : Prop :=
  ∀ name, t.lookup (.string name) = (last name some es).map Lua.taken

theorem member_cases {A : Type} (named : Shows t es)
    (unique : distinct → (es.map Prod.fst).Nodup) (key : String) (type : Value → Option A) :
    (field t key = none ∧ last (ascii key) type es = none) ∨
      ∃ v earlier, (ascii key, v) ∈ es ∧ field t key = some (Lua.taken v) ∧
        last (ascii key) type es = (type v).or earlier ∧ (distinct → earlier = none) := by
  have shown : field t key = (last (ascii key) some es).map Lua.taken := named (ascii key)
  cases found : last (ascii key) some es with
  | none =>
    rw [found] at shown
    exact .inl ⟨shown, last_untyped type found⟩
  | some v =>
    rw [found] at shown
    obtain ⟨earlier, typed, first⟩ := last_typed type found
    obtain ⟨front, back, split, -⟩ := last_split found
    have inside : (ascii key, v) ∈ es := by rw [split]; simp
    exact .inr ⟨v, earlier, inside, shown, typed, fun d => first (unique d)⟩

variable (named : Shows t es) (parsable : ParsableEntries es)
  (unique : distinct → (es.map Prod.fst).Nodup) (key : String)

include named parsable unique

theorem text_seen (before : Option (Bytes × Nat)) (new : distinct → before = none) :
    TextSeen distinct t key ((last (ascii key) textOf es).or before) := by
  rcases member_cases named unique key textOf with
    ⟨absent, none⟩ | ⟨v, earlier, inside, shown, typed, first⟩
  next =>
    rw [none, Option.none_or]
    exact ⟨fun data found => by simp [absent] at found,
      fun d data len found => by simp [new d] at found⟩
  next =>
    rw [typed]
    constructor
    next =>
      intro data found
      obtain ⟨len, rfl⟩ := taken_string (Option.some.inj (shown.symm.trans found))
      have length := ((parsableEntries_iff es).mp parsable _ inside).2
      simp only [Parsable] at length
      rw [← length.2]
      rfl
    next =>
      intro d data len found
      rw [first d, new d, Option.or_none, Option.or_none] at found
      cases v <;> simp_all [textOf, Lua.taken]

theorem number_seen (before : Int) (new : distinct → before = 0) :
    NumberSeen distinct t key ((last (ascii key) numberOf es).getD before) := by
  rcases member_cases named unique key numberOf with
    ⟨absent, none⟩ | ⟨v, earlier, inside, shown, typed, first⟩
  next =>
    rw [none, Option.getD_none]
    exact ⟨fun n found => by simp [absent] at found, fun d other => absurd (new d) other⟩
  next =>
    rw [typed]
    constructor
    next =>
      intro n found
      rw [taken_integer (Option.some.inj (shown.symm.trans found))]
      rfl
    next =>
      intro d other
      rw [first d, new d, Option.or_none] at other ⊢
      cases v with
      | int n =>
        have range := ((parsableEntries_iff es).mp parsable _ inside).2
        simp only [Parsable] at range
        rw [shown, taken_small range.1 range.2]
        rfl
      | _ => exact absurd rfl other

omit parsable in
theorem items_seen (before : Option (List Value)) (new : distinct → before = none) :
    ItemsSeen distinct t key ((last (ascii key) itemsOf es).or before) := by
  rcases member_cases named unique key itemsOf with
    ⟨absent, none⟩ | ⟨v, earlier, inside, shown, typed, first⟩
  next =>
    rw [none, Option.none_or]
    exact ⟨fun u found => by simp [absent] at found, fun d vs found => by simp [new d] at found⟩
  next =>
    rw [typed]
    constructor
    next =>
      intro u found item
      have taken := Option.some.inj (shown.symm.trans found)
      rcases taken_table taken with ⟨vs, rfl, -⟩ | ⟨es, rfl, indices, -⟩
      · exact ⟨vs, rfl, taken⟩
      · simp [indices] at item
    next =>
      intro d vs found
      rw [first d, new d, Option.or_none, Option.or_none] at found
      cases v <;> simp_all [itemsOf]

theorem file_seen : FileSeen distinct t (FileView.update {} es) where
  length := number_seen named parsable unique "length" 0 fun _ => rfl
  path := items_seen named unique "path" none fun _ => rfl
  pathUtf8 := items_seen named unique "path.utf-8" none fun _ => rfl

end Members

theorem files_seen {distinct : Prop} (vs : List Value) (parsable : ParsableItems vs)
    (unique : distinct → ∀ file, .dict file ∈ vs → (file.map Prod.fst).Nodup) :
    FilesSeen distinct (vs.map Lua.taken) ((vs.filterMap dictOf).map (FileView.update {})) := by
  induction vs with
  | nil => exact .nil
  | cons v vs ih =>
    simp only [ParsableItems] at parsable
    have later := ih parsable.2 fun d file inside => unique d file (List.mem_cons_of_mem v inside)
    cases v with
    | dict fields =>
      have here := parsable.1
      simp only [Parsable] at here
      have file := file_seen (Lua.lookup_dict fields) here fun d => unique d fields (by simp)
      simpa [Lua.taken, dictOf] using FilesSeen.file file later
    | list items =>
      refine .other (fun t same name => ?_) later
      rcases taken_table same with ⟨_, -, -, unnamed⟩ | ⟨_, other, -⟩
      · exact unnamed name
      · cases other
    | str data len => exact .other (by simp [Lua.taken]) later
    | int n => exact .other (by simp [Lua.taken]) later

section Dictionaries

variable {distinct : Prop} {t : Lua.Table} {es : List (Bytes × Value)}

theorem filesOf_only (e : Bytes × Value) (other : e.1 ≠ ascii "files") : filesOf e = [] := by
  obtain ⟨key, v⟩ := e
  cases v <;> simp_all [filesOf]

theorem infoOf_only (e : Bytes × Value) (other : e.1 ≠ ascii "info") : infoOf e = [] := by
  obtain ⟨key, v⟩ := e
  cases v <;> simp_all [infoOf]

variable {B : Type} {key : String} {pick : Bytes × Value → List B}

theorem picked_last (named : Shows t es) (unique : distinct → (es.map Prod.fst).Nodup)
    (only : ∀ e, e.1 ≠ ascii key → pick e = []) {u : Lua.Table}
    (found : field t key = some (.table u)) : ∃ v earlier, (ascii key, v) ∈ es ∧
      Lua.taken v = .table u ∧ es.flatMap pick = earlier ++ pick (ascii key, v) ∧
        (distinct → earlier = []) := by
  obtain ⟨v, latest, taken⟩ := Option.map_eq_some_iff.mp ((named _).symm.trans found)
  obtain ⟨earlier, all, first⟩ := flatMap_last pick only latest
  obtain ⟨front, back, split, -⟩ := last_split latest
  have inside : (ascii key, v) ∈ es := by rw [split]; simp
  exact ⟨v, earlier, inside, taken, all, fun d => first (unique d)⟩

theorem picked_none (named : Shows t es) (unique : (es.map Prod.fst).Nodup)
    (only : ∀ e, e.1 ≠ ascii key → pick e = [])
    (tables : ∀ v, (∀ u, Lua.taken v ≠ .table u) → pick (ascii key, v) = [])
    (none : ∀ u, field t key ≠ some (.table u)) : es.flatMap pick = [] := by
  cases latest : last (ascii key) some es with
  | none => exact flatMap_missing pick only latest
  | some v =>
    obtain ⟨earlier, all, first⟩ := flatMap_last pick only latest
    rw [all, first unique, List.nil_append]
    apply tables
    intro u taken
    have shown := named (ascii key)
    rw [latest, Option.map_some, taken] at shown
    exact none u shown

theorem listed_files {v : Value} {u : Lua.Table} (taken : Lua.taken v = .table u)
    (parsable : Parsable v)
    (unique : distinct → ∀ vs file, v = .list vs → .dict file ∈ vs → (file.map Prod.fst).Nodup) :
    ∃ xs, (∀ i, u.lookup (.index i) = xs[i]?) ∧
      FilesSeen distinct xs ((filesOf (ascii "files", v)).map (FileView.update {})) := by
  rcases taken_table taken with ⟨vs, rfl, items, -⟩ | ⟨fields, rfl, indices, -⟩
  next =>
    simp only [Parsable] at parsable
    refine ⟨vs.map Lua.taken, items, ?_⟩
    rw [filesOf, if_pos rfl]
    exact files_seen vs parsable fun d file => unique d vs file rfl
  next => exact ⟨[], by simpa using indices, .nil⟩

theorem info_seen (named : Shows t es) (parsable : ParsableEntries es)
    (unique : distinct → DistinctInfo es) (v : InfoView) (new : distinct → v = {}) :
    InfoSeen distinct t (v.update es) where
  texts := by
    have text (key : String) (member : InfoView → Option (Bytes × Nat))
        (empty : member {} = none) :
        TextSeen distinct t key ((last (ascii key) textOf es).or (member v)) :=
      text_seen named parsable (fun d => (unique d).keys) key _ fun d => new d ▸ empty
    simp only [InfoView.texts, InfoView.update, List.forall_mem_cons, List.not_mem_nil]
    exact ⟨text _ (·.pieceHash) rfl, text _ (·.private_) rfl, text _ (·.name) rfl,
      text _ (·.nameUtf8) rfl, text _ (·.md5sum) rfl, text _ (·.publisher) rfl,
      text _ (·.publisherUtf8) rfl, text _ (·.publisherUrl) rfl,
      text _ (·.publisherUrlUtf8) rfl, fun _ => False.elim⟩
  numbers := by
    have number (key : String) (member : InfoView → Int) (empty : member {} = 0) :
        NumberSeen distinct t key ((last (ascii key) numberOf es).getD (member v)) :=
      number_seen named parsable (fun d => (unique d).keys) key _ fun d => new d ▸ empty
    simp only [InfoView.numbers, InfoView.update, List.forall_mem_cons, List.not_mem_nil]
    exact ⟨number _ (·.pieceLen) rfl, number _ (·.length) rfl, fun _ => False.elim⟩
  files := by
    intro u found
    obtain ⟨x, earlier, inside, taken, all, first⟩ :=
      picked_last named (fun d => (unique d).keys) filesOf_only found
    obtain ⟨xs, items, files⟩ := listed_files taken ((parsableEntries_iff es).mp parsable _ inside).2
      fun d vs file same => (unique d).file vs file (same ▸ inside)
    refine ⟨v.files ++ earlier.map (FileView.update {}), _, xs, ?_, fun d => ?_, items, files⟩
    · simp [InfoView.update, all]
    · rw [first d, new d]
      rfl
  noFiles := by
    intro d none
    have nothing : es.flatMap filesOf = [] := by
      refine picked_none named (unique d).keys filesOf_only (fun v other => ?_) none
      cases v with
      | list vs => exact absurd (by rw [Lua.taken]) (other (Lua.takenItems 0 [] vs))
      | _ => rfl
    rw [InfoView.update, nothing, new d]
    rfl

theorem torrent_seen (parsable : ParsableEntries es) :
    TorrentSeen (DistinctKeys es) (Lua.takenEntries [] es) (TorrentView.update {} es) := by
  have named : Shows (Lua.takenEntries [] es) es := Lua.lookup_dict es
  have keys : DistinctKeys es → (es.map Prod.fst).Nodup := fun d => d.keys
  constructor
  case texts =>
    have text (key : String) := text_seen named parsable keys key none fun _ => rfl
    simp only [TorrentView.texts, TorrentView.update, List.forall_mem_cons, List.not_mem_nil]
    exact ⟨text _, text _, text _, text _, fun _ => False.elim⟩
  case createDate => exact number_seen named parsable keys _ 0 fun _ => rfl
  case announceList => exact items_seen named keys _ none fun _ => rfl
  case info =>
    intro u found
    obtain ⟨x, earlier, inside, taken, all, first⟩ := picked_last named keys infoOf_only found
    have parts := ((parsableEntries_iff es).mp parsable _ inside).2
    have new (d : DistinctKeys es) : InfoView.update {} earlier = {} := by
      rw [first d, InfoView.update_nil]
    rw [TorrentView.update, all, InfoView.update_append]
    rcases taken_table taken with ⟨vs, rfl, -, unnamed⟩ | ⟨fields, rfl, -, shown⟩
    next =>
      have empty : Shows u [] := unnamed
      exact info_seen empty (by simp only [ParsableEntries]) (fun _ => ⟨.nil, by simp⟩) _ new
    next =>
      simp only [Parsable] at parts
      rw [infoOf, if_pos rfl]
      exact info_seen shown parts (fun d => d.info fields inside) _ new
  case noInfo =>
    intro d none
    have nothing : es.flatMap infoOf = [] := by
      refine picked_none named d.keys infoOf_only (fun v other => ?_) none
      cases v with
      | dict fields => exact absurd (by rw [Lua.taken]) (other (Lua.takenEntries [] fields))
      | _ => rfl
    rw [TorrentView.update, nothing, InfoView.update_nil]

end Dictionaries

theorem torrentParse_reads {env : Env} (mallocs : Allocates env) {w rest : Bytes}
    {es : List (Bytes × Value)} {s' : Scan} {st st₁ : St} {t : Torrent}
    (whole : env.buf = 100 :: (w ++ 101 :: rest)) (new : torrentAlloc env st = (some t, st₁))
    (reads : Reads env .any (st₁.malloc env).toScan w (.entries es) s') :
    ∃ enough, ∀ fuel ≥ enough, ∃ t' st',
      torrentParse env fuel st₁ t = .done (0, t') st' ∧ t'.view = TorrentView.update {} es := by
  have holds : Bencode.Holds env (st₁.malloc env).toScan es := ⟨w, rest, s', whole, reads⟩
  obtain ⟨enough, parses⟩ := accepted_of_holds holds
  refine ⟨enough, fun fuel large => ?_⟩
  obtain ⟨q, d, st₂, read, -⟩ := parses fuel large st₁.mallocs
  obtain ⟨st', parsed⟩ := torrentParse_read (t := t) (mallocs _) read
  rw [(torrent_carried mallocs st₂ t d).1] at parsed
  obtain ⟨-, es', holds', view⟩ := torrentParse_stored new parsed
  exact ⟨_, st', parsed, holds_unique holds' holds ▸ view⟩

theorem clients_agree {w : Bytes} {es : List (Bytes × Value)}
    (portable : Portable w (.value (.dict es))) (rest : Bytes) (fits : Lua.IsString (w ++ rest)) :
    ∃ table,
      (∃ enough, ∀ fuel ≥ enough, ∀ g, ∃ g',
        Lua.parseTorrentFile fuel g (some (w ++ rest)) = .done (.table table) g') ∧
      ∀ env st t st₁, st.errno = 0 → Allocates env → env.buf = w ++ rest →
        torrentAlloc env st = (some t, st₁) → ∃ enough, ∀ fuel ≥ enough, ∃ t' st',
          torrentParse env fuel st₁ t = .done (0, t') st' ∧
            TorrentSeen (DistinctKeys es) table t'.view := by
  obtain ⟨enough, runs⟩ := Lua.parseTorrentFile_wellFormed portable.wellFormed rest fits
  rw [Lua.taken] at runs
  refine ⟨Lua.takenEntries [] es, ⟨enough, runs⟩, ?_⟩
  intro env st t st₁ errno mallocs whole new
  cases portable with
  | @dict u es inside =>
    have clear : (st₁.malloc env).errno = 0 := by
      rw [torrentAlloc, if_pos (mallocs _)] at new
      cases new
      exact ((mallocs.malloc_errno _).trans (mallocs.malloc_errno _)).trans errno
    obtain ⟨s', -, reads⟩ := inside.reads mallocs (st₁.malloc env).toScan clear
    have start : env.buf = 100 :: (u ++ 101 :: rest) := by rw [whole]; simp
    obtain ⟨enough', parses⟩ := torrentParse_reads mallocs start new reads
    refine ⟨enough', fun fuel large => ?_⟩
    obtain ⟨t', st', parsed, view⟩ := parses fuel large
    refine ⟨t', st', parsed, ?_⟩
    rw [view]
    exact torrent_seen inside.parsable

-- A torrent of one file, with a tracker.
def oneFile : List (Bytes × Value) :=
  [(ascii "announce", .str (ascii "x") 1), (ascii "info", .dict [(ascii "length", .int 5)])]

theorem oneFile_portable :
    Portable (ascii "d8:announce1:x4:infod6:lengthi5eee") (.value (.dict oneFile)) := by
  have entry (d : UInt8) (key : Bytes) {w ws : Bytes} {v : Value} {es : List (Bytes × Value)}
      (digit : isDigit d = true) (length : digitsValue [d] = key.length)
      (free : key.all (· ≠ 0) = true) (fits : key.length ≤ keyLen) :=
    @Portable.entry [d] key w ws v es (Lua.digits_singleton digit) length (by simp [integerLen])
      (by simpa using free) fits
  have size := @Portable.int [53] (Lua.digits_singleton (by decide)) (by decide) (by decide)
  have tracker := @Portable.str [49] (ascii "x") (Lua.digits_singleton (by decide)) (by decide)
    (by decide) (by decide)
  have info := Portable.dict (entry 54 (ascii "length") (by decide) (by decide) (by decide)
    (by decide) size .done)
  exact .dict (entry 56 (ascii "announce") (by decide) (by decide) (by decide) (by decide) tracker
    (entry 52 (ascii "info") (by decide) (by decide) (by decide) (by decide) info .done))

theorem clients_agree_on_one_file : ∃ table,
    (∃ enough, ∀ fuel ≥ enough, ∀ g, ∃ g', Lua.parseTorrentFile fuel g
      (some (ascii "d8:announce1:x4:infod6:lengthi5eee" ++ [10])) = .done (.table table) g') ∧
    ∀ env st t st₁, st.errno = 0 → Allocates env →
      env.buf = ascii "d8:announce1:x4:infod6:lengthi5eee" ++ [10] →
      torrentAlloc env st = (some t, st₁) → ∃ enough, ∀ fuel ≥ enough, ∃ t' st',
        torrentParse env fuel st₁ t = .done (0, t') st' ∧
          TorrentSeen (DistinctKeys oneFile) table t'.view :=
  clients_agree oneFile_portable [10] (by unfold Lua.IsString; decide)

end BTServer.Metainfo
