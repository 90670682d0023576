import BTServer.Lua.Strictness
import BTServer.Lua.TreePrint

set_option autoImplicit false

-- The script `tracker_connect.lua`, from the file to the call of `socket.connect`.
namespace BTServer.Lua

open Bencode CString Keyed Outcome TablePrint

/-- There is no content if the file can not be opened. -/
def parseTorrentFile (fuel : Nat) (g : Globals) (file : Option Bytes) : Outcome Globals LuaValue :=
  match file with
  | none => .fault g
  | some torrentBuf =>
    (parseDict fuel g torrentBuf).andThen fun (d, str) g => .done d { g with d, str }

theorem parseTorrentFile_wellFormed {w : Bytes} {es : List (Bytes × Value)}
    (formed : WellFormed w (.value (.dict es))) (rest : Bytes) (fits : IsString (w ++ rest)) :
    ∃ enough, ∀ fuel ≥ enough, ∀ g, ∃ g',
      parseTorrentFile fuel g (some (w ++ rest)) = .done (taken (.dict es)) g' := by
  obtain ⟨u, rfl, -⟩ := wellFormed_dict formed
  obtain ⟨enough, runs⟩ := parseDict_runs (takes_runs (wellFormed_takes fits rfl formed))
  refine ⟨enough, fun fuel more g => ?_⟩
  obtain ⟨g', run⟩ := runs fuel more g
  refine ⟨{ g' with d := .table (takenEntries [] es), str := .string rest }, ?_⟩
  rw [parseTorrentFile, show 100 :: (u ++ [101]) ++ rest = 100 :: (u ++ [101]).append rest from rfl,
    run, done_andThen, taken]

structure DlCtx where
  listenPort : Nat
  peerId : Bytes
  uploaded : Nat
  downloaded : Nat
  left : Nat
  event : Bytes
  hashinfo : Bytes

def dlCtx : DlCtx where
  listenPort := 10240
  peerId := ascii "skwix,slqxssihidlhsq"
  uploaded := 0
  downloaded := 0
  left := 0
  event := ascii "start"
  hashinfo := ascii "skwix,slqxssihidlhsq"

section Script

variable (text : Number → Bytes)

-- The state is the list of the lines that were printed. An error is a fault.
abbrev Printed := List Bytes

def tablePrint {Ref : Type} [DecidableEq Ref] {x : LuaValue} (fuel : Nat) (tb : Laid Ref text x)
    (out : Printed) : Outcome Printed Unit :=
  match tableTostring tb.graph fuel tb.tb with
  | .done (.ok s) _ => .done () (out ++ [tb.graph.tostring tb.tb ++ s])
  | .done (.error _) _ => .fault out
  | .fault _ => .fault out
  | .crash _ => .crash out
  | .timeout _ => .timeout out

/-- A string has the fields of the library, none of which is asked for. -/
def getIndex (v : LuaValue) (key : Key) (out : Printed) : Outcome Printed LuaValue :=
  match v with
  | .table t => .done ((t.lookup key).getD .nil) out
  | .string _ => .done .nil out
  | .number _ => .fault out
  | .nil => .fault out

/-- What `..` makes of a value. -/
def LuaValue.concat? : LuaValue → Option Bytes
  | .string s => some s
  | .number n => some (text n)
  | .table _ => none
  | .nil => none

def url (trackerUrl : Bytes) (dlCtx : DlCtx) : Bytes :=
  trackerUrl ++ ascii "?" ++
  ascii "hashinfo=" ++ dlCtx.hashinfo ++
  ascii "&peer_id=" ++ dlCtx.peerId ++
  ascii "&port=" ++ decimal dlCtx.listenPort ++
  ascii "&unloaded=" ++ decimal dlCtx.uploaded ++
  ascii "&downloaded=" ++ decimal dlCtx.downloaded ++
  ascii "&left=" ++ decimal dlCtx.left ++
  ascii "&event=" ++ dlCtx.event

/-- Nothing is returned, which as an argument is `nil`. -/
def constructUrl (trackerUrl : LuaValue) (dlCtx : DlCtx) (out : Printed) :
    Outcome Printed LuaValue :=
  match trackerUrl.concat? text with
  | none => .fault out
  | some trackerUrl => .done .nil (out ++ [url trackerUrl dlCtx])

/-- `torrent_info["announce-list"][i][0]` -/
def announce (torrentInfo : LuaValue) (i : Nat) (out : Printed) : Outcome Printed LuaValue :=
  (getIndex torrentInfo (.string (ascii "announce-list")) out).andThen fun v out =>
    (getIndex v (.index i) out).andThen fun v out => getIndex v (.index 0) out

/-- What follows the parser; the result is what `socket.connect` is called with. -/
def trackerConnect {Ref : Type} [DecidableEq Ref] {torrentInfo : LuaValue} (fuel : Nat)
    (tb : Laid Ref text torrentInfo) : Outcome Printed (LuaValue × Nat) :=
  (tablePrint text fuel tb []).andThen fun _ out =>
    (announce torrentInfo 1 out).andThen fun v out =>
      let construct (out : Printed) : Outcome Printed (LuaValue × Nat) :=
        (announce torrentInfo 1 out).andThen fun v out =>
          (constructUrl text v dlCtx out).andThen fun host out => .done (host, 2710) out
      if v.isNil then construct out
      else
        (announce torrentInfo 4 out).andThen fun v out =>
          (constructUrl text v dlCtx out).andThen fun _ out => construct out

end Script

-- What the torrent says about its trackers.

def tracker (es : List (Bytes × Value)) (i : Nat) : Option Value :=
  match last (ascii "announce-list") some es with
  | some (.list tiers) =>
    match tiers[i]? with
    | some (.list (v :: _)) => some v
    | _ => none
  | _ => none

def trackerText (text : Number → Bytes) : Value → Option Bytes
  | .str data _ => some data
  | .int n => some (text (numberOf n))
  | .list _ => none
  | .dict _ => none

section Tracker

variable {text : Number → Bytes} {es : List (Bytes × Value)} {i : Nat} {out : Printed}

theorem concat_taken (v : Value) : (taken v).concat? text = trackerText text v := by
  cases v with
  | str data len => rw [taken]; rfl
  | int n => rw [taken]; rfl
  | list vs => rw [taken]; rfl
  | dict es => rw [taken]; rfl

theorem taken_not_nil (v : Value) : (taken v).isNil = false := by
  cases v with
  | str data len => rw [taken]; rfl
  | int n => rw [taken]; rfl
  | list vs => rw [taken]; rfl
  | dict es => rw [taken]; rfl

theorem getIndex_dict (es : List (Bytes × Value)) (name : Bytes) (out : Printed) :
    getIndex (taken (.dict es)) (.string name) out =
      .done (((last name some es).map taken).getD .nil) out := by
  rw [taken, getIndex, lookup_dict]

theorem getIndex_list (vs : List Value) (i : Nat) (out : Printed) :
    getIndex (taken (.list vs)) (.index i) out = .done ((vs[i]?.map taken).getD .nil) out := by
  rw [taken, getIndex, lookup_list]

theorem getIndex_other {v : Value} (other : ∀ vs, v ≠ .list vs) (i : Nat) (out : Printed) :
    getIndex (taken v) (.index i) out = .done .nil out ∨
      getIndex (taken v) (.index i) out = .fault out := by
  cases v with
  | str data len => exact .inl (by rw [taken]; rfl)
  | int n => exact .inr (by rw [taken]; rfl)
  | list vs => exact absurd rfl (other vs)
  | dict es =>
    refine .inl ?_
    rw [taken, getIndex, lookup_takenEntries]
    rfl

theorem announce_eq (es : List (Bytes × Value)) (i : Nat) (out : Printed) :
    announce (taken (.dict es)) i out =
      (getIndex (((last (ascii "announce-list") some es).map taken).getD .nil) (.index i) out).andThen
        fun v out => getIndex v (.index 0) out := by
  rw [announce, getIndex_dict, done_andThen]

theorem announce_tracker {v : Value} (found : tracker es i = some v) (out : Printed) :
    announce (taken (.dict es)) i out = .done (taken v) out := by
  unfold tracker at found
  split at found
  next tiers listed =>
    split at found
    next v' later tier =>
      cases found
      rw [announce_eq, listed, Option.map_some, Option.getD_some, getIndex_list, tier, done_andThen,
        Option.map_some, Option.getD_some, getIndex_list]
      rfl
    next => cases found
  next => cases found

theorem announce_no_tracker (missing : tracker es i = none) (out : Printed) :
    announce (taken (.dict es)) i out = .done .nil out ∨
      announce (taken (.dict es)) i out = .fault out := by
  rw [announce_eq]
  cases listed : last (ascii "announce-list") some es with
  | none => exact .inr rfl
  | some v =>
    rw [Option.map_some, Option.getD_some]
    by_cases other : ∀ vs, v ≠ .list vs
    next =>
      rcases getIndex_other other i out with none | stop
      next => exact .inr (by rw [none]; rfl)
      next => exact .inr (by rw [stop]; rfl)
    next =>
      obtain ⟨tiers, rfl⟩ : ∃ vs, v = .list vs := by simpa using other
      rw [getIndex_list, done_andThen]
      cases tier : tiers[i]? with
      | none => exact .inr rfl
      | some v =>
        rw [Option.map_some, Option.getD_some]
        by_cases other : ∀ vs, v ≠ .list vs
        next => exact getIndex_other other 0 out
        next =>
          obtain ⟨vs, rfl⟩ : ∃ vs, v = .list vs := by simpa using other
          cases vs with
          | nil => exact .inl (by rw [getIndex_list]; rfl)
          | cons v vs => simp [tracker, listed, tier] at missing

def printUrl (trackerUrl : Option Bytes) (out : Printed) : Outcome Printed LuaValue :=
  match trackerUrl with
  | none => .fault out
  | some trackerUrl => .done .nil (out ++ [url trackerUrl dlCtx])

theorem announce_construct (i : Nat) (out : Printed) {β : Type}
    (f : LuaValue → Printed → Outcome Printed β) :
    ((announce (taken (.dict es)) i out).andThen fun v out =>
      (constructUrl text v dlCtx out).andThen f) =
      (printUrl ((tracker es i).bind (trackerText text)) out).andThen f := by
  cases found : tracker es i with
  | some v =>
    rw [announce_tracker found, done_andThen, constructUrl, concat_taken]
    rfl
  | none =>
    rcases announce_no_tracker found out with none | stop
    next => rw [none]; rfl
    next => rw [stop]; rfl

end Tracker

theorem rearranged_table {x y : LuaValue} (same : Rearranged x y) {t : Table} (table : x = .table t) :
    ∃ t', y = .table t' := by
  induction same generalizing t with
  | refl x => exact ⟨t, table⟩
  | fields perm => exact ⟨_, rfl⟩
  | inside below => exact ⟨_, rfl⟩
  | trans first second ih ih' =>
    obtain ⟨t', rfl⟩ := ih table
    exact ih' rfl

section Run

variable {Ref : Type} (text : Number → Bytes)

def page {x : LuaValue} (tb : Laid Ref text x) : Bytes :=
  tb.graph.tostring tb.tb ++ match tb.order with
    | .table t => ascii " = \x7b\n" ++ renderFields text 1 t ++ ascii "\x7d"
    | _ => []

def ending (es : List (Bytes × Value)) (page : Bytes) : Outcome Printed (LuaValue × Nat) :=
  match tracker es 1, (tracker es 4).bind (trackerText text) with
  | some v, some fourth =>
    match trackerText text v with
    | some first => .done (.nil, 2710) [page, url fourth dlCtx, url first dlCtx]
    | none => .fault [page, url fourth dlCtx]
  | _, _ => .fault [page]

variable {text} [DecidableEq Ref]

theorem tablePrint_laid {x : LuaValue} {t : Table} (table : x = .table t) (tb : Laid Ref text x)
    {fuel : Nat} (enough : tb.refs.length ≤ fuel) (out : Printed) :
    tablePrint text fuel tb out = .done () (out ++ [page text tb]) := by
  obtain ⟨graph, place, order, refs, same, lays, apart⟩ := tb
  obtain ⟨t', rfl⟩ := rearranged_table same table
  cases place with
  | table r =>
    obtain ⟨st, -, run⟩ := tableTostring_laid lays apart enough
    simp only [tablePrint, run, page]
  | _ => cases lays

theorem trackerConnect_taken (es : List (Bytes × Value)) (tb : Laid Ref text (taken (.dict es)))
    {fuel : Nat} (enough : tb.refs.length ≤ fuel) :
    trackerConnect text fuel tb = ending text es (page text tb) := by
  have table : taken (.dict es) = .table (takenEntries [] es) := by rw [taken]
  rw [trackerConnect, tablePrint_laid table tb enough, done_andThen, List.nil_append]
  dsimp only
  simp only [announce_construct]
  cases found : tracker es 1 with
  | none =>
    rcases announce_no_tracker found [page text tb] with none | stop
    next => rw [none, done_andThen]; simp [ending, found, LuaValue.isNil, printUrl]
    next => rw [stop]; simp [ending, found]
  | some v =>
    rw [announce_tracker found, done_andThen, taken_not_nil, if_neg Bool.false_ne_true, ending,
      found]
    cases (tracker es 4).bind (trackerText text) with
    | none => rfl
    | some fourth =>
      cases named : trackerText text v <;> simp [printUrl, named]

theorem tracker_connect_run (text : Number → Bytes) {w : Bytes} {es : List (Bytes × Value)}
    (formed : WellFormed w (.value (.dict es))) (rest : Bytes) (fits : IsString (w ++ rest)) :
    ∃ enough, ∀ fuel ≥ enough, ∀ g, ∃ g',
      parseTorrentFile fuel g (some (w ++ rest)) = .done (taken (.dict es)) g' ∧
        ∀ (tb : Laid Ref text (taken (.dict es))) (steps : Nat), tb.refs.length ≤ steps →
          trackerConnect text steps tb = ending text es (page text tb) := by
  obtain ⟨enough, runs⟩ := parseTorrentFile_wellFormed formed rest fits
  refine ⟨enough, fun fuel more g => ?_⟩
  obtain ⟨g', run⟩ := runs fuel more g
  exact ⟨g', run, fun tb steps many => trackerConnect_taken es tb many⟩

end Run

-- A torrent with a tracker in the second and in the fifth of its tiers.
def twoTrackers : List (Bytes × Value) :=
  let tier (name : Bytes) : Value := .list [.str name 1]
  [(ascii "announce-list",
    .list [.str [] 0, tier (ascii "a"), .str [] 0, .str [] 0, tier (ascii "b")])]

def decimals : Number → Bytes
  | .int n => decimal n.toNat
  | .float _ => []

def twoTrackersGraph : TableGraph (Fin 4) where
  fields
    | 0 => [(.string (ascii "announce-list"), .table 1)]
    | 1 => [(.other .number 0, .string []), (.other .number 1, .table 2),
        (.other .number 2, .string []), (.other .number 3, .string []), (.other .number 4, .table 3)]
    | 2 => [(.other .number 0, .string (ascii "a"))]
    | 3 => [(.other .number 0, .string (ascii "b"))]
  metatable _ := none
  address t := ascii "table: 0x" ++ decimal t
  text _ id := decimal id
  distinct := by decide
  present := by decide
  plain := by simp

theorem twoTrackers_wellFormed : WellFormed (ascii "d13:announce-listl0:l1:ae0:0:l1:beee")
    (.value (.dict twoTrackers)) := by
  have text {n : UInt8} {data : Bytes} (digit : isDigit n = true)
      (length : digitsValue [n] = data.length) :=
    @WellFormed.str [n] data (digits_singleton digit) length
  have empty := @text 48 [] (by decide) (by decide)
  have tier (c : UInt8) := WellFormed.list (.cons (@text 49 [c] (by decide) (by simp; decide)) .nil)
  have tiers := WellFormed.list (.cons empty (.cons (tier 97) (.cons empty (.cons empty
    (.cons (tier 98) .nil)))))
  exact WellFormed.dict (@WellFormed.entry (ascii "13") (ascii "announce-list") _ _ _ _
    ⟨by decide, List.all_eq_true.mp (by decide)⟩ (by decide) tiers .done)

def twoTrackersLaid : Laid (Fin 4) decimals (taken (.dict twoTrackers)) where
  graph := twoTrackersGraph
  tb := .table 0
  order := taken (.dict twoTrackers)
  refs := [0, 1, 2, 3]
  same := .refl _
  lays := by
    have item (i : Nat) : Keys twoTrackersGraph decimals (.index i) (.other .number i) := .index rfl
    have empty : Lays twoTrackersGraph decimals (.value (.string []) (.string [])) [] := .string
    have tier (r : Fin 4) (name : Bytes)
        (fields : twoTrackersGraph.fields r = [(.other .number 0, .string name)]) :
        Lays twoTrackersGraph decimals (.value (.table [(.index 0, .string name)]) (.table r)) [r] :=
      .table rfl (by rw [fields]; exact .field (item 0) .string .done)
    have tiers := Lays.field (item 0) empty (.field (item 1) (tier 2 (ascii "a") rfl)
      (.field (item 2) empty (.field (item 3) empty (.field (item 4) (tier 3 (ascii "b") rfl) .done))))
    have entry := Lays.field (@Keys.string _ twoTrackersGraph decimals (ascii "announce-list"))
      (@Lays.table _ twoTrackersGraph decimals _ 1 _ rfl tiers) .done
    exact @Lays.table _ twoTrackersGraph decimals _ 0 _ rfl entry
  apart := by decide

theorem two_trackers_run : ∃ enough, ∀ fuel ≥ enough, ∀ g, ∃ g',
    parseTorrentFile fuel g (some (ascii "d13:announce-listl0:l1:ae0:0:l1:beee")) =
      .done (taken (.dict twoTrackers)) g' ∧
    trackerConnect decimals 4 twoTrackersLaid = .done (.nil, 2710)
      [page decimals twoTrackersLaid, url (ascii "b") dlCtx, url (ascii "a") dlCtx] := by
  obtain ⟨enough, runs⟩ := @tracker_connect_run (Fin 4) _ decimals _ _ twoTrackers_wellFormed
    [] (by unfold IsString; decide)
  refine ⟨enough, fun fuel more g => ?_⟩
  obtain ⟨g', parsed, ends⟩ := runs fuel more g
  exact ⟨g', parsed, ends twoTrackersLaid 4 (by decide)⟩

end BTServer.Lua
