import BTServer.Bencode.Encoding
import BTServer.Shared.Log
import Mathlib.Tactic.Ring

set_option autoImplicit false

namespace BTServer.Bencode

open CString Outcome

def MsgLevel.bits : MsgLevel → UInt32
  | .error => 1
  | .info => 2
  | .dump => 4

def btTraceLevel : UInt32 := 7

structure Printed where
  buffer : Bytes
  stdout : Bytes

def printMsg (msglevel : UInt32) (m : Trace) : Printed :=
  if m.level.bits &&& btTraceLevel = 0 then ⟨[], []⟩
  else
    let text := ascii "BT-Server: " ++ ascii m.func ++ ascii "(" ++ decimal m.line ++ ascii ") " ++
      m.text
    ⟨text ++ [0], if m.level.bits &&& msglevel = 0 then [] else text⟩

def bufferSize : Nat := 2000

def Trace.Fits (m : Trace) : Prop :=
  ∀ msglevel, (printMsg msglevel m).buffer.length ≤ bufferSize

theorem Trace.fits_iff (m : Trace) :
    m.Fits ↔ (ascii m.func).length + (decimal m.line).length + m.text.length + 15 ≤ 2000 := by
  have traced : ¬ m.level.bits &&& btTraceLevel = 0 := by
    cases m.level <;> decide
  have size (msglevel : UInt32) : (printMsg msglevel m).buffer.length =
      (ascii m.func).length + (decimal m.line).length + m.text.length + 15 := by
    have start : (ascii "BT-Server: ").length = 11 := rfl
    have opened : (ascii "(").length = 1 := rfl
    have closed : (ascii ") ").length = 2 := rfl
    simp only [printMsg, traced, if_false, List.length_append, start, opened, closed,
      List.length_singleton]
    omega
  simp only [Trace.Fits, size, bufferSize, forall_const]

-- What printing finds in memory besides the structures. The array of a key is followed by the
-- pointer to the entry's value. A key that fills the array is not terminated, and its text goes on
-- to the first zero byte of that pointer: its last byte is one.
structure Memory where
  behind : Nat → Bytes
  ended : ∀ node, (behind node).length < 8
  address : Nat → Nat
  ctime : UInt32 → Bytes
  dated : ∀ t, (ctime t).length = 25

/-- `%d` shows the low 32 bits of its argument. -/
def percentD (n : Int) : Bytes := intText (Int.bmod n (2 ^ 32))

theorem percentD_length (n : Int) : (percentD n).length ≤ 11 := by
  have digits : (decimal (Int.bmod n (2 ^ 32)).natAbs).length ≤ 10 := by
    apply decimal_length _ 10 (by decide)
    have low := @Int.le_bmod n (2 ^ 32) (by decide)
    have high := @Int.bmod_lt n (2 ^ 32) (by decide)
    omega
  unfold percentD intText
  split
  next =>
    rw [List.length_cons]
    omega
  next => omega

def trace (level : MsgLevel) (func : String) (line : Nat) (text : Bytes) :
    Outcome (List Trace) Unit :=
  .done () [⟨level, func, line, text⟩]

def bStringPrint (s : BString) : Outcome (List Trace) Unit :=
  trace .info "b_string_print" 111 (cstr s.data ++ ascii "\n")

def bIntPrint (i : BInt) : Outcome (List Trace) Unit :=
  trace .info "b_int_print" 201 (percentD i.val.toNat ++ ascii "\n")

def BValue.type : BValue → UInt8
  | .string _ => 115
  | .int _ => 105
  | .list _ => 108
  | .dict _ => 100

def keyText (mem : Memory) (node : Nat) (key : Bytes) : Bytes :=
  if key.length < keyLen then key else key ++ mem.behind node

def keyPrint (mem : Memory) (i node : Nat) (key : Bytes) (v : BValue) : Outcome (List Trace) Unit :=
  trace .dump "b_dict_print" 690 (ascii "[ (" ++ percentD i ++ ascii ") Key(" ++ [v.type] ++
    ascii ") ] " ++ keyText mem node key ++ ascii "\n")

def listBegin : Outcome (List Trace) Unit :=
  trace .dump "b_list_print" 449 (ascii "[ List Print begin ]\n")

def listEnd : Outcome (List Trace) Unit :=
  trace .dump "b_list_print" 453 (ascii "[ List Print end ]\n")

def dictBegin : Outcome (List Trace) Unit :=
  trace .dump "b_dict_print" 688 (ascii "[ Dictionary Print begin ]\n")

def dictEnd : Outcome (List Trace) Unit :=
  trace .dump "b_dict_print" 693 (ascii "[ Dictionary Print end ]\n")

-- `l_entry_print` and `d_entry_print` have one text. An entry whose value has been moved out holds
-- a null pointer; its type is not kept in the model, so its key is not shown before the crash.
mutual
def BValue.print (mem : Memory) : BValue → Outcome (List Trace) Unit
  | .string s => bStringPrint s
  | .int i => bIntPrint i
  | .list ⟨_, entries⟩ => inOrder [listBegin, lEntriesPrint mem entries, listEnd]
  | .dict ⟨_, entries⟩ => inOrder [dictBegin, dEntriesPrint mem 0 entries, dictEnd]

def lEntriesPrint (mem : Memory) : List (LEntry BValue) → Outcome (List Trace) Unit
  | [] => .done () []
  | ⟨_, entry⟩ :: rest => (entry.print mem).follow (lEntriesPrint mem rest)

def dEntriesPrint (mem : Memory) (i : Nat) : List (DEntry BValue) → Outcome (List Trace) Unit
  | [] => .done () []
  | ⟨node, key, val⟩ :: rest =>
    (dEntryPrint mem i node key val).follow (dEntriesPrint mem (i + 1) rest)

def dEntryPrint (mem : Memory) (i node : Nat) (key : Bytes) :
    Option BValue → Outcome (List Trace) Unit
  | none => .crash []
  | some v => (keyPrint mem i node key v).follow (v.print mem)
end

/-- The loop over the entries of `NULL` is a crash. -/
def bListPrint (mem : Memory) : Option BList → Outcome (List Trace) Unit
  | none => listBegin.follow (.crash [])
  | some ret => inOrder [listBegin, lEntriesPrint mem ret.entries, listEnd]

def bDictPrint (mem : Memory) (ptr : BDict) : Outcome (List Trace) Unit :=
  inOrder [dictBegin, dEntriesPrint mem 0 ptr.entries, dictEnd]

inductive Whole : BValue → Prop
  | string {s : BString} : Whole (.string s)
  | int {i : BInt} : Whole (.int i)
  | list {l : BList} (items : ∀ e ∈ l.entries, Whole e.entry) : Whole (.list l)
  | dict {d : BDict} (entries : ∀ e ∈ d.entries, e.val ≠ none ∧ e.key.length ≤ keyLen)
      (values : ∀ e ∈ d.entries, ∀ v, e.val = some v → Whole v) : Whole (.dict d)

def whole {α : Type} (wrap : α → BValue) : Post St (Option Nat × α) :=
  ⟨fun result _ => Whole (wrap result.2), True, True, True⟩

def wholeElement : Post St Element := ⟨fun e _ => ∀ q v, e = .parsed q v → Whole v, True, True, True⟩

structure BuildsWhole (env : Env) (fuel : Nat) : Prop where
  list : ∀ st p ret, Whole (.list ret) → (bListParse env fuel st p ret).Sat (whole .list)
  listLoop : ∀ st p ret, Whole (.list ret) → (bListLoop env fuel st p ret).Sat (whole .list)
  dict : ∀ st p ret, Whole (.dict ret) → (bDictParse env fuel st p ret).Sat (whole .dict)
  dictLoop : ∀ st p ret, Whole (.dict ret) → (bDictLoop env fuel st p ret).Sat (whole .dict)

theorem branch_whole {α : Type} {parse : Outcome St (Option Nat × α)} (wrap : α → BValue)
    (release : α → St → St) (sat : parse.Sat (whole wrap)) :
    (parse.andThen fun result st =>
      match result.1 with
      | some ptr => .done (.parsed ptr (wrap result.2)) st
      | none => .done .rejected (release result.2 st)).Sat wholeElement := by
  refine Sat.andThen sat ?_ id id id
  rintro ⟨next, x⟩ st' built
  cases next with
  | none =>
    intro q v same
    cases same
  | some q' =>
    intro q v same
    cases same
    exact built

section BuildsWhole

variable {env : Env} {fuel : Nat}

theorem whole_of_always {α : Type} {wrap : α → BValue} (always : ∀ x, Whole (wrap x))
    (parse : Outcome St (Option Nat × α)) : parse.Sat (whole wrap) := by
  cases parse with
  | done result st => exact always result.2
  | fault st => trivial
  | crash st => trivial
  | timeout st => trivial

theorem parseElement_whole (builds : BuildsWhole env fuel) (release : List Nat)
    (complain : St → St) (st : St) (p : Nat) (c : UInt8) :
    (parseElement env (bListParse env fuel) (bDictParse env fuel) release complain st p c).Sat
      wholeElement := by
  unfold parseElement
  dsimp only
  split
  next =>
    intro q v same
    cases same
  next =>
    split
    next =>
      exact branch_whole .list (fun l st => (st.free release).free (bListFree l))
        (builds.list _ _ _ (.list (by simp [bListAlloc])))
    next =>
      split
      next =>
        exact branch_whole .int (fun i st => (st.free release).free (bIntFree i))
          (whole_of_always (fun _ => .int) _)
      next =>
        split
        next =>
          exact branch_whole .dict (fun d st => (st.free release).free (bDictFree d))
            (builds.dict _ _ _ (.dict (by simp [bDictAlloc]) (by simp [bDictAlloc])))
        next =>
          exact branch_whole .string
            (fun s st => complain ((st.free release).free (bStringFree s)))
            (whole_of_always (fun _ => .string) _)

theorem bListAdd_whole {ret : BList} {v : BValue} (st : St) (list : Whole (.list ret))
    (value : Whole v) : Whole (.list (bListAdd env st v ret).1) := by
  unfold bListAdd
  split
  next =>
    cases list with
    | list items =>
      refine .list fun e member => ?_
      rcases List.mem_append.mp member with old | new
      next => exact items e old
      next =>
        rw [List.mem_singleton.mp new]
        exact value
  next => exact list

theorem bDictAdd_whole {ret : BDict} {v : BValue} (st : St) (key : BString)
    (dict : Whole (.dict ret)) (value : Whole v) :
    Whole (.dict (bDictAdd env st v key ret).1) := by
  unfold bDictAdd
  split
  next =>
    cases dict with
    | dict entries values =>
      refine .dict (fun e member => ?_) (fun e member x here => ?_)
      next =>
        rcases List.mem_append.mp member with old | new
        next => exact entries e old
        next =>
          rw [List.mem_singleton.mp new]
          exact ⟨by simp, List.length_take_le _ _⟩
      next =>
        rcases List.mem_append.mp member with old | new
        next => exact values e old x here
        next =>
          rw [List.mem_singleton.mp new] at here
          cases here
          exact value
  next => exact dict

theorem bListLoop_whole (builds : BuildsWhole env fuel) (st : St) (p : Nat) (ret : BList)
    (list : Whole (.list ret)) : (bListLoop env (fuel + 1) st p ret).Sat (whole .list) := by
  rw [bListLoop]
  split
  next => trivial
  next c _ =>
    split
    next => exact list
    next =>
      refine Sat.andThen (parseElement_whole builds [] id st p c) ?_ id id id
      intro element st' built
      cases element with
      | skipped => exact builds.listLoop _ _ _ list
      | rejected => exact list
      | parsed q v => exact builds.listLoop _ _ _ (bListAdd_whole st' list (built q v rfl))

theorem bDictLoop_whole (builds : BuildsWhole env fuel) (st : St) (p : Nat) (ret : BDict)
    (dict : Whole (.dict ret)) : (bDictLoop env (fuel + 1) st p ret).Sat (whole .dict) := by
  rw [bDictLoop]
  split
  next => trivial
  next =>
    split
    next => exact dict
    next =>
      split
      next => exact dict
      next =>
        refine Sat.andThen (@whole_of_always _ .string (fun _ => .string) _) ?_ id id id
        rintro ⟨next, key⟩ st₁ -
        cases next with
        | none => exact dict
        | some q =>
          dsimp only
          split
          next => trivial
          next c _ =>
            refine Sat.andThen (parseElement_whole builds _ _ st₁ q c) ?_ id id id
            intro element st₂ built
            cases element with
            | skipped => exact builds.dictLoop _ _ _ dict
            | rejected => exact dict
            | parsed r v =>
              exact builds.dictLoop _ _ _ (bDictAdd_whole st₂ key dict (built r v rfl))

end BuildsWhole

theorem parse_whole (env : Env) (fuel : Nat) : BuildsWhole env fuel := by
  induction fuel with
  | zero =>
    constructor
    · intro st p ret _
      rw [bListParse]
      trivial
    · intro st p ret _
      rw [bListLoop]
      trivial
    · intro st p ret _
      rw [bDictParse]
      trivial
    · intro st p ret _
      rw [bDictLoop]
      trivial
  | succ fuel builds =>
    refine ⟨?_, bListLoop_whole builds, ?_, bDictLoop_whole builds⟩
    · intro st p ret list
      rw [bListParse]
      split
      next => trivial
      next =>
        split
        next => exact list
        next => exact builds.listLoop _ _ _ list
    · intro st p ret dict
      rw [bDictParse]
      split
      next => trivial
      next =>
        split
        next => exact dict
        next => exact builds.dictLoop _ _ _ dict

mutual
def texts : Value → List Bytes
  | .str data _ => [data]
  | .int _ => []
  | .list vs => itemTexts vs
  | .dict es => entryTexts es

def itemTexts : List Value → List Bytes
  | [] => []
  | v :: vs => texts v ++ itemTexts vs

def entryTexts : List (Bytes × Value) → List Bytes
  | [] => []
  | (_, v) :: es => texts v ++ entryTexts es
end

/-- What `b_string_print` has room for. -/
def ShortTexts (ts : List Bytes) : Prop := ∀ t ∈ ts, (cstr t).length ≤ 1967

theorem shortTexts_append (ts us : List Bytes) :
    ShortTexts (ts ++ us) ↔ ShortTexts ts ∧ ShortTexts us := List.forall_mem_append

theorem tells_fixed {level : MsgLevel} {func : String} {line : Nat} {text : Bytes}
    (fits : (ascii func).length + (decimal line).length + text.length + 15 ≤ 2000) :
    (trace level func line text).Tells Trace.Fits True :=
  tells_one (iff_of_true ((Trace.fits_iff _).mpr fits) trivial)

theorem bStringPrint_tells (s : BString) :
    (bStringPrint s).Tells Trace.Fits (ShortTexts [s.data]) := by
  refine tells_one ?_
  have func : (ascii "b_string_print").length = 14 := rfl
  have line : (decimal 111).length = 3 := by decide
  have newline : (ascii "\n").length = 1 := rfl
  simp only [Trace.fits_iff, func, line, List.length_append, newline, ShortTexts,
    List.forall_mem_singleton]
  omega

theorem bIntPrint_tells (i : BInt) : (bIntPrint i).Tells Trace.Fits True := by
  apply tells_fixed
  have func : (ascii "b_int_print").length = 11 := rfl
  have line : (decimal 201).length = 3 := by decide
  have newline : (ascii "\n").length = 1 := rfl
  have number := percentD_length i.val.toNat
  simp only [List.length_append]
  omega

theorem keyPrint_tells (mem : Memory) (i node : Nat) {key : Bytes} (short : key.length ≤ keyLen)
    (v : BValue) : (keyPrint mem i node key v).Tells Trace.Fits True := by
  apply tells_fixed
  have func : (ascii "b_dict_print").length = 12 := rfl
  have line : (decimal 690).length = 3 := by decide
  have opened : (ascii "[ (").length = 3 := rfl
  have middle : (ascii ") Key(").length = 6 := rfl
  have closed : (ascii ") ] ").length = 4 := rfl
  have newline : (ascii "\n").length = 1 := rfl
  have number := percentD_length i
  -- A key that fills its array ends within the pointer behind it.
  have text : (keyText mem node key).length < keyLen + 8 := by
    have ended := mem.ended node
    unfold keyText
    split
    next => omega
    next =>
      rw [List.length_append]
      omega
  simp only [keyLen] at text
  simp only [List.length_append, List.length_singleton]
  omega

theorem lEntriesPrint_tells (mem : Memory) {entries : List (LEntry BValue)}
    (each : ∀ e ∈ entries, (e.entry.print mem).Tells Trace.Fits (ShortTexts (texts e.entry.erase))) :
    (lEntriesPrint mem entries).Tells Trace.Fits (ShortTexts (itemTexts (eraseItems entries))) := by
  induction entries with
  | nil =>
    rw [lEntriesPrint]
    exact tells_nothing.congr (by simp [eraseItems, itemTexts, ShortTexts])
  | cons e entries ih =>
    obtain ⟨here, later⟩ := List.forall_mem_cons.mp each
    rw [lEntriesPrint, eraseItems, itemTexts, shortTexts_append]
    exact here.follow (ih later)

theorem dEntriesPrint_tells (mem : Memory) (i : Nat) {entries : List (DEntry BValue)}
    (each : ∀ e ∈ entries, e.key.length ≤ keyLen ∧ ∃ v, e.val = some v ∧
      (v.print mem).Tells Trace.Fits (ShortTexts (texts v.erase))) :
    (dEntriesPrint mem i entries).Tells Trace.Fits
      (ShortTexts (entryTexts (eraseEntries entries))) := by
  induction entries generalizing i with
  | nil =>
    rw [dEntriesPrint]
    exact tells_nothing.congr (by simp [eraseEntries, entryTexts, ShortTexts])
  | cons e entries ih =>
    obtain ⟨⟨short, v, present, here⟩, later⟩ := List.forall_mem_cons.mp each
    obtain ⟨node, key, val⟩ := e
    obtain rfl : val = some v := present
    rw [dEntriesPrint, dEntryPrint, eraseEntries, eraseVal, List.singleton_append, entryTexts,
      shortTexts_append]
    have entry := (keyPrint_tells mem i node short v).follow here
    exact (entry.follow (ih (i + 1) later)).congr (by rw [true_and])

theorem print_tells (mem : Memory) {v : BValue} (whole : Whole v) :
    (v.print mem).Tells Trace.Fits (ShortTexts (texts v.erase)) := by
  induction whole with
  | @string s =>
    rw [BValue.print, BValue.erase, texts]
    exact bStringPrint_tells s
  | @int i =>
    rw [BValue.print, BValue.erase, texts]
    exact (bIntPrint_tells i).congr (by simp [ShortTexts])
  | @list l items ih =>
    obtain ⟨node, entries⟩ := l
    rw [BValue.print, BValue.erase, texts]
    exact (tells_inOrder (.cons (tells_fixed (by decide)) (.cons (lEntriesPrint_tells mem ih)
      (.cons (tells_fixed (by decide)) .nil)))).congr (by simp)
  | @dict d entries values ih =>
    obtain ⟨node, entries⟩ := d
    rw [BValue.print, BValue.erase, texts]
    have inside := dEntriesPrint_tells mem 0 fun e member => by
      obtain ⟨v, present⟩ := Option.ne_none_iff_exists'.mp (entries e member).1
      exact ⟨(entries e member).2, v, present, ih e member v present⟩
    exact (tells_inOrder (.cons (tells_fixed (by decide)) (.cons inside
      (.cons (tells_fixed (by decide)) .nil)))).congr (by simp)

theorem bListPrint_tells (mem : Memory) {l : BList} (whole : Whole (.list l)) :
    (bListPrint mem (some l)).Tells Trace.Fits (ShortTexts (itemTexts (eraseItems l.entries))) := by
  have tells := print_tells mem whole
  obtain ⟨node, entries⟩ := l
  rw [BValue.print, BValue.erase, texts] at tells
  exact tells

theorem bDictPrint_tells (mem : Memory) {d : BDict} (whole : Whole (.dict d)) :
    (bDictPrint mem d).Tells Trace.Fits (ShortTexts (entryTexts (eraseEntries d.entries))) := by
  have tells := print_tells mem whole
  obtain ⟨node, entries⟩ := d
  rw [BValue.print, BValue.erase, texts] at tells
  exact tells

end BTServer.Bencode
