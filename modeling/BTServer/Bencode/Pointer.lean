import BTServer.Bencode.Model
import BTServer.Shared.Cells
import BTServer.Shared.LinkedList

set_option autoImplicit false

-- The same functions on a heap of blocks that point to each other.
namespace BTServer.Bencode.Pointer

open CString LinkedList Outcome

inductive Tag where
  | list
  | int
  | string
  | dict
  deriving DecidableEq

-- What a block holds besides its list head. A null pointer is `none`.
inductive Cell where
  | chars (bytes : Bytes)
  | string (prev data head : Option Nat) (len : UInt32)
  | int (prev : Option Nat) (val : UInt32)
  | list (prev : Option Nat)
  | dict (prev : Option Nat)
  | lEntry (entry : Option Nat) (type : Tag)
  | dEntry (key : Bytes) (val : Option Nat) (type : Tag)

-- A block that is not allocated, or no longer, has no cell. No block has two list heads, so a list
-- head is named by its block.
structure Mem extends St where
  cells : Nat → Option Cell
  links : Links Nat

namespace Mem

def Live (m : Mem) (a : Nat) : Prop := (m.cells a).isSome

instance (m : Mem) (a : Nat) : Decidable (m.Live a) := inferInstanceAs (Decidable (_ = true))

def print (m : Mem) (level : MsgLevel) (func : String) (line : Nat) (text : Bytes) : Mem :=
  { m with toSt := m.toSt.print level func line text }

def set (m : Mem) (a : Nat) (cell : Cell) : Mem :=
  { m with cells := Function.update m.cells a (some cell) }

def malloc (env : Env) (m : Mem) (cell : Cell) : Option Nat × Mem :=
  let after := { m with toSt := m.toSt.malloc env }
  if env.alloc m.mallocs then (some m.mallocs, after.set m.mallocs cell) else (none, after)

def free (m : Mem) (a : Nat) : Outcome Mem Unit :=
  if m.Live a then
    .done () { m with toSt := m.toSt.free [a], cells := Function.update m.cells a none }
  else .fault m

def next (m : Mem) (a : Nat) : Outcome Mem Nat :=
  if m.Live a then .done (m.links a).next m else .fault m

def initListHead (m : Mem) (a : Nat) : Mem :=
  { m with links := LinkedList.initListHead m.links a }

def listAddTail (m : Mem) (new head : Nat) : Outcome Mem Unit :=
  if m.Live new ∧ m.Live head ∧ m.Live (m.links head).prev then
    .done () { m with links := LinkedList.listAddTail m.links new head }
  else .fault m

end Mem

def bStringAlloc (env : Env) (m : Mem) : Option Nat × Mem := m.malloc env (.string none none none 0)

def bIntAlloc (env : Env) (m : Mem) : Option Nat × Mem := m.malloc env (.int none 0)

-- A block whose list head is initialised as soon as it is allocated.
def allocLinked (env : Env) (m : Mem) (cell : Cell) : Option Nat × Mem :=
  match m.malloc env cell with
  | (some ptr, m) => (some ptr, m.initListHead ptr)
  | (none, m) => (none, m)

def bListAlloc (env : Env) (m : Mem) : Option Nat × Mem := allocLinked env m (.list none)

def bDictAlloc (env : Env) (m : Mem) : Option Nat × Mem := allocLinked env m (.dict none)

def lEntryAlloc (env : Env) (m : Mem) (type : Tag) : Option Nat × Mem :=
  allocLinked env m (.lEntry none type)

/-- The key is read once there is a block to copy it to. `val` is left unset. -/
def dEntryAlloc (env : Env) (m : Mem) (key : Option Nat) (type : Tag) :
    Outcome Mem (Option Nat) :=
  match allocLinked env m (.dEntry [] none type) with
  | (none, m) => .done none m
  | (some ptr, m) =>
    match key with
    | none => .crash m
    | some chars =>
      match m.cells chars with
      | some (.chars bytes) => .done (some ptr) (m.set ptr (.dEntry ((cstr bytes).take keyLen) none type))
      | _ => .fault m

def bStringFree (m : Mem) : Option Nat → Outcome Mem Unit
  | none => .done () m
  | some ptr =>
    match m.cells ptr with
    | some (.string _ _ (some head) _) => (m.free head).andThen fun _ m => m.free ptr
    | some (.string _ _ none _) => m.free ptr
    | _ => .fault m

def bIntFree (m : Mem) : Option Nat → Outcome Mem Unit
  | none => .done () m
  | some ptr => m.free ptr

-- `release` is the function that the type of the entry selects.
def lEntryFree (release : Tag → Mem → Option Nat → Outcome Mem Unit) (m : Mem) (ptr : Nat) :
    Outcome Mem Unit :=
  match m.cells ptr with
  | some (.lEntry entry type) => (release type m entry).andThen fun _ m => m.free ptr
  | _ => .fault m

def dEntryFree (release : Tag → Mem → Option Nat → Outcome Mem Unit) (m : Mem) (ptr : Nat) :
    Outcome Mem Unit :=
  match m.cells ptr with
  | some (.dEntry _ val type) => (release type m val).andThen fun _ m => m.free ptr
  | _ => .fault m

/-- `list_for_each_entry_safe` -/
def entriesFree (entryFree : Mem → Nat → Outcome Mem Unit) :
    Nat → Mem → Nat → Nat → Nat → Outcome Mem Unit
  | 0, m, _, _, _ => .timeout m
  | fuel + 1, m, head, vec, tmp =>
    if vec = head then .done () m
    else
      (entryFree m vec).andThen fun _ m =>
        (m.next tmp).andThen fun next m => entriesFree entryFree fuel m head tmp next

def allFree (entryFree : Mem → Nat → Outcome Mem Unit) (fuel : Nat) (m : Mem) (ptr : Nat) :
    Outcome Mem Unit :=
  (m.next ptr).andThen fun vec m =>
    (m.next vec).andThen fun tmp m =>
      (entriesFree entryFree fuel m ptr vec tmp).andThen fun _ m => m.free ptr

def release : Nat → Tag → Mem → Option Nat → Outcome Mem Unit
  | _, .string, m, ptr => bStringFree m ptr
  | _, .int, m, ptr => bIntFree m ptr
  | _, .list, m, none => .done () m
  | _, .dict, m, none => .done () m
  | 0, .list, m, some _ => .timeout m
  | 0, .dict, m, some _ => .timeout m
  | fuel + 1, .list, m, some ptr => allFree (lEntryFree (release fuel)) fuel m ptr
  | fuel + 1, .dict, m, some ptr => allFree (dEntryFree (release fuel)) fuel m ptr

def bListFree (fuel : Nat) (m : Mem) (ptr : Option Nat) : Outcome Mem Unit := release fuel .list m ptr

def bDictFree (fuel : Nat) (m : Mem) (ptr : Option Nat) : Outcome Mem Unit := release fuel .dict m ptr

def setEntry (m : Mem) (type : Tag) (value entry : Nat) : Outcome Mem Unit :=
  match type, m.cells value with
  | .list, some (.list _) => .done () (m.set value (.list (some entry)))
  | .int, some (.int _ val) => .done () (m.set value (.int (some entry) val))
  | .string, some (.string _ data head len) =>
    .done () (m.set value (.string (some entry) data head len))
  | .dict, some (.dict _) => .done () (m.set value (.dict (some entry)))
  | _, _ => .fault m

def bListAdd (env : Env) (m : Mem) (entry list : Nat) (type : Tag) : Outcome Mem Unit :=
  match lEntryAlloc env m type with
  | (some ptr, m) =>
    (setEntry (m.set ptr (.lEntry (some entry) type)) type entry ptr).andThen fun _ m =>
      m.listAddTail ptr list
  | (none, m) => .done () (m.print .error "b_list_add" 348 (ascii "No memory to alloc l_entry\n"))

def bDictAdd (env : Env) (m : Mem) (entry : Nat) (key : Option Nat) (dict : Nat) (type : Tag) :
    Outcome Mem Unit :=
  (dEntryAlloc env m key type).andThen fun ptr m =>
    match ptr with
    | some ptr =>
      match m.cells ptr with
      | some (.dEntry key _ type) =>
        (setEntry (m.set ptr (.dEntry key (some entry) type)) type entry ptr).andThen fun _ m =>
          m.listAddTail ptr dict
      | _ => .fault m
    | none =>
      .done () (m.print .error "b_dict_add" 563 (ascii "No memory to alloc l_entry\n"))

/-- The entry stays on its list. -/
def bListDel (fuel : Nat) (m : Mem) (entry : Nat) : Outcome Mem Unit :=
  lEntryFree (release fuel) m entry

def bDictDel (fuel : Nat) (m : Mem) (entry : Nat) : Outcome Mem Unit :=
  dEntryFree (release fuel) m entry

def bStringParse (env : Env) (m : Mem) (buf target : Nat) : Outcome Mem (Option Nat) :=
  match env.rest buf with
  | none => .fault m
  | some bytes =>
    match strchr 58 bytes with
    | none => .done none (m.print .error "b_string_parse" 165 (formatError bytes))
    | some n =>
      let number := strtol (scratch (integerLen + 1) (bytes.take (min integerLen n)))
      let m := { m with toSt := m.toSt.strtol number }
      if strtolFails m.errno number.val then
        .done none (m.print .error "b_string_parse" 147 (ascii "strtol error\n"))
      else if CharPtr.tmp number.used = CharPtr.buf buf then
        .done none (m.print .error "b_string_parse" 152 (ascii "No digits were found\n"))
      else
        let text := (bytes.drop (n + 1)).take number.val.toNat ++ [0]
        match m.cells target with
        | some (.string prev _ _ _) =>
          let (tmpB, m) := m.malloc env (.chars text)
          if 0 ≤ number.val ∧ n + 1 + number.val.toNat ≤ bytes.length then
            match tmpB with
            | some tmpB =>
              .done (some (buf + n + 1 + number.val.toNat))
                (m.set target (.string prev (some tmpB) (some tmpB) (toUnsigned number.val)))
            | none => .crash m
          else .fault m
        | _ => .fault m

def bIntParse (env : Env) (m : Mem) (buf ret : Nat) : Outcome Mem (Option Nat) :=
  match env.rest buf with
  | none => .fault m
  | some bytes =>
    match strchr 101 bytes with
    | none => .done none (m.print .error "b_int_parse" 235 (formatError bytes))
    | some n =>
      let len := n % 2 ^ 32
      let tmp := scratch integerLen ((bytes.drop 1).take (min integerLen len))
      let number := strtol (tmp ++ env.beyond m.ints)
      let m := { m with toSt := (m.toSt.strtol number).nextInt }
      match m.cells ret with
      | some (.int prev _) =>
        let val := toUnsigned number.val
        let m := m.set ret (.int prev val)
        if strtolFails m.errno val.toNat then
          .done none (m.print .error "b_int_parse" 224 (ascii "strtol error\n"))
        else if CharPtr.tmp number.used = CharPtr.buf (buf + 1) then
          .done none (m.print .error "b_int_parse" 229 (ascii "No digits were found\n"))
        else .done (some (buf + n + 1)) m
      | _ => .fault m

inductive Element where
  | skipped
  | rejected
  | parsed (next : Nat) (type : Tag) (value : Nat)

/-- No more blocks can be released than were ever allocated. -/
def Mem.fuel (m : Mem) : Nat := m.mallocs + 1

/-- One case of the `switch`: a value is allocated, parsed and given back if it is rejected. -/
def parseCase (type : Tag) (alloc : Mem → Option Nat × Mem)
    (parse : Mem → Nat → Nat → Outcome Mem (Option Nat)) (giveBack : Mem → Outcome Mem Unit)
    (complain : Mem → Mem) (m : Mem) (ptr : Nat) : Outcome Mem Element :=
  match alloc m with
  | (none, m) => .done .skipped m
  | (some value, m) =>
    (parse m ptr value).andThen fun next m =>
      match next with
      | some ptr => .done (.parsed ptr type value) m
      | none =>
        (giveBack m).andThen fun _ m =>
          (release m.fuel type m (some value)).andThen fun _ m => .done .rejected (complain m)

def parseElement (env : Env) (list dict : Mem → Nat → Nat → Outcome Mem (Option Nat))
    (giveBack : Mem → Outcome Mem Unit) (complain : Mem → Mem) (m : Mem) (ptr : Nat) (c : UInt8) :
    Outcome Mem Element :=
  if c = 108 then parseCase .list (bListAlloc env) list giveBack id m ptr
  else if c = 105 then parseCase .int (bIntAlloc env) (bIntParse env) giveBack id m ptr
  else if c = 100 then parseCase .dict (bDictAlloc env) dict giveBack id m ptr
  else parseCase .string (bStringAlloc env) (bStringParse env) giveBack complain m ptr

def bStringGet (m : Mem) (ptr : Nat) : Outcome Mem (Option Nat) :=
  match m.cells ptr with
  | some (.string _ data _ _) => .done data m
  | _ => .fault m

mutual
def bListParse (env : Env) : Nat → Mem → Nat → Nat → Outcome Mem (Option Nat)
  | 0, m, _, _ => .timeout m
  | fuel + 1, m, ptr, ret =>
    match env.load ptr with
    | none => .fault m
    | some c => if c ≠ 108 then .done none m else bListLoop env fuel m (ptr + 1) ret

def bListLoop (env : Env) : Nat → Mem → Nat → Nat → Outcome Mem (Option Nat)
  | 0, m, _, _ => .timeout m
  | fuel + 1, m, ptr, ret =>
    match env.load ptr with
    | none => .fault m
    | some c =>
      if c = 101 then .done (some (ptr + 1)) m
      else
        (parseElement env (bListParse env fuel) (bDictParse env fuel) (.done ()) id m ptr c).andThen
          fun element m =>
            match element with
            | .skipped => bListLoop env fuel m ptr ret
            | .rejected => .done none m
            | .parsed ptr type value =>
              (bListAdd env m value ret type).andThen fun _ m => bListLoop env fuel m ptr ret

def bDictParse (env : Env) : Nat → Mem → Nat → Nat → Outcome Mem (Option Nat)
  | 0, m, _, _ => .timeout m
  | fuel + 1, m, ptr, ret =>
    match env.load ptr with
    | none => .fault m
    | some c => if c ≠ 100 then .done none m else bDictLoop env fuel m (ptr + 1) ret

def bDictLoop (env : Env) : Nat → Mem → Nat → Nat → Outcome Mem (Option Nat)
  | 0, m, _, _ => .timeout m
  | fuel + 1, m, ptr, ret =>
    match env.load ptr with
    | none => .fault m
    | some c =>
      if c = 101 then .done (some (ptr + 1)) m
      else
        match bStringAlloc env m with
        | (none, m) => .done none m
        | (some newKey, m) =>
          (bStringParse env m ptr newKey).andThen fun next m =>
            match next with
            | none => (bStringFree m (some newKey)).andThen fun _ m => .done none m
            | some ptr =>
              match env.load ptr with
              | none => .fault m
              | some c =>
                (parseElement env (bListParse env fuel) (bDictParse env fuel)
                  (bStringFree · (some newKey))
                  (·.print .error "b_dict_parse" 657 (ascii "Error list entry type\n"))
                  m ptr c).andThen fun element m =>
                    match element with
                    | .skipped =>
                      (bStringFree m (some newKey)).andThen fun _ m => bDictLoop env fuel m ptr ret
                    | .rejected => .done none m
                    | .parsed ptr type value =>
                      (bStringGet m newKey).andThen fun key m =>
                        (bDictAdd env m value key ret type).andThen fun _ m =>
                          (bStringFree m (some newKey)).andThen fun _ m =>
                            bDictLoop env fuel m ptr ret
end

end BTServer.Bencode.Pointer
