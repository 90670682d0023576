import BTServer.Shared.CString
import BTServer.Shared.Keyed
import BTServer.Shared.Trap

set_option autoImplicit false

namespace BTServer.Lua.TablePrint

open CString Outcome

inductive Kind where
  | number
  | function
  | thread
  | userdata
  deriving DecidableEq

-- Numbers, functions, threads and userdata are only printed. They are told apart by their `id`.
inductive Value (Ref : Type) where
  | nil
  | boolean (b : Bool)
  | string (s : Bytes)
  | table (t : Ref)
  | other (kind : Kind) (id : Nat)
  deriving DecidableEq

section Value

variable {Ref : Type}

def Value.isTrue : Value Ref → Bool
  | .nil => false
  | .boolean b => b
  | _ => true

def type : Value Ref → Bytes
  | .nil => ascii "nil"
  | .boolean _ => ascii "boolean"
  | .string _ => ascii "string"
  | .table _ => ascii "table"
  | .other .number _ => ascii "number"
  | .other .function _ => ascii "function"
  | .other .thread _ => ascii "thread"
  | .other .userdata _ => ascii "userdata"

def quo : Value Ref → Bytes
  | .string _ => ascii "\""
  | _ => []

end Value

/-- Tables that refer to each other. The fields are in the order in which `pairs` gives them, and
`address` and `text` are what `tostring` makes of a table and of the other values. No metatable has
the metamethods `__pairs` and `__tostring`. -/
structure TableGraph (Ref : Type) where
  fields : Ref → List (Value Ref × Value Ref)
  metatable : Ref → Option Ref
  address : Ref → Bytes
  text : Kind → Nat → Bytes
  distinct : ∀ t, ((fields t).map Prod.fst).Nodup
  present : ∀ t, ∀ e ∈ fields t, e.1 ≠ .nil ∧ e.2 ≠ .nil
  plain : ∀ t m, metatable t = some m → ∀ e ∈ fields m,
    e.1 ≠ .string (ascii "__pairs") ∧ e.1 ≠ .string (ascii "__tostring")

-- `entered` counts the calls of `_list_table`; the code has no such variable.
structure Listing (Ref : Type) where
  tableList : List (Ref × Bytes)
  entered : Nat

def Listing.enter {Ref : Type} (st : Listing Ref) : Listing Ref :=
  { st with entered := st.entered + 1 }

def rep (s : Bytes) (n : Nat) : Bytes := (List.replicate n s).flatten

section Print

variable {Ref : Type} [DecidableEq Ref]

def TableGraph.rawget (g : TableGraph Ref) (t : Ref) (key : Value Ref) : Value Ref :=
  (Keyed.last key some (g.fields t)).getD .nil

/-- A metatable can name another value to be given instead. -/
def TableGraph.getmetatable (g : TableGraph Ref) (t : Ref) : Value Ref :=
  match g.metatable t with
  | none => .nil
  | some m =>
    match g.rawget m (.string (ascii "__metatable")) with
    | .nil => .table m
    | v => v

omit [DecidableEq Ref] in
def TableGraph.tostring (g : TableGraph Ref) : Value Ref → Bytes
  | .nil => ascii "nil"
  | .boolean true => ascii "true"
  | .boolean false => ascii "false"
  | .string s => s
  | .table t => g.address t
  | .other kind id => g.text kind id

def Listing.name (st : Listing Ref) : Value Ref → Option Bytes
  | .table t => st.tableList.lookup t
  | _ => none

-- The loop over the fields, from `ret` on; `list` is `_list_table`.
def listFields (g : TableGraph Ref)
    (list : Value Ref → Nat → Listing Ref → Outcome (Listing Ref) Bytes) (level : Nat)
    (indent : Bytes) : List (Value Ref × Value Ref) → Bytes → Listing Ref →
    Outcome (Listing Ref) Bytes
  | [], ret, st => .done ret st
  | (k, v) :: fields, ret, st =>
    let ret := ret ++ indent ++ ascii "[" ++ quo k ++ g.tostring k ++ quo k ++ ascii "] = "
    match v with
    | .table t =>
      match st.name v with
      | some tName =>
        let ret := ret ++ g.tostring v ++ ascii " -- > [\"" ++ tName ++ ascii "\"]\n"
        listFields g list level indent fields ret st
      | none =>
        let st := { st with tableList := (t, g.tostring k) :: st.tableList }
        (list v (level + 1) st).andThen fun inner st =>
          let ret := ret ++ ascii "\x7b\n" ++ inner ++ indent ++ ascii "\x7d\n"
          listFields g list level indent fields ret st
    | .string s =>
      let ret := ret ++ ascii "\"" ++ s ++ ascii "\"\n"
      listFields g list level indent fields ret st
    | v =>
      let ret := ret ++ g.tostring v ++ ascii "\n"
      listFields g list level indent fields ret st

-- What follows the loop. A metatable that is listed gets no name.
def listMetatable (g : TableGraph Ref)
    (list : Value Ref → Nat → Listing Ref → Outcome (Listing Ref) Bytes) (level : Nat)
    (indent : Bytes) (t : Ref) (ret : Bytes) (st : Listing Ref) : Outcome (Listing Ref) Bytes :=
  let mt := g.getmetatable t
  if mt.isTrue then
    let ret := ret ++ ascii "\n" ++ indent ++ ascii "<metatable> = "
    match st.name mt with
    | some tName =>
      .done (ret ++ g.tostring mt ++ ascii " -- > [\"" ++ tName ++ ascii "\"]\n") st
    | none =>
      (list mt (level + 1) st).andThen fun inner st =>
        .done (ret ++ ascii "\x7b\n" ++ inner ++ indent ++ ascii "\x7d\n") st
  else .done ret st

/-- `pairs` of anything but a table is an error. -/
def listTable (g : TableGraph Ref) :
    Nat → Value Ref → Nat → Listing Ref → Outcome (Listing Ref) Bytes
  | 0, .table _, _, st => .timeout st
  | fuel + 1, .table t, level, st =>
    let indent := rep (ascii " ") (level * 4)
    (listFields g (listTable g fuel) level indent (g.fields t) [] st.enter).andThen fun ret st =>
      listMetatable g (listTable g fuel) level indent t ret st
  | _, _, _, st => .fault st.enter

def tableTostring (g : TableGraph Ref) (fuel : Nat) (tb : Value Ref) :
    Outcome (Listing Ref) (Except Bytes Bytes) :=
  match tb with
  | .table t =>
    (listTable g fuel tb 1 ⟨[(t, ascii "root table")], 0⟩).andThen fun inner st =>
      .done (.ok (ascii " = \x7b\n" ++ inner ++ ascii "\x7d")) st
  | tb => .done (.error (ascii "Sorry, it's not table, it is " ++ type tb ++ ascii ".")) ⟨[], 0⟩

end Print

end BTServer.Lua.TablePrint
