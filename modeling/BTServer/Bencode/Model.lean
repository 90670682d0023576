import BTServer.Shared.CString
import BTServer.Shared.Outcome

set_option autoImplicit false

namespace BTServer.Bencode

open CString

def integerLen : Nat := 20
def keyLen : Nat := 128
def enomem : Int := 12
def erange : Int := 34

inductive MsgLevel where
  | error
  | info
  | dump
  deriving DecidableEq

structure Trace where
  level : MsgLevel
  func : String
  line : Nat
  text : Bytes

-- What the course of a parse depends on besides the buffer. `ints` counts the numbers that
-- `b_int_parse` has read, `mallocs` the calls of `malloc`, whose count names the block.
structure Scan where
  errno : Int
  ints : Nat
  mallocs : Nat
  deriving DecidableEq

structure St extends Scan where
  freed : List Nat
  trace : List Trace

-- The buffer is followed by its terminator. `beyond k` is what lies behind the scratch array of
-- the `k`-th call of `b_int_parse`, which leaves no room for a terminator.
structure Env where
  buf : Bytes
  alloc : Nat → Bool
  beyond : Nat → Bytes
  -- With its terminator the buffer is an object, and no object is larger than `PTRDIFF_MAX`.
  fits : buf.length < 2 ^ 63 - 1

-- Every allocation succeeds, and a terminator stands behind each scratch array.
def Env.plentiful (buf : Bytes) (fits : buf.length < 2 ^ 63 - 1 := by decide) : Env :=
  ⟨buf, fun _ => true, fun _ => [], fits⟩

def Env.rest (env : Env) (p : Nat) : Option Bytes :=
  if p ≤ env.buf.length then some (env.buf.drop p ++ [0]) else none

def Env.load (env : Env) (p : Nat) : Option UInt8 := (env.rest p).bind List.head?

-- A call that fails sets `errno`.
def Scan.malloc (env : Env) (s : Scan) : Scan :=
  { s with
    errno := if env.alloc s.mallocs then s.errno else enomem
    mallocs := s.mallocs + 1 }

theorem Scan.malloc_errno {env : Env} (s : Scan) (node : env.alloc s.mallocs = true) :
    (s.malloc env).errno = s.errno := if_pos node

def Scan.strtol (s : Scan) (number : Number) : Scan :=
  { s with errno := if number.range then erange else s.errno }

def Scan.nextInt (s : Scan) : Scan := { s with ints := s.ints + 1 }

def St.malloc (env : Env) (st : St) : St := { st with toScan := st.toScan.malloc env }

def St.strtol (st : St) (number : Number) : St := { st with toScan := st.toScan.strtol number }

def St.nextInt (st : St) : St := { st with toScan := st.toScan.nextInt }

def St.free (st : St) (blocks : List Nat) : St := { st with freed := st.freed ++ blocks }

def St.print (st : St) (level : MsgLevel) (func : String) (line : Nat) (text : Bytes) : St :=
  { st with trace := st.trace ++ [⟨level, func, line, text⟩] }

structure BString where
  node : Nat
  head : Option Nat
  data : Bytes
  len : UInt32
  deriving DecidableEq

structure BInt where
  node : Nat
  val : UInt32
  deriving DecidableEq

structure LEntry (V : Type) where
  node : Nat
  entry : V

structure BListOf (V : Type) where
  node : Nat
  entries : List (LEntry V)

structure DEntry (V : Type) where
  node : Nat
  key : Bytes
  val : Option V

structure BDictOf (V : Type) where
  node : Nat
  entries : List (DEntry V)

/-- The type tag of an entry is the constructor of its value. -/
inductive BValue where
  | string (s : BString)
  | int (i : BInt)
  | list (l : BListOf BValue)
  | dict (d : BDictOf BValue)

abbrev BList := BListOf BValue
abbrev BDict := BDictOf BValue

def bStringAlloc (node : Nat) : BString := { node, head := none, data := [], len := 0 }
def bIntAlloc (node : Nat) : BInt := { node, val := 0 }
def bListAlloc (node : Nat) : BList := { node, entries := [] }
def bDictAlloc (node : Nat) : BDict := { node, entries := [] }

-- The release functions are the lists of blocks they pass to `free`, in order.
def bStringFree (s : BString) : List Nat := s.head.toList ++ [s.node]

def bIntFree (i : BInt) : List Nat := [i.node]

mutual
def BValue.free : BValue → List Nat
  | .string s => bStringFree s
  | .int i => bIntFree i
  | .list ⟨node, entries⟩ => lEntriesFree entries ++ [node]
  | .dict ⟨node, entries⟩ => dEntriesFree entries ++ [node]

def lEntriesFree : List (LEntry BValue) → List Nat
  | [] => []
  | ⟨node, entry⟩ :: rest => entry.free ++ [node] ++ lEntriesFree rest

def dEntriesFree : List (DEntry BValue) → List Nat
  | [] => []
  | ⟨node, _, val⟩ :: rest => valFree val ++ [node] ++ dEntriesFree rest

def valFree : Option BValue → List Nat
  | none => []
  | some v => v.free
end

def bListFree (l : BList) : List Nat := lEntriesFree l.entries ++ [l.node]

def bDictFree (d : BDict) : List Nat := dEntriesFree d.entries ++ [d.node]

def cstr (b : Bytes) : Bytes := b.takeWhile (· ≠ 0)

/-- A zeroed array of `n` bytes after a `memcpy` to its start. -/
def scratch (n : Nat) (b : Bytes) : Bytes := b ++ List.replicate (n - b.length) 0

def strtolFails (errno val : Int) : Bool :=
  (errno = erange && (val = longMax || val = longMin)) || (errno ≠ 0 && val = 0)

/-- Conversion of a `long` to `unsigned int`. -/
def toUnsigned (v : Int) : UInt32 := UInt32.ofNat (v % 2 ^ 32).toNat

-- `endptr` points into the scratch array, `ptr` into the buffer.
inductive CharPtr where
  | buf (offset : Nat)
  | tmp (offset : Nat)
  deriving DecidableEq

def formatError (bytes : Bytes) : Bytes :=
  ascii "B-coding string format error: " ++ cstr bytes ++ ascii "\n"

/-- The `memcpy` of the string faults when it would leave the buffer. A negative length is a
`size_t` that no buffer holds. -/
def bStringParse (env : Env) (st : St) (buf : Nat) (target : BString) :
    Outcome St (Option Nat × BString) :=
  match env.rest buf with
  | none => .fault st
  | some bytes =>
    match strchr 58 bytes with
    | none => .done (none, target) (st.print .error "b_string_parse" 165 (formatError bytes))
    | some n =>
      let number := strtol (scratch (integerLen + 1) (bytes.take (min integerLen n)))
      let st := st.strtol number
      if strtolFails st.errno number.val then
        .done (none, target) (st.print .error "b_string_parse" 147 (ascii "strtol error\n"))
      else if CharPtr.tmp number.used = CharPtr.buf buf then
        .done (none, target) (st.print .error "b_string_parse" 152 (ascii "No digits were found\n"))
      else
        let tmpB := st.mallocs
        let st := st.malloc env
        if 0 ≤ number.val ∧ n + 1 + number.val.toNat ≤ bytes.length then
          if env.alloc tmpB then
            .done (some (buf + n + 1 + number.val.toNat),
              { target with
                head := some tmpB
                data := (bytes.drop (n + 1)).take number.val.toNat
                len := toUnsigned number.val }) st
          else .crash st
        else .fault st

/-- The copied text includes the closing `e`; its length is an `unsigned int`. -/
def bIntParse (env : Env) (st : St) (buf : Nat) (ret : BInt) : Outcome St (Option Nat × BInt) :=
  match env.rest buf with
  | none => .fault st
  | some bytes =>
    match strchr 101 bytes with
    | none => .done (none, ret) (st.print .error "b_int_parse" 235 (formatError bytes))
    | some n =>
      let len := n % 2 ^ 32
      let tmp := scratch integerLen ((bytes.drop 1).take (min integerLen len))
      let number := strtol (tmp ++ env.beyond st.ints)
      let st := (st.strtol number).nextInt
      let ret := { ret with val := toUnsigned number.val }
      if strtolFails st.errno ret.val.toNat then
        .done (none, ret) (st.print .error "b_int_parse" 224 (ascii "strtol error\n"))
      else if CharPtr.tmp number.used = CharPtr.buf (buf + 1) then
        .done (none, ret) (st.print .error "b_int_parse" 229 (ascii "No digits were found\n"))
      else .done (some (buf + n + 1), ret) st

/-- A value whose entry cannot be allocated is dropped. -/
def bListAdd (env : Env) (st : St) (entry : BValue) (list : BList) : BList × St :=
  if env.alloc st.mallocs then
    ({ list with entries := list.entries ++ [⟨st.mallocs, entry⟩] }, st.malloc env)
  else (list, (st.malloc env).print .error "b_list_add" 348 (ascii "No memory to alloc l_entry\n"))

def dEntryKey (key : BString) : Bytes := (cstr key.data).take keyLen

def bDictAdd (env : Env) (st : St) (entry : BValue) (key : BString) (dict : BDict) : BDict × St :=
  if env.alloc st.mallocs then
    ({ dict with entries := dict.entries ++ [⟨st.mallocs, dEntryKey key, some entry⟩] }, st.malloc env)
  else (dict, (st.malloc env).print .error "b_dict_add" 563 (ascii "No memory to alloc l_entry\n"))

inductive Element where
  | skipped
  | rejected
  | parsed (next : Nat) (value : BValue)

/-- The `switch (*ptr)` of both loops. `release` is what the loop gives back when the value is
rejected, `complain` what it prints when that value is a string. -/
def parseElement (env : Env) (list : St → Nat → BList → Outcome St (Option Nat × BList))
    (dict : St → Nat → BDict → Outcome St (Option Nat × BDict)) (release : List Nat)
    (complain : St → St) (st : St) (ptr : Nat) (c : UInt8) : Outcome St Element :=
  let node := st.mallocs
  if env.alloc node = false then .done .skipped (st.malloc env)
  else if c = 108 then
    (list (st.malloc env) ptr (bListAlloc node)).andThen fun (next, l) st =>
      match next with
      | some ptr => .done (.parsed ptr (.list l)) st
      | none => .done .rejected ((st.free release).free (bListFree l))
  else if c = 105 then
    (bIntParse env (st.malloc env) ptr (bIntAlloc node)).andThen fun (next, i) st =>
      match next with
      | some ptr => .done (.parsed ptr (.int i)) st
      | none => .done .rejected ((st.free release).free (bIntFree i))
  else if c = 100 then
    (dict (st.malloc env) ptr (bDictAlloc node)).andThen fun (next, d) st =>
      match next with
      | some ptr => .done (.parsed ptr (.dict d)) st
      | none => .done .rejected ((st.free release).free (bDictFree d))
  else
    (bStringParse env (st.malloc env) ptr (bStringAlloc node)).andThen fun (next, s) st =>
      match next with
      | some ptr => .done (.parsed ptr (.string s)) st
      | none => .done .rejected (complain ((st.free release).free (bStringFree s)))

mutual
def bListParse (env : Env) : Nat → St → Nat → BList → Outcome St (Option Nat × BList)
  | 0, st, _, _ => .timeout st
  | fuel + 1, st, ptr, ret =>
    match env.load ptr with
    | none => .fault st
    | some c => if c ≠ 108 then .done (none, ret) st else bListLoop env fuel st (ptr + 1) ret

def bListLoop (env : Env) : Nat → St → Nat → BList → Outcome St (Option Nat × BList)
  | 0, st, _, _ => .timeout st
  | fuel + 1, st, ptr, ret =>
    match env.load ptr with
    | none => .fault st
    | some c =>
      if c = 101 then .done (some (ptr + 1), ret) st
      else
        (parseElement env (bListParse env fuel) (bDictParse env fuel) [] id st ptr c).andThen
          fun element st =>
            match element with
            | .skipped => bListLoop env fuel st ptr ret
            | .rejected => .done (none, ret) st
            | .parsed ptr value =>
              let (ret, st) := bListAdd env st value ret
              bListLoop env fuel st ptr ret

def bDictParse (env : Env) : Nat → St → Nat → BDict → Outcome St (Option Nat × BDict)
  | 0, st, _, _ => .timeout st
  | fuel + 1, st, ptr, ret =>
    match env.load ptr with
    | none => .fault st
    | some c => if c ≠ 100 then .done (none, ret) st else bDictLoop env fuel st (ptr + 1) ret

-- After a value that cannot be allocated the loop goes on with the value's text as a key.
def bDictLoop (env : Env) : Nat → St → Nat → BDict → Outcome St (Option Nat × BDict)
  | 0, st, _, _ => .timeout st
  | fuel + 1, st, ptr, ret =>
    match env.load ptr with
    | none => .fault st
    | some c =>
      if c = 101 then .done (some (ptr + 1), ret) st
      else if env.alloc st.mallocs = false then .done (none, ret) (st.malloc env)
      else
        (bStringParse env (st.malloc env) ptr (bStringAlloc st.mallocs)).andThen fun (next, key) st =>
          match next with
          | none => .done (none, ret) (st.free (bStringFree key))
          | some ptr =>
            match env.load ptr with
            | none => .fault st
            | some c =>
              (parseElement env (bListParse env fuel) (bDictParse env fuel) (bStringFree key)
                (fun st => st.print .error "b_dict_parse" 657 (ascii "Error list entry type\n"))
                st ptr c).andThen fun element st =>
                  match element with
                  | .skipped => bDictLoop env fuel (st.free (bStringFree key)) ptr ret
                  | .rejected => .done (none, ret) st
                  | .parsed ptr value =>
                    let (ret, st) := bDictAdd env st value key ret
                    bDictLoop env fuel (st.free (bStringFree key)) ptr ret
end

end BTServer.Bencode
