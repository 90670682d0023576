import BTServer.Lua.Value
import BTServer.Shared.Outcome

set_option autoImplicit false

namespace BTServer.Lua

open CString Outcome

-- The variables that the functions assign without `local`. Those of one name in two functions are
-- one variable.
structure Globals where
  dNum : LuaValue
  len : LuaValue
  targetStr : LuaValue
  nextStr : LuaValue
  flag : LuaValue
  endNum : LuaValue
  i : LuaValue
  str : LuaValue
  l : LuaValue
  retI : LuaValue
  d : LuaValue
  s : LuaValue

-- An argument that has to be a string. A call with another one ends in an error, which is a fault
-- of the run; a number would be converted, but none is ever assigned to `str` or `key`.
def withString {α : Type} (v : LuaValue) (g : Globals) (f : Bytes → Outcome Globals α) :
    Outcome Globals α :=
  match v with
  | .string s => f s
  | _ => .fault g

def first (s : Bytes) : Bytes := sub s 1 1

/-- `string.sub` with a number that has no integer value is an error. -/
def parseString (g : Globals) (str : Bytes) : Outcome Globals (LuaValue × LuaValue) :=
  match find str 58 with
  | none => .done (.nil, .string str) { g with dNum := .nil }
  | some dNum =>
    let g := { g with dNum := .number (.int dNum) }
    match tonumber (sub str 1 (dNum - 1)) with
    | none => .done (.nil, .string str) { g with len := .nil }
    | some len =>
      let g := { g with len := .number len }
      let str := sub str (dNum + 1) (-1)
      match len.toInteger, len.addOne.toInteger with
      | some stop, some start =>
        let targetStr := .string (sub str 1 stop)
        let nextStr := .string (sub str start (-1))
        .done (targetStr, nextStr) { g with targetStr, nextStr }
      | some stop, none => .fault { g with targetStr := .string (sub str 1 stop) }
      | none, _ => .fault g

def parseInt (g : Globals) (str : Bytes) : Outcome Globals (LuaValue × LuaValue) :=
  let g := { g with flag := .string (first str) }
  if first str ≠ ascii "i" then .done (.nil, .string str) g
  else
    let str := sub str 2 (-1)
    match find str 101 with
    | none => .done (.nil, .string str) { g with endNum := .nil }
    | some endNum =>
      let i := ((tonumber (sub str 1 (endNum - 1))).map LuaValue.number).getD .nil
      let nextStr := .string (sub str (endNum + 1) (-1))
      .done (i, nextStr) { g with endNum := .number (.int endNum), i, nextStr }

-- The value of an item or an entry, by its first character. There is none if the caller returns
-- `nil, nil` at once. Both callers have this text, with `list[i]` or `dict[key]` for the value.
def parseValue (list dict : Globals → Bytes → Outcome Globals (LuaValue × LuaValue)) (g : Globals)
    (flag : Bytes) : Outcome Globals (Option LuaValue) :=
  let checked (v : LuaValue) (g : Globals) : Outcome Globals (Option LuaValue) :=
    if v.isNil || g.str.isNil then .done none g else .done (some v) g
  withString g.str g fun str =>
    if flag = ascii "l" then
      (list g str).andThen fun (l, str) g => checked l { g with l, str }
    else if flag = ascii "i" then
      (parseInt g str).andThen fun (retI, str) g => checked retI { g with retI, str }
    else if flag = ascii "d" then
      (dict g str).andThen fun (d, str) g => checked d { g with d, str }
    else
      (parseString g str).andThen fun (s, str) g => checked s { g with s, str }

/-- What follows the loops: the closing letter is dropped. -/
def parseEnd (g : Globals) (t : Table) : Outcome Globals (LuaValue × LuaValue) :=
  withString g.str g fun str =>
    let str := .string (sub str 2 (-1))
    .done (.table t, str) { g with str }

/-- The key of an entry. The key of the last entry is kept if the text does not start with a
digit. -/
def parseKey (g : Globals) (key : LuaValue) (flag : Bytes) : Outcome Globals LuaValue :=
  if (tonumber flag).isSome then
    withString g.str g fun str =>
      (parseString g str).andThen fun (key, str) g => .done key { g with str }
  else .done key g

mutual
def parseList : Nat → Globals → Bytes → Outcome Globals (LuaValue × LuaValue)
  | 0, g, _ => .timeout g
  | fuel + 1, g, inputStr =>
    if first inputStr ≠ ascii "l" then .done (.nil, .string inputStr) g
    else
      let str := sub inputStr 2 (-1)
      parseListLoop fuel { g with str := .string str } [] 0 (first str)

def parseListLoop : Nat → Globals → Table → Nat → Bytes → Outcome Globals (LuaValue × LuaValue)
  | 0, g, _, _, _ => .timeout g
  | fuel + 1, g, list, i, flag =>
    if flag = ascii "e" then parseEnd g list
    else
      let bakStr := g.str
      if flag = [] then .done (.nil, .nil) g
      else
        (parseValue (parseList fuel) (parseDict fuel) g flag).andThen fun v g =>
          match v with
          | none => .done (.nil, .nil) g
          | some v =>
            if bakStr.equals g.str then .done (.nil, .nil) g
            else withString g.str g fun str =>
              parseListLoop fuel g (setIndex list (.index i) v) (i + 1) (first str)

def parseDict : Nat → Globals → Bytes → Outcome Globals (LuaValue × LuaValue)
  | 0, g, _ => .timeout g
  | fuel + 1, g, inputStr =>
    if first inputStr ≠ ascii "d" then .done (.nil, .string inputStr) g
    else
      let str := sub inputStr 2 (-1)
      parseDictLoop fuel { g with str := .string str } (.string []) [] (first str)

def parseDictLoop : Nat → Globals → LuaValue → Table → Bytes →
    Outcome Globals (LuaValue × LuaValue)
  | 0, g, _, _, _ => .timeout g
  | fuel + 1, g, key, dict, flag =>
    if flag = ascii "e" then parseEnd g dict
    else
      let bakStr := g.str
      (parseKey g key flag).andThen fun key g =>
        if key.isNil || g.str.isNil then .done (.nil, .nil) g
        else withString g.str g fun str =>
          let flag := first str
          if flag = [] then .done (.nil, .nil) g
          else
            (parseValue (parseList fuel) (parseDict fuel) g flag).andThen fun v g =>
              match v with
              | none => .done (.nil, .nil) g
              | some v =>
                if bakStr.equals g.str then .done (.nil, .nil) g
                else withString key g fun name => withString g.str g fun str =>
                  parseDictLoop fuel g key (setIndex dict (.string name) v) (first str)
end

end BTServer.Lua
