import BTServer.Shared.CString
import Mathlib.Data.Int.Log
import Mathlib.Data.Rat.Floor

set_option autoImplicit false

-- Values of Lua 5.3 and the functions of its library that the scripts call.
namespace BTServer.Lua

open CString

-- An IEEE double. The two zeros are not told apart.
inductive Double where
  | finite (q : ℚ)
  | infinity (negative : Bool)
  deriving DecidableEq

def roundHalfEven (q : ℚ) : Int :=
  if q - ⌊q⌋ < 1 / 2 ∨ (q - ⌊q⌋ = 1 / 2 ∧ ⌊q⌋ % 2 = 0) then ⌊q⌋ else ⌊q⌋ + 1

def Double.ofRat (q : ℚ) : Double :=
  let unit : ℚ := 2 ^ max (Int.log 2 |q| - 52) (-1074)
  let rounded := roundHalfEven (q / unit) * unit
  if |rounded| < 2 ^ 1024 then .finite rounded else .infinity (q < 0)

inductive Number where
  | int (n : Int)
  | float (x : Double)
  deriving DecidableEq

def maxInteger : Int := 2 ^ 63 - 1

/-- Integers wrap around. -/
def Number.addOne : Number → Number
  | .int n => .int (Int.bmod (n + 1) (2 ^ 64))
  | .float (.finite q) => .float (.ofRat (q + 1))
  | .float (.infinity negative) => .float (.infinity negative)

def Number.toInteger : Number → Option Int
  | .int n => some n
  | .float (.finite q) =>
    if q.den = 1 ∧ -maxInteger - 1 ≤ q.num ∧ q.num ≤ maxInteger then some q.num else none
  | .float (.infinity _) => none

section Numeral

def strip (s : Bytes) : Bytes := ((s.dropWhile isSpace).reverse.dropWhile isSpace).reverse

def sign : Bytes → Bool × Bytes
  | 45 :: s => (true, s)
  | 43 :: s => (false, s)
  | s => (false, s)

def negateIf {α : Type} [Neg α] (negative : Bool) (x : α) : α := if negative then -x else x

def hexDigit (c : UInt8) : Option Nat :=
  if isDigit c then some (c.toNat - 48)
  else if 97 ≤ c ∧ c ≤ 102 then some (c.toNat - 87)
  else if 65 ≤ c ∧ c ≤ 70 then some (c.toNat - 55)
  else none

def hexValue (s : Bytes) : Nat := s.foldl (fun n c => n * 16 + (hexDigit c).getD 0) 0

/-- The exponent behind a fraction, marked by a letter of either case. -/
def exponent (mark : UInt8) : Bytes → Option Int
  | [] => some 0
  | c :: s =>
    let (negative, digits) := sign s
    if (c = mark ∨ c = mark - 32) ∧ digits ≠ [] ∧ digits.all isDigit then
      some (negateIf negative (digitsValue digits : Int))
    else none

def fraction (digit : UInt8 → Bool) : Bytes → Bytes × Bytes
  | 46 :: s => (s.takeWhile digit, s.dropWhile digit)
  | s => ([], s)

def decimalNumeral (negative : Bool) (s : Bytes) : Option Number :=
  let whole := s.takeWhile isDigit
  if s ≠ [] ∧ whole = s ∧ (digitsValue s : Int) ≤ maxInteger + (if negative then 1 else 0) then
    some (.int (negateIf negative (digitsValue s : Int)))
  else
    let (part, s) := fraction isDigit (s.dropWhile isDigit)
    if whole ++ part = [] then none
    else (exponent 101 s).map fun e => .float (.ofRat (negateIf negative
      (digitsValue (whole ++ part) * (10 : ℚ) ^ (e - part.length : Int))))

/-- The digits behind `0x`. An integer wraps around. -/
def hexNumeral (negative : Bool) (s : Bytes) : Option Number :=
  let isHex := fun c => (hexDigit c).isSome
  let whole := s.takeWhile isHex
  if s ≠ [] ∧ whole = s then
    some (.int (Int.bmod (negateIf negative (hexValue s : Int)) (2 ^ 64)))
  else
    let (part, s) := fraction isHex (s.dropWhile isHex)
    if whole ++ part = [] then none
    else (exponent 112 s).map fun e => .float (.ofRat (negateIf negative
      (hexValue (whole ++ part) * (2 : ℚ) ^ (e - 4 * part.length : Int))))

def tonumber (s : Bytes) : Option Number :=
  let (negative, s) := sign (strip s)
  match s with
  | 48 :: 120 :: digits | 48 :: 88 :: digits => hexNumeral negative digits
  | _ => decimalNumeral negative s

theorem strip_plain {s : Bytes} (plain : ∀ c ∈ s, isSpace c = false) : strip s = s := by
  have whole (s : Bytes) (plain : ∀ c ∈ s, isSpace c = false) : s.dropWhile isSpace = s := by
    cases s with
    | nil => rfl
    | cons c s => rw [List.dropWhile_cons_of_neg (by simp [plain c])]
  rw [strip, whole s plain, whole s.reverse (by simpa using plain), List.reverse_reverse]

theorem decimalNumeral_digits (negative : Bool) (ds : Bytes) (nonempty : ds ≠ [])
    (digits : ∀ d ∈ ds, isDigit d = true) (small : (digitsValue ds : Int) ≤ maxInteger) :
    decimalNumeral negative ds = some (.int (negateIf negative (digitsValue ds : Int))) := by
  have whole : ds.takeWhile isDigit = ds := List.takeWhile_eq_self_iff.mpr digits
  have fits : (digitsValue ds : Int) ≤ maxInteger + (if negative then 1 else 0) := by
    split <;> omega
  rw [decimalNumeral, if_pos ⟨nonempty, whole, fits⟩]

theorem tonumber_signed {s ds : Bytes} {negative : Bool} (plain : ∀ c ∈ s, isSpace c = false)
    (signed : sign s = (negative, ds)) (digits : ∀ d ∈ ds, isDigit d = true) :
    tonumber s = decimalNumeral negative ds := by
  rw [tonumber, strip_plain plain, signed]
  dsimp only
  split
  next rest => exact absurd (digits 120 (by simp)) (by decide)
  next rest => exact absurd (digits 88 (by simp)) (by decide)
  next => rfl

theorem sign_digits {ds : Bytes} (digits : ∀ d ∈ ds, isDigit d = true) :
    sign ds = (false, ds) := by
  unfold sign
  split
  next s => exact absurd (digits 45 (by simp)) (by decide)
  next s => exact absurd (digits 43 (by simp)) (by decide)
  next => rfl

theorem tonumber_plain {ds : Bytes} (digits : ∀ d ∈ ds, isDigit d = true) :
    tonumber ds = decimalNumeral false ds :=
  tonumber_signed (fun d member => (isDigit_plain d (digits d member)).1) (sign_digits digits) digits

theorem tonumber_negative {ds : Bytes} (digits : ∀ d ∈ ds, isDigit d = true) :
    tonumber (45 :: ds) = decimalNumeral true ds := by
  refine tonumber_signed ?_ rfl digits
  intro c member
  rcases List.mem_cons.mp member with rfl | member
  · decide
  · exact (isDigit_plain c (digits c member)).1

theorem tonumber_digits (ds : Bytes) (nonempty : ds ≠ []) (digits : ∀ d ∈ ds, isDigit d = true)
    (small : (digitsValue ds : Int) ≤ maxInteger) :
    tonumber ds = some (.int (digitsValue ds)) := by
  rw [tonumber_plain digits]
  exact decimalNumeral_digits false ds nonempty digits small

theorem tonumber_minus (ds : Bytes) (nonempty : ds ≠ []) (digits : ∀ d ∈ ds, isDigit d = true)
    (small : (digitsValue ds : Int) ≤ maxInteger) :
    tonumber (45 :: ds) = some (.int (-digitsValue ds)) := by
  rw [tonumber_negative digits]
  exact decimalNumeral_digits true ds nonempty digits small

end Numeral

/-- `string.find` of a single character: positions count from 1. -/
def find (s : Bytes) (c : UInt8) : Option Nat := (s.findIdx? (· == c)).map (· + 1)

def posrelat (pos : Int) (length : Nat) : Int :=
  if 0 ≤ pos then pos else if length < -pos then 0 else length + pos + 1

def sub (s : Bytes) (i j : Int) : Bytes :=
  (s.take (posrelat j s.length).toNat).drop (posrelat i s.length - 1).toNat

theorem sub_take (s : Bytes) (n : Nat) : sub s 1 n = s.take n := by
  have stop : posrelat n s.length = n := if_pos (Int.natCast_nonneg n)
  rw [sub, stop]
  rfl

theorem sub_drop (s : Bytes) (n : Nat) : sub s (n + 1) (-1) = s.drop n := by
  have start : posrelat (n + 1) s.length = n + 1 := if_pos (by omega)
  have stop : posrelat (-1) s.length = s.length := by
    simp only [posrelat]
    split
    next => omega
    next => split <;> omega
  rw [sub, start, stop, Int.add_sub_cancel, Int.toNat_natCast, Int.toNat_natCast,
    List.take_length]

theorem find_free {c : UInt8} {front : Bytes} (free : ∀ x ∈ front, x ≠ c) (back : Bytes) :
    find (front ++ c :: back) c = some (front.length + 1) := by
  have none : front.findIdx? (· == c) = none := by
    simpa [List.findIdx?_eq_none_iff] using free
  simp [find, List.findIdx?_append, none, List.findIdx?_cons]

inductive Key where
  | index (i : Nat)
  | string (s : Bytes)
  deriving DecidableEq

-- A table that nothing else refers to is its contents.
inductive LuaValue where
  | nil
  | number (n : Number)
  | string (s : Bytes)
  | table (entries : List (Key × LuaValue))

abbrev Table := List (Key × LuaValue)

def setIndex (t : Table) (key : Key) (v : LuaValue) : Table :=
  if key ∈ t.map Prod.fst then t.map fun e => if e.1 = key then (key, v) else e
  else t ++ [(key, v)]

theorem setIndex_new {t : Table} {key : Key} (new : key ∉ t.map Prod.fst) (v : LuaValue) :
    setIndex t key v = t ++ [(key, v)] := if_neg new

def LuaValue.isNil : LuaValue → Bool
  | .nil => true
  | _ => false

/-- Tables are equal if they are the same one; none is ever compared. -/
def LuaValue.equals : LuaValue → LuaValue → Bool
  | .nil, .nil => true
  | .number m, .number n => m = n
  | .string s, .string t => s = t
  | _, _ => false

end BTServer.Lua
