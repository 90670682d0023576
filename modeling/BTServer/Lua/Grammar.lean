import BTServer.Bencode.WellFormed
import BTServer.Lua.Reading

set_option autoImplicit false

namespace BTServer.Lua

open Bencode CString Outcome

/-- The number that Lua has for an integer: a double where 64 bits are too few. -/
def numberOf (n : Int) : Number :=
  if -maxInteger - 1 ≤ n ∧ n ≤ maxInteger then .int n else .float (.ofRat n)

-- The value that is built from a tree, entry after entry. A key that comes again is overwritten.
mutual
def taken : Value → LuaValue
  | .str data _ => .string data
  | .int n => .number (numberOf n)
  | .list vs => .table (takenItems 0 [] vs)
  | .dict es => .table (takenEntries [] es)

def takenItems (i : Nat) (t : Table) : List Value → Table
  | [] => t
  | v :: vs => takenItems (i + 1) (setIndex t (.index i) (taken v)) vs

def takenEntries (t : Table) : List (Bytes × Value) → Table
  | [] => t
  | (key, v) :: es => takenEntries (setIndex t (.string key) (taken v)) es
end

theorem decimalNumeral_large (negative : Bool) (ds : Bytes) (nonempty : ds ≠ [])
    (digits : ∀ d ∈ ds, isDigit d = true)
    (large : ¬ (digitsValue ds : Int) ≤ maxInteger + (if negative then 1 else 0)) :
    decimalNumeral negative ds =
      some (.float (.ofRat (negateIf negative (digitsValue ds : ℚ)))) := by
  have whole : ds.takeWhile isDigit = ds := List.takeWhile_eq_self_iff.mpr digits
  have none : ds.dropWhile isDigit = [] := List.dropWhile_eq_nil_iff.mpr digits
  rw [decimalNumeral, if_neg (fun all => large all.2.2)]
  simp [whole, none, fraction, nonempty, exponent]

theorem tonumber_denotes {text : Bytes} {n : Int} (number : Denotes text n) :
    tonumber text = some (numberOf n) := by
  cases number with
  | plain digits =>
    rw [tonumber_plain digits.2, numberOf]
    split
    next range => exact decimalNumeral_digits false text digits.1 digits.2 range.2
    next range =>
      have large : ¬ (digitsValue text : Int) ≤ maxInteger := by
        simp only [maxInteger] at range ⊢
        omega
      rw [decimalNumeral_large false text digits.1 digits.2 (by simpa using large)]
      simp [negateIf]
  | @minus ds digits =>
    rw [tonumber_negative digits.2, numberOf]
    have whole : ds.takeWhile isDigit = ds := List.takeWhile_eq_self_iff.mpr digits.2
    by_cases fits : (digitsValue ds : Int) ≤ maxInteger + 1
    next =>
      rw [decimalNumeral, if_pos ⟨digits.1, whole, by simpa using fits⟩, if_pos (by
        simp only [maxInteger] at fits ⊢
        omega)]
      rfl
    next =>
      rw [decimalNumeral_large true ds digits.1 digits.2 (by simpa using fits), if_neg (by
        simp only [maxInteger] at fits ⊢
        omega)]
      simp [negateIf]

theorem IsString.of_le {s s' : Bytes} (whole : IsString s) (short : s'.length ≤ s.length) :
    IsString s' := Nat.lt_of_le_of_lt short whole

/-- The texts that the grammar has: plain digits for a length that is there, a key in every entry
and an integer in plain digits. -/
def plain : TextRules where
  length text back := Digits text ∧ digitsValue text ≤ back.length
  keyless := False
  int text := ∃ n, Denotes text n

theorem stringTaken_digits {text back : Bytes} (digits : Digits text)
    (small : (digitsValue text : Int) < maxInteger) :
    StringTaken (text ++ 58 :: back) text back (back.take (digitsValue text))
      (back.drop (digitsValue text)) := by
  have next : Number.addOne (.int (digitsValue text)) = .int (digitsValue text + 1) := by
    simp only [maxInteger] at small
    rw [Number.addOne, Int.bmod_eq_of_le (by omega) (by omega)]
  have number := tonumber_digits text digits.1 digits.2 (Int.le_of_lt small)
  refine ⟨rfl, fun x member => ((digits_free text digits.2).1 x member).1, _, _, _, number, rfl,
    by rw [next]; rfl, (sub_take _ _).symm, (sub_drop _ _).symm⟩

theorem digits_first {text : Bytes} (digits : Digits text) (rest : Bytes) :
    ∃ d, first (text ++ rest) = [d] ∧ isDigit d = true := by
  obtain ⟨d, ds, rfl⟩ := List.exists_cons_of_ne_nil digits.1
  exact ⟨d, by simp, digits.2 d (by simp)⟩

theorem digit_tag {d : UInt8} (digit : isDigit d = true) :
    [d] ∉ [ascii "l", ascii "i", ascii "d"] := by
  intro member
  have letters (tag : Bytes) (inside : tag ∈ [ascii "l", ascii "i", ascii "d"]) :
      tag.all (!isDigit ·) = true := by
    revert tag
    decide
  have none := letters [d] member
  simp [digit] at none

theorem digit_not_end {d : UInt8} (digit : isDigit d = true) : [d] ≠ ascii "e" := by
  intro closes
  cases closes
  exact absurd digit (by decide)

theorem takes_text {text data rest : Bytes} (digits : Digits text)
    (length : digitsValue text = data.length) (fits : IsString (text ++ 58 :: data ++ rest)) :
    StringTaken (text ++ 58 :: data ++ rest) text (data ++ rest) data rest ∧
      plain.length text (data ++ rest) := by
  simp only [IsString, List.length_append, List.length_cons] at fits
  have small : (digitsValue text : Int) < maxInteger := by
    simp only [maxInteger]
    omega
  have taken := @stringTaken_digits text (data ++ rest) digits small
  rw [length, List.take_left, List.drop_left] at taken
  exact ⟨by simpa using taken, digits, by simp [length]⟩

def Read (w rest : Bytes) : Content → Prop
  | .value v => IsString (w ++ rest) → Takes plain (w ++ rest) (.value (taken v)) rest
  | .items vs => IsString (w ++ 101 :: rest) → ∀ i t,
      Takes plain (w ++ 101 :: rest) (.items i t (takenItems i t vs)) rest
  | .entries es => IsString (w ++ 101 :: rest) → ∀ key t,
      Takes plain (w ++ 101 :: rest) (.entries key t (takenEntries t es)) rest

theorem wellFormed_first {w : Bytes} {v : Value} (formed : WellFormed w (.value v)) (rest : Bytes) :
    first (w ++ rest) ≠ ascii "e" := by
  intro closes
  obtain ⟨t, same⟩ : ∃ t, w ++ rest = 101 :: t := first_eq closes
  exact wellFormed_ne_end formed rest t same

theorem wellFormed_read {w : Bytes} {content : Content} (formed : WellFormed w content)
    (rest : Bytes) : Read w rest content := by
  induction formed generalizing rest with
  | @str text data digits length =>
    intro fits
    obtain ⟨read, ok⟩ := takes_text digits length fits
    refine .str ?_ read ok
    obtain ⟨d, start, digit⟩ := digits_first digits (58 :: (data ++ rest))
    rw [show text ++ 58 :: data ++ rest = text ++ 58 :: (data ++ rest) by simp, start]
    exact digit_tag digit
  | @int text n number =>
    intro fits
    have free : ∀ x ∈ text, x ≠ 101 := fun x member => (denotes_free number x member).1
    rw [taken]
    exact .int ⟨by simp, free, tonumber_denotes number⟩ ⟨n, number⟩
  | @list w vs inside ih =>
    intro fits
    rw [show 108 :: (w ++ [101]) ++ rest = 108 :: (w ++ 101 :: rest) by simp] at fits ⊢
    rw [taken]
    exact .list (ih rest (@IsString.of_append [108] _ fits) 0 [])
  | @dict w es inside ih =>
    intro fits
    rw [show 100 :: (w ++ [101]) ++ rest = 100 :: (w ++ 101 :: rest) by simp] at fits ⊢
    rw [taken]
    exact .dict (ih rest (@IsString.of_append [100] _ fits) [] [])
  | nil =>
    intro fits i t
    rw [takenItems]
    exact .nil
  | @cons w ws v vs first later ih ih' =>
    intro fits i t
    rw [List.append_assoc] at fits ⊢
    rw [takenItems]
    exact .cons (wellFormed_first first _) (ih _ fits) (ih' rest fits.of_append _ _)
  | done =>
    intro fits key t
    rw [takenEntries]
    exact .done
  | @entry text name w ws v es digits length first later ih ih' =>
    intro fits key t
    rw [List.append_assoc, List.append_assoc] at fits ⊢
    rw [takenEntries]
    obtain ⟨read, ok⟩ := takes_text digits length fits
    obtain ⟨d, start, digit⟩ := digits_first digits (58 :: (name ++ (w ++ (ws ++ 101 :: rest))))
    refine .entry ?_ read ok (ih _ fits.of_append) (ih' rest fits.of_append.of_append _ _)
    rw [show text ++ 58 :: name ++ (w ++ (ws ++ 101 :: rest)) =
      text ++ 58 :: (name ++ (w ++ (ws ++ 101 :: rest))) by simp, start]
    exact tonumber_digit digit

end BTServer.Lua
