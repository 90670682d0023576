import BTServer.Bencode.Encoding
import BTServer.Lua.Parser

set_option autoImplicit false

namespace BTServer.Lua

open Bencode CString Outcome

-- The table that represents a tree: lists are indexed from 0, dictionaries by their keys.
mutual
def ofValue : Value → LuaValue
  | .str data _ => .string data
  | .int n => .number (.int n)
  | .list vs => .table (ofItems 0 vs)
  | .dict es => .table (ofEntries es)

def ofItems (i : Nat) : List Value → Table
  | [] => []
  | v :: vs => (.index i, ofValue v) :: ofItems (i + 1) vs

def ofEntries : List (Bytes × Value) → Table
  | [] => []
  | (key, v) :: es => (.string key, ofValue v) :: ofEntries es
end

-- The keys of a dictionary are distinct, and a double holds every integer.
mutual
def Representable : Value → Prop
  | .str _ _ => True
  | .int n => n.natAbs ≤ 2 ^ 53
  | .list vs => RepresentableItems vs
  | .dict es => RepresentableEntries es

def RepresentableItems : List Value → Prop
  | [] => True
  | v :: vs => Representable v ∧ RepresentableItems vs

def RepresentableEntries : List (Bytes × Value) → Prop
  | [] => True
  | (key, v) :: es => key ∉ es.map Prod.fst ∧ Representable v ∧ RepresentableEntries es
end

/-- A Lua string is no longer than its length can say. -/
def IsString (s : Bytes) : Prop := s.length < 2 ^ 63

theorem IsString.of_append {front back : Bytes} (whole : IsString (front ++ back)) :
    IsString back := by
  simp only [IsString, List.length_append] at whole ⊢
  omega

@[simp] theorem first_cons (c : UInt8) (s : Bytes) : first (c :: s) = [c] := by
  rw [first]
  exact sub_take (c :: s) 1

theorem first_append {s : Bytes} (nonempty : s ≠ []) (rest : Bytes) :
    first (s ++ rest) = first s := by
  cases s with
  | nil => exact absurd rfl nonempty
  | cons c s => simp

section Split

variable {c : UInt8} {front : Bytes} (back : Bytes)

theorem sub_before : sub (front ++ c :: back) 1 ((front.length + 1 : Nat) - 1) = front := by
  rw [Int.natCast_add, Int.natCast_one, Int.add_sub_cancel, sub_take, List.take_left]

theorem sub_behind : sub (front ++ c :: back) ((front.length + 1 : Nat) + 1) (-1) = back := by
  rw [sub_drop, ← List.drop_drop, List.drop_left]
  rfl

theorem parseString_colon (g : Globals) (free : ∀ x ∈ front, x ≠ 58) (n : Nat)
    (number : tonumber front = some (.int n)) (small : (n : Int) < maxInteger) :
    ∃ g', parseString g (front ++ 58 :: back) =
      .done (.string (back.take n), .string (back.drop n)) g' := by
  have next : Number.addOne (.int n) = .int (n + 1) := by
    simp only [maxInteger] at small
    rw [Number.addOne, Int.bmod_eq_of_le (by omega) (by omega)]
  simp only [parseString, find_free free, sub_before, sub_behind, number, next, Number.toInteger]
  simp only [sub_take, sub_drop]
  exact ⟨_, rfl⟩

theorem parseInt_end (g : Globals) (free : ∀ x ∈ front, x ≠ 101) (n : Number)
    (number : tonumber front = some n) :
    ∃ g', parseInt g (105 :: (front ++ 101 :: back)) = .done (.number n, .string back) g' := by
  have tag : ¬ first (105 :: (front ++ 101 :: back)) ≠ ascii "i" := by
    simp [ascii]
  have inside : sub (105 :: (front ++ 101 :: back)) 2 (-1) = front ++ 101 :: back :=
    sub_drop (105 :: (front ++ 101 :: back)) 1
  simp only [parseInt, tag, if_false, inside, find_free free, sub_before, sub_behind, number,
    Option.map_some, Option.getD_some]
  exact ⟨_, rfl⟩

end Split

theorem parseString_enc (g : Globals) (data rest : Bytes) (fits : IsString (encText data ++ rest)) :
    ∃ g', parseString g (encText data ++ rest) = .done (.string data, .string rest) g' := by
  obtain ⟨some, digits, value⟩ := decimal_correct data.length
  have whole : encText data ++ rest = decimal data.length ++ 58 :: (data ++ rest) := by
    simp [encText]
  rw [whole] at fits ⊢
  simp only [IsString, List.length_append, List.length_cons] at fits
  have small : (data.length : Int) < maxInteger := by
    simp only [maxInteger]
    omega
  have number := tonumber_digits _ some digits (by rw [value]; exact Int.le_of_lt small)
  rw [value] at number
  have read := parseString_colon (data ++ rest) g
    (fun x member => ((digits_free _ digits).1 x member).1) data.length number small
  rwa [List.take_left, List.drop_left] at read

theorem tonumber_intText (n : Int) (small : n.natAbs ≤ 2 ^ 53) :
    tonumber (intText n) = some (.int n) := by
  obtain ⟨some, digits, value⟩ := decimal_correct n.natAbs
  have fits : (digitsValue (decimal n.natAbs) : Int) ≤ maxInteger := by
    rw [value]
    simp only [maxInteger]
    omega
  unfold intText
  split
  next negative =>
    rw [tonumber_minus _ some digits fits, value, Int.ofNat_natAbs_of_nonpos (by omega),
      Int.neg_neg]
  next =>
    rw [tonumber_digits _ some digits fits, value, Int.natAbs_of_nonneg (by omega)]

theorem parseInt_enc (g : Globals) (n : Int) (small : n.natAbs ≤ 2 ^ 53) (rest : Bytes) :
    ∃ g', parseInt g (encInt n ++ rest) = .done (.number (.int n), .string rest) g' := by
  have whole : encInt n ++ rest = 105 :: (intText n ++ 101 :: rest) := by
    simp [encInt_eq]
  rw [whole]
  exact parseInt_end rest g (fun x member => (intText_free n x member).1) (.int n)
    (tonumber_intText n small)

theorem encText_first (data : Bytes) : ∃ d, first (encText data) = [d] ∧ isDigit d = true := by
  obtain ⟨some, digits, -⟩ := decimal_correct data.length
  obtain ⟨d, ds, shape⟩ := List.exists_cons_of_ne_nil some
  refine ⟨d, ?_, digits d (by simp [shape])⟩
  rw [encText, shape, List.cons_append, first_cons]

theorem tonumber_digit {d : UInt8} (digit : isDigit d = true) : (tonumber [d]).isSome = true := by
  have bound := isDigit_bounds d digit
  have value : digitsValue [d] = d.toNat - 48 := by simp [digitsValue]
  rw [tonumber_digits [d] (by simp) (by simpa using digit) (by
    rw [value]
    simp only [maxInteger]
    omega)]
  rfl

section Rounds

variable {fuel : Nat} {g g' : Globals} {t : Table} {s rest : Bytes}

theorem parseEnd_closed (here : g.str = .string (101 :: rest)) :
    ∃ g', parseEnd g t = .done (.table t, .string rest) g' := by
  have behind : sub (101 :: rest) 2 (-1) = rest := sub_drop (101 :: rest) 1
  simp only [parseEnd, here, withString, behind]
  exact ⟨_, rfl⟩

theorem parseListLoop_item {i : Nat} {flag : Bytes} {v : LuaValue} (more : flag ≠ ascii "e")
    (inside : flag ≠ []) (here : g.str = .string s)
    (parsed : parseValue (parseList fuel) (parseDict fuel) g flag = .done (some v) g')
    (there : g'.str = .string rest) (moved : s ≠ rest) :
    parseListLoop (fuel + 1) g t i flag =
      parseListLoop fuel g' (setIndex t (.index i) v) (i + 1) (first rest) := by
  rw [parseListLoop, if_neg more, if_neg inside, parsed, done_andThen]
  simp [here, there, LuaValue.equals, moved, withString]

theorem parseDictLoop_entry {flag name text : Bytes} {key v : LuaValue} {g₁ : Globals}
    (more : flag ≠ ascii "e") (here : g.str = .string s)
    (named : parseKey g key flag = .done (.string name) g₁) (value : g₁.str = .string text)
    (inside : first text ≠ [])
    (parsed : parseValue (parseList fuel) (parseDict fuel) g₁ (first text) = .done (some v) g')
    (there : g'.str = .string rest) (moved : s ≠ rest) :
    parseDictLoop (fuel + 1) g key t flag =
      parseDictLoop fuel g' (.string name) (setIndex t (.string name) v) (first rest) := by
  rw [parseDictLoop, if_neg more, named, done_andThen]
  simp [here, there, value, inside, parsed, LuaValue.equals, LuaValue.isNil, moved, withString]

end Rounds

def ValueRead (v : Value) (rest : Bytes) : Prop :=
  ∃ enough, ∀ fuel, enough ≤ fuel → ∀ g, g.str = .string (enc v ++ rest) →
    ∃ g', parseValue (parseList fuel) (parseDict fuel) g (first (enc v)) =
      .done (some (ofValue v)) g' ∧ g'.str = .string rest

def ItemsRead (vs : List Value) (rest : Bytes) : Prop :=
  ∃ enough, ∀ fuel, enough ≤ fuel → ∀ g t i, g.str = .string (encItems vs ++ 101 :: rest) →
    (∀ key ∈ t.map Prod.fst, ∃ j < i, key = .index j) →
    ∃ g', parseListLoop fuel g t i (first (encItems vs ++ 101 :: rest)) =
      .done (.table (t ++ ofItems i vs), .string rest) g'

def EntriesRead (es : List (Bytes × Value)) (rest : Bytes) : Prop :=
  ∃ enough, ∀ fuel, enough ≤ fuel → ∀ g key t, g.str = .string (encEntries es ++ 101 :: rest) →
    (∀ name ∈ es.map Prod.fst, .string name ∉ t.map Prod.fst) →
    ∃ g', parseDictLoop fuel g key t (first (encEntries es ++ 101 :: rest)) =
      .done (.table (t ++ ofEntries es), .string rest) g'

theorem parseList_read {vs : List Value} {rest : Bytes} (read : ItemsRead vs rest) :
    ∃ enough, ∀ fuel, enough ≤ fuel → ∀ g, ∃ g',
      parseList fuel g (enc (.list vs) ++ rest) = .done (ofValue (.list vs), .string rest) g' := by
  obtain ⟨enough, read⟩ := read
  refine ⟨enough + 1, fun fuel large g => ?_⟩
  obtain ⟨fuel, rfl, within⟩ := succ_of_le large
  have whole : enc (.list vs) ++ rest = 108 :: (encItems vs ++ 101 :: rest) := by simp [enc]
  have inside : sub (108 :: (encItems vs ++ 101 :: rest)) 2 (-1) = encItems vs ++ 101 :: rest :=
    sub_drop (108 :: (encItems vs ++ 101 :: rest)) 1
  rw [whole, parseList, if_neg (by simp [ascii]), inside]
  exact read fuel within _ [] 0 rfl (by simp)

theorem parseDict_read {es : List (Bytes × Value)} {rest : Bytes} (read : EntriesRead es rest) :
    ∃ enough, ∀ fuel, enough ≤ fuel → ∀ g, ∃ g',
      parseDict fuel g (enc (.dict es) ++ rest) = .done (ofValue (.dict es), .string rest) g' := by
  obtain ⟨enough, read⟩ := read
  refine ⟨enough + 1, fun fuel large g => ?_⟩
  obtain ⟨fuel, rfl, within⟩ := succ_of_le large
  have whole : enc (.dict es) ++ rest = 100 :: (encEntries es ++ 101 :: rest) := by simp [enc]
  have inside : sub (100 :: (encEntries es ++ 101 :: rest)) 2 (-1) = encEntries es ++ 101 :: rest :=
    sub_drop (100 :: (encEntries es ++ 101 :: rest)) 1
  rw [whole, parseDict, if_neg (by simp [ascii]), inside]
  exact read fuel within _ (.string []) [] rfl (by simp)

theorem itemsRead_cons {v : Value} {vs : List Value} {rest : Bytes}
    (here : ValueRead v (encItems vs ++ 101 :: rest)) (others : ItemsRead vs rest) :
    ItemsRead (v :: vs) rest := by
  obtain ⟨enough, here⟩ := here
  obtain ⟨enough', others⟩ := others
  refine ⟨max enough enough' + 1, fun fuel large g t i str fresh => ?_⟩
  obtain ⟨fuel, rfl, within⟩ := succ_of_le large
  have whole : encItems (v :: vs) ++ 101 :: rest = enc v ++ (encItems vs ++ 101 :: rest) := by
    simp [encItems]
  rw [whole] at str ⊢
  obtain ⟨g', parsed, there⟩ := here fuel (by omega) g str
  obtain ⟨c, text, shape⟩ := List.exists_cons_of_ne_nil (enc_ne_nil v)
  have more : first (enc v) ≠ ascii "e" := by
    have start := noEnd_enc v
    simpa [shape, NoEnd, ascii] using start
  have moved : enc v ++ (encItems vs ++ 101 :: rest) ≠ encItems vs ++ 101 :: rest := by
    simp [enc_ne_nil v]
  have new : Key.index i ∉ t.map Prod.fst := by
    intro member
    obtain ⟨j, less, same⟩ := fresh _ member
    cases same
    exact Nat.lt_irrefl i less
  rw [first_append (enc_ne_nil v), parseListLoop_item more (by simp [shape]) str parsed there moved,
    setIndex_new new]
  obtain ⟨g'', ended⟩ := others fuel (by omega) g' (t ++ [(.index i, ofValue v)]) (i + 1) there (by
    intro key member
    simp only [List.map_append, List.map_cons, List.map_nil, List.mem_append,
      List.mem_singleton] at member
    rcases member with old | rfl
    · obtain ⟨j, less, same⟩ := fresh key old
      exact ⟨j, by omega, same⟩
    · exact ⟨i, by omega, rfl⟩)
  exact ⟨g'', by simpa [ofItems] using ended⟩

theorem entriesRead_cons {key : Bytes} {v : Value} {es : List (Bytes × Value)} {rest : Bytes}
    (distinct : key ∉ es.map Prod.fst)
    (fits : IsString (encText key ++ (enc v ++ (encEntries es ++ 101 :: rest))))
    (here : ValueRead v (encEntries es ++ 101 :: rest)) (others : EntriesRead es rest) :
    EntriesRead ((key, v) :: es) rest := by
  obtain ⟨enough, here⟩ := here
  obtain ⟨enough', others⟩ := others
  refine ⟨max enough enough' + 1, fun fuel large g last t str fresh => ?_⟩
  obtain ⟨fuel, rfl, within⟩ := succ_of_le large
  have whole : encEntries ((key, v) :: es) ++ 101 :: rest =
      encText key ++ (enc v ++ (encEntries es ++ 101 :: rest)) := by
    simp [encEntries]
  rw [whole] at str ⊢
  obtain ⟨d, start, digit⟩ := encText_first key
  have flag : first (encText key ++ (enc v ++ (encEntries es ++ 101 :: rest))) = [d] := by
    rw [first_append (by simp [encText]), start]
  obtain ⟨g₀, read⟩ := parseString_enc g key _ fits
  have named : parseKey g last [d] = .done (.string key)
      { g₀ with str := .string (enc v ++ (encEntries es ++ 101 :: rest)) } := by
    rw [parseKey, if_pos (tonumber_digit digit), str, withString, read]
    rfl
  obtain ⟨g', parsed, there⟩ := here fuel (by omega)
    { g₀ with str := .string (enc v ++ (encEntries es ++ 101 :: rest)) } rfl
  obtain ⟨c, text, shape⟩ := List.exists_cons_of_ne_nil (enc_ne_nil v)
  have more : [d] ≠ ascii "e" := by
    rintro same
    cases same
    exact absurd digit (by decide)
  have moved : encText key ++ (enc v ++ (encEntries es ++ 101 :: rest)) ≠
      encEntries es ++ 101 :: rest := by
    rw [← List.append_assoc, Ne, List.append_left_eq_self]
    simp [enc_ne_nil v]
  rw [← first_append (enc_ne_nil v)] at parsed
  rw [flag, parseDictLoop_entry more str named rfl (by simp [shape]) parsed there moved,
    setIndex_new (fresh key (by simp))]
  obtain ⟨g'', ended⟩ := others fuel (by omega) g' (.string key) (t ++ [(.string key, ofValue v)])
    there (by
      intro name member
      simp only [List.map_append, List.map_cons, List.map_nil, List.mem_append,
        List.mem_singleton, Key.string.injEq, not_or]
      exact ⟨fresh name (by simp [member]), fun same => distinct (same ▸ member)⟩)
  exact ⟨g'', by simpa [ofEntries] using ended⟩

theorem valueRead_str (data : Bytes) (len : Nat) (rest : Bytes)
    (fits : IsString (encText data ++ rest)) : ValueRead (.str data len) rest := by
  refine ⟨0, fun fuel _ g str => ?_⟩
  obtain ⟨g', read⟩ := parseString_enc g data rest fits
  obtain ⟨d, start, digit⟩ := encText_first data
  have other (tag : Bytes) (letters : tag.all (!isDigit ·) = true) : [d] ≠ tag := by
    rintro rfl
    simp [digit] at letters
  refine ⟨{ g' with s := .string data, str := .string rest }, ?_, rfl⟩
  rw [enc] at str ⊢
  rw [start, parseValue, str, withString, if_neg (other (ascii "l") (by decide)),
    if_neg (other (ascii "i") (by decide)), if_neg (other (ascii "d") (by decide)), read,
    done_andThen]
  rfl

theorem valueRead_int (n : Int) (small : n.natAbs ≤ 2 ^ 53) (rest : Bytes) :
    ValueRead (.int n) rest := by
  refine ⟨0, fun fuel _ g str => ?_⟩
  obtain ⟨g', read⟩ := parseInt_enc g n small rest
  refine ⟨{ g' with retI := .number (.int n), str := .string rest }, ?_, rfl⟩
  have start : first (encInt n) = ascii "i" := first_cons 105 _
  rw [enc] at str ⊢
  rw [start, parseValue, str, withString, if_neg (by decide), if_pos rfl, read, done_andThen]
  rfl

theorem valueRead_list {vs : List Value} {rest : Bytes} (read : ItemsRead vs rest) :
    ValueRead (.list vs) rest := by
  obtain ⟨enough, read⟩ := parseList_read read
  refine ⟨enough, fun fuel large g str => ?_⟩
  obtain ⟨g', parsed⟩ := read fuel large g
  refine ⟨{ g' with l := ofValue (.list vs), str := .string rest }, ?_, rfl⟩
  have start : first (enc (.list vs)) = ascii "l" := first_cons 108 _
  rw [start, parseValue, str, withString, if_pos rfl, parsed, done_andThen]
  rfl

theorem valueRead_dict {es : List (Bytes × Value)} {rest : Bytes} (read : EntriesRead es rest) :
    ValueRead (.dict es) rest := by
  obtain ⟨enough, read⟩ := parseDict_read read
  refine ⟨enough, fun fuel large g str => ?_⟩
  obtain ⟨g', parsed⟩ := read fuel large g
  refine ⟨{ g' with d := ofValue (.dict es), str := .string rest }, ?_, rfl⟩
  have start : first (enc (.dict es)) = ascii "d" := first_cons 100 _
  rw [start, parseValue, str, withString, if_neg (by decide), if_neg (by decide), if_pos rfl, parsed,
    done_andThen]
  rfl

mutual
theorem valueRead (v : Value) (ok : Representable v) (rest : Bytes)
    (fits : IsString (enc v ++ rest)) : ValueRead v rest := by
  match v with
  | .str data len => exact valueRead_str data len rest fits
  | .int n =>
    simp only [Representable] at ok
    exact valueRead_int n ok rest
  | .list vs =>
    simp only [Representable] at ok
    have whole : enc (.list vs) ++ rest = [108] ++ (encItems vs ++ 101 :: rest) := by simp [enc]
    rw [whole] at fits
    exact valueRead_list (itemsRead vs ok rest fits.of_append)
  | .dict es =>
    simp only [Representable] at ok
    have whole : enc (.dict es) ++ rest = [100] ++ (encEntries es ++ 101 :: rest) := by simp [enc]
    rw [whole] at fits
    exact valueRead_dict (entriesRead es ok rest fits.of_append)

theorem itemsRead (vs : List Value) (ok : RepresentableItems vs) (rest : Bytes)
    (fits : IsString (encItems vs ++ 101 :: rest)) : ItemsRead vs rest := by
  match vs with
  | [] =>
    refine ⟨1, fun fuel large g t i str _ => ?_⟩
    obtain ⟨fuel, rfl, -⟩ := succ_of_le large
    rw [encItems, List.nil_append] at str ⊢
    rw [first_cons, parseListLoop, if_pos (by decide), ofItems, List.append_nil]
    exact parseEnd_closed str
  | v :: vs =>
    simp only [RepresentableItems] at ok
    have whole : encItems (v :: vs) ++ 101 :: rest = enc v ++ (encItems vs ++ 101 :: rest) := by
      simp [encItems]
    rw [whole] at fits
    exact itemsRead_cons (valueRead v ok.1 _ fits) (itemsRead vs ok.2 rest fits.of_append)

theorem entriesRead (es : List (Bytes × Value)) (ok : RepresentableEntries es) (rest : Bytes)
    (fits : IsString (encEntries es ++ 101 :: rest)) : EntriesRead es rest := by
  match es with
  | [] =>
    refine ⟨1, fun fuel large g key t str _ => ?_⟩
    obtain ⟨fuel, rfl, -⟩ := succ_of_le large
    rw [encEntries, List.nil_append] at str ⊢
    rw [first_cons, parseDictLoop, if_pos (by decide), ofEntries, List.append_nil]
    exact parseEnd_closed str
  | (key, v) :: es =>
    simp only [RepresentableEntries] at ok
    have whole : encEntries ((key, v) :: es) ++ 101 :: rest =
        encText key ++ (enc v ++ (encEntries es ++ 101 :: rest)) := by
      simp [encEntries]
    rw [whole] at fits
    exact entriesRead_cons ok.1 fits (valueRead v ok.2.1 _ fits.of_append)
      (entriesRead es ok.2.2 rest fits.of_append.of_append)
end

theorem lua_round_trip (g : Globals) (rest : Bytes) :
    (∀ es, Representable (.dict es) → IsString (enc (.dict es) ++ rest) →
      ∃ enough, ∀ fuel, enough ≤ fuel → ∃ g',
        parseDict fuel g (enc (.dict es) ++ rest) = .done (ofValue (.dict es), .string rest) g') ∧
    (∀ vs, Representable (.list vs) → IsString (enc (.list vs) ++ rest) →
      ∃ enough, ∀ fuel, enough ≤ fuel → ∃ g',
        parseList fuel g (enc (.list vs) ++ rest) =
          .done (ofValue (.list vs), .string rest) g') := by
  constructor
  · intro es ok fits
    simp only [Representable] at ok
    have whole : enc (.dict es) ++ rest = [100] ++ (encEntries es ++ 101 :: rest) := by simp [enc]
    rw [whole] at fits
    obtain ⟨enough, read⟩ := parseDict_read (entriesRead es ok rest fits.of_append)
    exact ⟨enough, fun fuel large => read fuel large g⟩
  · intro vs ok fits
    simp only [Representable] at ok
    have whole : enc (.list vs) ++ rest = [108] ++ (encItems vs ++ 101 :: rest) := by simp [enc]
    rw [whole] at fits
    obtain ⟨enough, read⟩ := parseList_read (itemsRead vs ok rest fits.of_append)
    exact ⟨enough, fun fuel large => read fuel large g⟩

theorem lua_round_trip_nested :
    ∃ enough, ∀ fuel, enough ≤ fuel → ∃ g',
      parseDict fuel ⟨.nil, .nil, .nil, .nil, .string (ascii "l"), .nil, .nil, .string (ascii "e"),
        .table [], .nil, .nil, .nil⟩ (ascii "d1:ali-7e2:e:dee1:bd0:i9eee!") =
        .done (.table [(.string (ascii "a"), .table [(.index 0, .number (.int (-7))),
          (.index 1, .string (ascii "e:")), (.index 2, .table [])]), (.string (ascii "b"),
            .table [(.string [], .number (.int 9))])], .string (ascii "!")) g' := by
  have tripped := (lua_round_trip ⟨.nil, .nil, .nil, .nil, .string (ascii "l"), .nil, .nil,
    .string (ascii "e"), .table [], .nil, .nil, .nil⟩ (ascii "!")).1
    [(ascii "a", .list [.int (-7), .str (ascii "e:") 2, .dict []]),
      (ascii "b", .dict [([], .int 9)])]
    (by simp [Representable, RepresentableEntries, RepresentableItems, ascii])
    (by unfold IsString; decide)
  exact tripped

end BTServer.Lua
