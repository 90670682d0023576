import BTServer.Bencode.Complete

set_option autoImplicit false

namespace BTServer.Bencode

open CString Outcome

def encText (data : Bytes) : Bytes := decimal data.length ++ 58 :: data

def encInt (n : Int) : Bytes :=
  105 :: ((if n < 0 then 45 :: decimal n.natAbs else decimal n.natAbs) ++ [101])

mutual
def enc : Value → Bytes
  | .str data _ => encText data
  | .int n => encInt n
  | .list vs => 108 :: (encItems vs ++ [101])
  | .dict es => 100 :: (encEntries es ++ [101])

def encItems : List Value → Bytes
  | [] => []
  | v :: vs => enc v ++ encItems vs

def encEntries : List (Bytes × Value) → Bytes
  | [] => []
  | (key, v) :: es => encText key ++ enc v ++ encEntries es
end

theorem isDigit_bounds (c : UInt8) (digit : isDigit c = true) : 48 ≤ c.toNat ∧ c.toNat ≤ 57 := by
  simpa [isDigit] using digit

theorem digits_free (ds : Bytes) (digits : ∀ d ∈ ds, isDigit d = true) :
    Free 58 ds ∧ Free 101 ds ∧ NoTag ds ∧ NoEnd ds := by
  have other (d : UInt8) (member : d ∈ ds) (c : UInt8)
      (outside : c.toNat < 48 ∨ 57 < c.toNat) : d ≠ c := by
    rintro rfl
    have := isDigit_bounds d (digits d member)
    omega
  refine ⟨fun d member => ⟨other d member 58 (by decide), other d member 0 (by decide)⟩,
    fun d member => ⟨other d member 101 (by decide), other d member 0 (by decide)⟩,
    fun d head => ?_, fun head => ?_⟩
  · have member := List.mem_of_mem_head? head
    exact ⟨other d member 108 (by decide), other d member 105 (by decide),
      other d member 100 (by decide)⟩
  · exact other 101 (List.mem_of_mem_head? head) 101 (by decide) rfl

theorem decimal_short (n : Nat) (small : n < 2 ^ 32) : (decimal n).length ≤ 10 :=
  decimal_length n 10 (by decide) (by omega)

theorem replicate_zero_stop (n : Nat) (c : UInt8)
    (head : (List.replicate n (0 : UInt8)).head? = some c) : isDigit c = false := by
  rw [List.eq_of_mem_replicate (List.mem_of_mem_head? head)]
  decide

theorem lengthOf_digits (ds : Bytes) (some : ds ≠ []) (digits : ∀ d ∈ ds, isDigit d = true)
    (short : ds.length ≤ integerLen) (small : (digitsValue ds : Int) ≤ longMax) :
    lengthOf ds = ⟨digitsValue ds, ds.length, false⟩ := by
  rw [lengthOf, List.take_of_length_le short, scratch]
  exact strtol_digits ds _ some digits (replicate_zero_stop _) small

theorem intOf_short (env : Env) (k : Nat) (text : Bytes) (short : text.length < integerLen) :
    ∃ rest, intOf env k text = strtol (text ++ 101 :: rest) := by
  have len : (text.length + 1) % 2 ^ 32 = text.length + 1 :=
    Nat.mod_eq_of_lt (by simp only [integerLen] at short; omega)
  have whole : (text ++ [101]).take (min integerLen (text.length + 1)) = text ++ [101] :=
    List.take_of_length_le (by simp; omega)
  rw [intOf, intArray, len, whole, scratch, List.append_assoc, List.append_assoc]
  exact ⟨_, rfl⟩

theorem letter_stop (rest : Bytes) (c : UInt8) (head : (101 :: rest).head? = some c) :
    isDigit c = false := by
  simp only [List.head?_cons, Option.some.injEq] at head
  rw [← head]
  decide

theorem intOf_digits (env : Env) (k : Nat) (ds : Bytes) (some : ds ≠ [])
    (digits : ∀ d ∈ ds, isDigit d = true) (short : ds.length < integerLen)
    (small : (digitsValue ds : Int) ≤ longMax) :
    intOf env k ds = ⟨digitsValue ds, ds.length, false⟩ := by
  obtain ⟨rest, read⟩ := intOf_short env k ds short
  rw [read]
  exact strtol_digits ds _ some digits (letter_stop rest) small

theorem cutKey_plain (key : Bytes) (free : ∀ c ∈ key, c ≠ 0) (short : key.length ≤ keyLen) :
    cutKey key = key := by
  rw [cutKey, cstr, List.takeWhile_eq_self_iff.mpr (by simpa using free),
    List.take_of_length_le short]

def intText (n : Int) : Bytes := if n < 0 then 45 :: decimal n.natAbs else decimal n.natAbs

theorem encInt_eq (n : Int) : encInt n = 105 :: (intText n ++ [101]) := rfl

theorem intText_free (n : Int) : Free 101 (intText n) := by
  have digits := (digits_free _ (decimal_correct n.natAbs).2.1).2.1
  unfold intText
  split
  next =>
    intro c member
    rcases List.mem_cons.mp member with rfl | member
    · decide
    · exact digits c member
  next => exact digits

def Digits (ds : Bytes) : Prop := ds ≠ [] ∧ ∀ d ∈ ds, isDigit d = true

inductive Denotes : Bytes → Int → Prop
  | plain {ds : Bytes} (digits : Digits ds) : Denotes ds (digitsValue ds)
  | minus {ds : Bytes} (digits : Digits ds) : Denotes (45 :: ds) (-digitsValue ds)

theorem digits_decimal (n : Nat) : Digits (decimal n) ∧ digitsValue (decimal n) = n := by
  obtain ⟨some, digits, value⟩ := decimal_correct n
  exact ⟨⟨some, digits⟩, value⟩

theorem denotes_intText (n : Int) : Denotes (intText n) n := by
  obtain ⟨digits, value⟩ := digits_decimal n.natAbs
  unfold intText
  split
  next negative =>
    have number := Denotes.minus digits
    rwa [value, Int.ofNat_natAbs_of_nonpos (Int.le_of_lt negative), Int.neg_neg] at number
  next nonnegative =>
    have number := Denotes.plain digits
    rwa [value, Int.natAbs_of_nonneg (Int.not_lt.mp nonnegative)] at number

theorem denotes_head {text : Bytes} {n : Int} (number : Denotes text n) :
    ∃ c rest, text = c :: rest ∧ isSpace c = false ∧ c ≠ 43 := by
  cases number with
  | plain digits =>
    obtain ⟨d, ds, rfl⟩ := List.exists_cons_of_ne_nil digits.1
    obtain ⟨space, -, plus, -⟩ := isDigit_plain d (digits.2 d List.mem_cons_self)
    exact ⟨d, ds, rfl, space, plus⟩
  | minus digits => exact ⟨45, _, rfl, by decide, by decide⟩

-- The 32 bits that are stored for the text of an integer: those of the number that stands in the
-- array and in the memory behind it.
def storedBits (env : Env) (k : Nat) (text : Bytes) : Int :=
  clip (leading (intArray text ++ env.beyond k)) % 2 ^ 32

theorem intOf_stored (env : Env) (k : Nat) {text : Bytes} {n : Int} (number : Denotes text n) :
    ((toUnsigned (intOf env k text).val).toNat : Int) = storedBits env k text := by
  obtain ⟨c, rest, rfl, space, plus⟩ := denotes_head number
  rw [toUnsigned_low, storedBits, intOf]
  congr 1
  -- The array begins with the text, unless nothing is copied.
  cases copied : min integerLen (((c :: rest).length + 1) % 2 ^ 32) with
  | zero =>
    rw [intArray, copied]
    exact strtol_leading _ (by decide) (by decide)
  | succ m =>
    rw [intArray, copied]
    exact strtol_leading _ space plus

theorem lengthOf_long (n : Nat) (large : longMax < n) :
    ∃ used, lengthOf (decimal n) = ⟨longMax, used, true⟩ := by
  obtain ⟨some, digits, value⟩ := decimal_correct n
  have cut : ∀ d ∈ (decimal n).take integerLen, isDigit d = true :=
    fun d member => digits d (List.mem_of_mem_take member)
  have nonempty : (decimal n).take integerLen ≠ [] := by
    simp [integerLen, some]
  have high : longMax < (digitsValue ((decimal n).take integerLen) : Int) := by
    by_cases short : n < 10 ^ 20
    next =>
      have length : (decimal n).length ≤ integerLen := decimal_length n 20 (by decide) short
      rw [List.take_of_length_le length, value]
      exact large
    next =>
      have leading : 10 ^ 19 ≤ digitsValue ((decimal n).take integerLen) :=
        digitsValue_leading n 19 (by omega)
      simp only [longMax]
      omega
  refine ⟨((decimal n).take integerLen).length, ?_⟩
  rw [lengthOf, scratch, strtol_run _ _ nonempty cut (replicate_zero_stop _), clamp, if_pos high]

-- What the parser makes of a tree that was encoded: lengths and numbers as they are stored, keys
-- as they are cut. There is no result where a length or a number is refused.
def seeText (env : Env) (s : Scan) (data : Bytes) : Option Scan :=
  if strtolFails (s.strtol (lengthOf (decimal data.length))).errno
      (lengthOf (decimal data.length)).val then none
  else some ((s.strtol (lengthOf (decimal data.length))).malloc env)

mutual
def see (env : Env) (s : Scan) : Value → Option (Value × Scan)
  | .str data _ => (seeText env (s.malloc env) data).map fun s => (.str data (data.length % 2 ^ 32), s)
  | .int n =>
    let number := intOf env s.ints (intText n)
    if strtolFails ((s.malloc env).strtol number).errno (toUnsigned number.val).toNat then none
    else some (.int (toUnsigned number.val).toNat, ((s.malloc env).strtol number).nextInt)
  | .list vs => (seeItems env (s.malloc env) vs).map fun (vs, s) => (.list vs, s)
  | .dict es => (seeEntries env (s.malloc env) es).map fun (es, s) => (.dict es, s)

def seeItems (env : Env) (s : Scan) : List Value → Option (List Value × Scan)
  | [] => some ([], s)
  | v :: vs => (see env s v).bind fun (v, s) =>
      (seeItems env (s.malloc env) vs).map fun (vs, s) => (v :: vs, s)

def seeEntries (env : Env) (s : Scan) :
    List (Bytes × Value) → Option (List (Bytes × Value) × Scan)
  | [] => some ([], s)
  | (key, v) :: es => (seeText env (s.malloc env) key).bind fun s => (see env s v).bind fun (v, s) =>
      (seeEntries env (s.malloc env) es).map fun (es, s) => ((cutKey key, v) :: es, s)
end

theorem seeText_read {env : Env} (mallocs : Allocates env) {s s' : Scan} {data : Bytes}
    (seen : seeText env s data = some s') : TextRead env s (decimal data.length) data s' := by
  obtain ⟨some, digits, value⟩ := decimal_correct data.length
  unfold seeText at seen
  split at seen
  next => contradiction
  next passes =>
    obtain rfl := Option.some.inj seen
    refine ⟨(digits_free _ digits).1, ?_, Bool.eq_false_iff.mpr passes, mallocs _, rfl⟩
    by_cases small : (data.length : Int) ≤ longMax
    next =>
      have short := decimal_length data.length 19 (by decide) (by simp only [longMax] at small; omega)
      rw [lengthOf_digits _ some digits (by simp only [integerLen]; omega) (by rwa [value]), value]
    next =>
      obtain ⟨used, number⟩ := lengthOf_long data.length (Int.not_le.mp small)
      exact absurd (by simp [number, strtolFails, Scan.strtol]) passes

theorem noEnd_encText (data : Bytes) (rest : Bytes) : NoEnd (decimal data.length ++ rest) :=
  noEnd_extend (decimal_correct _).1 (digits_free _ (decimal_correct data.length).2.1).2.2.2 _

theorem enc_ne_nil (v : Value) : enc v ≠ [] := by
  cases v <;> simp [enc, encText, encInt]

theorem noEnd_enc (v : Value) : NoEnd (enc v) := by
  cases v with
  | str data len => exact noEnd_encText data _
  | int n => simp [enc, encInt, NoEnd]
  | list vs => simp [enc, NoEnd]
  | dict es => simp [enc, NoEnd]

mutual
theorem see_reads {env : Env} (mallocs : Allocates env) (v : Value) {v' : Value} {s s' : Scan}
    (seen : see env s v = some (v', s')) : Reads env .any s (enc v) (.value v') s' := by
  match v with
  | .str data len =>
    obtain ⟨s₁, read, same⟩ := Option.map_eq_some_iff.mp seen
    cases same
    exact .str (mallocs _) (digits_free _ (decimal_correct data.length).2.1).2.2.1
      (seeText_read mallocs read) trivial
  | .int n =>
    simp only [see] at seen
    split at seen
    next => contradiction
    next passes =>
      cases seen
      rw [enc, encInt_eq]
      exact .int (mallocs _) (intText_free n) (Bool.eq_false_iff.mpr passes) trivial
  | .list vs =>
    obtain ⟨⟨vs', s₁⟩, inside, same⟩ := Option.map_eq_some_iff.mp seen
    cases same
    exact .list (mallocs _) (seeItems_reads mallocs vs inside)
  | .dict es =>
    obtain ⟨⟨es', s₁⟩, inside, same⟩ := Option.map_eq_some_iff.mp seen
    cases same
    exact .dict (mallocs _) (seeEntries_reads mallocs es inside)

theorem seeItems_reads {env : Env} (mallocs : Allocates env) (vs : List Value) {vs' : List Value}
    {s s' : Scan} (seen : seeItems env s vs = some (vs', s')) :
    Reads env .any s (encItems vs) (.items vs') s' := by
  match vs with
  | [] =>
    cases seen
    exact .nil
  | v :: vs =>
    obtain ⟨⟨v', s₁⟩, here, seen⟩ := Option.bind_eq_some_iff.mp seen
    obtain ⟨⟨vs', s₂⟩, others, same⟩ := Option.map_eq_some_iff.mp seen
    cases same
    have reads := Reads.cons (noEnd_enc v) (see_reads mallocs v here)
      (seeItems_reads mallocs vs others)
    rwa [if_pos (mallocs _)] at reads

theorem seeEntries_reads {env : Env} (mallocs : Allocates env) (es : List (Bytes × Value))
    {es' : List (Bytes × Value)} {s s' : Scan} (seen : seeEntries env s es = some (es', s')) :
    Reads env .any s (encEntries es) (.entries es') s' := by
  match es with
  | [] =>
    cases seen
    exact .done
  | (key, v) :: es =>
    obtain ⟨s₁, read, seen⟩ := Option.bind_eq_some_iff.mp seen
    obtain ⟨⟨v', s₂⟩, here, seen⟩ := Option.bind_eq_some_iff.mp seen
    obtain ⟨⟨es', s₃⟩, others, same⟩ := Option.map_eq_some_iff.mp seen
    cases same
    have reads := Reads.entry (digits_free _ (decimal_correct key.length).2.1).2.2.2 (mallocs _)
      (seeText_read mallocs read) trivial trivial (see_reads mallocs v here)
      (seeEntries_reads mallocs es others)
    rwa [if_pos (mallocs _)] at reads
end

end BTServer.Bencode
