import Mathlib.Data.List.Induction
import Mathlib.Data.List.TakeWhile
import Mathlib.Tactic.Common
import Mathlib.Tactic.Ring

set_option autoImplicit false

namespace BTServer.CString

abbrev Bytes := List UInt8

def ascii (s : String) : Bytes := s.toList.map fun c => c.toNat.toUInt8

/-- `strchr` for a character other than the terminator. -/
def strchr (c : UInt8) : Bytes → Option Nat
  | [] => none
  | x :: xs => if x = c then some 0 else if x = 0 then none else (strchr c xs).map (· + 1)

def Free (c : UInt8) (b : Bytes) : Prop := ∀ x ∈ b, x ≠ c ∧ x ≠ 0

theorem strchr_of_free (c : UInt8) (front back : Bytes) (free : Free c front) :
    strchr c (front ++ c :: back) = some front.length := by
  induction front with
  | nil => simp [strchr]
  | cons x front ih =>
    have here := free x (by simp)
    simp [strchr, here, ih fun y member => free y (by simp [member])]

theorem free_split {c : UInt8} {front front' back back' : Bytes} (free : Free c front)
    (free' : Free c front') (same : front ++ c :: back = front' ++ c :: back') :
    front = front' ∧ back = back' := by
  have found := strchr_of_free c front back free
  rw [same, strchr_of_free c front' back' free', Option.some.injEq] at found
  have parts := List.append_inj same found.symm
  simpa using parts

theorem strchr_terminated (c : UInt8) (b : Bytes) (n : Nat) (other : c ≠ 0)
    (found : strchr c (b ++ [0]) = some n) :
    ∃ front back, b = front ++ c :: back ∧ front.length = n ∧ Free c front := by
  induction b generalizing n with
  | nil => simp [strchr, other.symm] at found
  | cons x b ih =>
    by_cases here : x = c
    next =>
      simp only [List.cons_append, strchr, here, if_true, Option.some.injEq] at found
      exact ⟨[], b, by simp [here], by simp [found], by simp [Free]⟩
    next =>
      by_cases terminator : x = 0
      next =>
        subst terminator
        simp [strchr, here] at found
      next =>
        simp only [List.cons_append, strchr, here, terminator, if_false,
          Option.map_eq_some_iff] at found
        obtain ⟨m, later, rfl⟩ := found
        obtain ⟨front, back, rfl, rfl, free⟩ := ih m later
        refine ⟨x :: front, back, rfl, rfl, ?_⟩
        simpa [Free, here, terminator] using free

theorem strchr_absent {c : UInt8} {b : Bytes} (absent : c ∉ b) (other : c ≠ 0) :
    strchr c (b ++ [0]) = none := by
  cases found : strchr c (b ++ [0]) with
  | none => rfl
  | some n =>
    obtain ⟨text, rest, rfl, -, -⟩ := strchr_terminated c b n other found
    simp at absent

def isSpace (c : UInt8) : Bool := c.toNat = 32 || (9 ≤ c.toNat && c.toNat ≤ 13)

def isDigit (c : UInt8) : Bool := 48 ≤ c.toNat && c.toNat ≤ 57

def digitsValue (ds : Bytes) : Nat := ds.foldl (fun n c => n * 10 + (c.toNat - 48)) 0

def longMax : Int := 2 ^ 63 - 1
def longMin : Int := -2 ^ 63

structure Number where
  val : Int
  used : Nat
  range : Bool
  deriving DecidableEq

def clamp (v : Int) (used : Nat) : Number :=
  if v > longMax then ⟨longMax, used, true⟩
  else if v < longMin then ⟨longMin, used, true⟩
  else ⟨v, used, false⟩

/-- `strtol` in base 10 with a 64-bit `long`: the value, the number of characters used and
whether the value was out of range. -/
def strtol (b : Bytes) : Number :=
  let blanks := (b.takeWhile isSpace).length
  match b.dropWhile isSpace with
  | 45 :: rest =>
    let ds := rest.takeWhile isDigit
    if ds = [] then ⟨0, 0, false⟩ else clamp (-digitsValue ds) (blanks + 1 + ds.length)
  | 43 :: rest =>
    let ds := rest.takeWhile isDigit
    if ds = [] then ⟨0, 0, false⟩ else clamp (digitsValue ds) (blanks + 1 + ds.length)
  | rest =>
    let ds := rest.takeWhile isDigit
    if ds = [] then ⟨0, 0, false⟩ else clamp (digitsValue ds) (blanks + ds.length)

theorem clamp_val (v : Int) (used : Nat) (low : longMin ≤ v) (high : v ≤ longMax) :
    clamp v used = ⟨v, used, false⟩ := by
  simp [clamp, Int.not_lt.mpr low, Int.not_lt.mpr high]

theorem clamp_range (v : Int) (used : Nat) (range : (clamp v used).range = true) :
    (clamp v used).val = longMax ∨ (clamp v used).val = longMin := by
  unfold clamp at range ⊢
  split at range
  next high => simp [high]
  next high =>
    split at range
    next low => simp [high, low]
    next => simp at range

theorem strtol_range (b : Bytes) (range : (strtol b).range = true) :
    (strtol b).val = longMax ∨ (strtol b).val = longMin := by
  unfold strtol at range ⊢
  dsimp only at range ⊢
  split at range
  all_goals
    split at range
    next => simp at range
    next digits =>
      rw [if_neg digits]
      exact clamp_range _ _ range

theorem takeWhile_isDigit (ds rest : Bytes) (digits : ∀ d ∈ ds, isDigit d = true)
    (stop : ∀ c, rest.head? = some c → isDigit c = false) :
    (ds ++ rest).takeWhile isDigit = ds := by
  rw [List.takeWhile_append_of_pos digits]
  cases rest with
  | nil => simp
  | cons c rest => simp [stop c rfl]

theorem isDigit_plain (c : UInt8) (digit : isDigit c = true) :
    isSpace c = false ∧ c ≠ 45 ∧ c ≠ 43 ∧ c ≠ 0 := by
  simp only [isDigit, Bool.and_eq_true, decide_eq_true_eq] at digit
  refine ⟨by simp [isSpace]; omega, ?_, ?_, ?_⟩
  all_goals
    rintro rfl
    simp at digit

theorem strtol_unsigned (d : UInt8) (b : Bytes) (digit : isDigit d = true) :
    strtol (d :: b) = clamp (digitsValue ((d :: b).takeWhile isDigit))
      ((d :: b).takeWhile isDigit).length := by
  obtain ⟨space, minus, plus, -⟩ := isDigit_plain d digit
  simp [strtol, space, minus, plus, digit]

theorem strtol_run (ds rest : Bytes) (nonempty : ds ≠ []) (digits : ∀ d ∈ ds, isDigit d = true)
    (stop : ∀ c, rest.head? = some c → isDigit c = false) :
    strtol (ds ++ rest) = clamp (digitsValue ds) ds.length := by
  have run := takeWhile_isDigit ds rest digits stop
  cases ds with
  | nil => exact absurd rfl nonempty
  | cons d ds =>
    rw [List.cons_append, strtol_unsigned d _ (digits d (by simp)), ← List.cons_append, run]

theorem strtol_digits (ds rest : Bytes) (nonempty : ds ≠ [])
    (digits : ∀ d ∈ ds, isDigit d = true)
    (stop : ∀ c, rest.head? = some c → isDigit c = false)
    (small : (digitsValue ds : Int) ≤ longMax) :
    strtol (ds ++ rest) = ⟨digitsValue ds, ds.length, false⟩ := by
  rw [strtol_run ds rest nonempty digits stop]
  exact clamp_val _ _ (by simp [longMin]) small

theorem strtol_minus_digits (ds rest : Bytes) (nonempty : ds ≠ [])
    (digits : ∀ d ∈ ds, isDigit d = true)
    (stop : ∀ c, rest.head? = some c → isDigit c = false)
    (small : (digitsValue ds : Int) ≤ longMax) :
    strtol (45 :: (ds ++ rest)) = ⟨-digitsValue ds, 1 + ds.length, false⟩ := by
  have run := takeWhile_isDigit ds rest digits stop
  have value := clamp_val (-digitsValue ds) (1 + ds.length)
    (by simp only [longMin, longMax] at small ⊢; omega) (by simp only [longMax]; omega)
  have space : isSpace 45 = false := by decide
  simp [strtol, space, run, nonempty, value]

def clip (v : Int) : Int := max longMin (min longMax v)

theorem clamp_clip (v : Int) (used : Nat) : (clamp v used).val = clip v := by
  have order : longMin ≤ longMax := by decide
  unfold clamp clip
  split
  next high => rw [min_eq_left (Int.le_of_lt high), max_eq_right order]
  next high =>
    rw [min_eq_right (Int.not_lt.mp high)]
    split
    next low => rw [max_eq_left (Int.le_of_lt low)]
    next low => rw [max_eq_right (Int.not_lt.mp low)]

-- The number at the front of some bytes: the digits, behind a sign or not.
def leading : Bytes → Int
  | 45 :: b => -digitsValue (b.takeWhile isDigit)
  | b => digitsValue (b.takeWhile isDigit)

theorem leading_unsigned {c : UInt8} (b : Bytes) (minus : c ≠ 45) :
    leading (c :: b) = digitsValue ((c :: b).takeWhile isDigit) := by
  unfold leading
  split
  next same => exact absurd (List.cons.inj same).1 minus
  next => rfl

theorem strtol_leading {c : UInt8} (b : Bytes) (space : isSpace c = false) (plus : c ≠ 43) :
    (strtol (c :: b)).val = clip (leading (c :: b)) := by
  have zero : clip 0 = 0 := by decide
  have blanks : (c :: b).dropWhile isSpace = c :: b := by simp [space]
  by_cases minus : c = 45
  next =>
    subst minus
    simp only [strtol, blanks, leading]
    split
    next none => simp [none, digitsValue, zero]
    next => rw [clamp_clip]
  next =>
    rw [leading_unsigned b minus, strtol, blanks]
    dsimp only
    split
    next same => exact absurd (List.cons.inj same).1 minus
    next same => exact absurd (List.cons.inj same).1 plus
    next =>
      split
      next none => simp [none, digitsValue, zero]
      next => rw [clamp_clip]

theorem clamp_le (n : Nat) (used : Nat) : (clamp n used).val ≤ n := by
  have low : longMin ≤ (n : Int) := by simp only [longMin]; omega
  unfold clamp
  split
  next high => exact Int.le_of_lt high
  next => simp [Int.not_lt.mpr low]

theorem digitsValue_append (ds : Bytes) (d : UInt8) :
    digitsValue (ds ++ [d]) = digitsValue ds * 10 + (d.toNat - 48) := by
  simp [digitsValue]

theorem digitsValue_take (ds : Bytes) (n : Nat) : digitsValue (ds.take n) ≤ digitsValue ds := by
  have grows (back front : Bytes) : digitsValue front ≤ digitsValue (front ++ back) := by
    induction back generalizing front with
    | nil => simp
    | cons d back ih =>
      have step := digitsValue_append front d
      have later := ih (front ++ [d])
      rw [List.append_assoc, List.singleton_append] at later
      omega
  calc digitsValue (ds.take n) ≤ digitsValue (ds.take n ++ ds.drop n) := grows _ _
    _ = digitsValue ds := by rw [List.take_append_drop]

def decimal (n : Nat) : Bytes := (Nat.toDigits 10 n).map fun c => c.toNat.toUInt8

theorem decimal_eq (n : Nat) :
    decimal n = (if n < 10 then [] else decimal (n / 10)) ++ [(48 + n % 10).toUInt8] := by
  have digit (d : Nat) (small : d < 10) : (Nat.digitChar d).toNat.toUInt8 = (48 + d).toUInt8 := by
    rw [Nat.toNat_digitChar_of_lt_ten small]
  unfold decimal
  rw [Nat.toDigits_eq_if (by omega)]
  split
  next small => simp [digit n small, Nat.mod_eq_of_lt small]
  next => simp [digit (n % 10) (Nat.mod_lt _ (by omega))]

theorem decimal_correct (n : Nat) :
    decimal n ≠ [] ∧ (∀ d ∈ decimal n, isDigit d = true) ∧ digitsValue (decimal n) = n := by
  have last (d : Nat) (small : d < 10) :
      isDigit (48 + d).toUInt8 = true ∧ (48 + d).toUInt8.toNat - 48 = d := by
    have bound : (48 + d) % 256 = 48 + d := Nat.mod_eq_of_lt (by omega)
    simp [isDigit, bound]
    omega
  induction n using Nat.strong_induction_on with
  | _ n ih =>
    obtain ⟨digit, value⟩ := last (n % 10) (Nat.mod_lt _ (by omega))
    rw [decimal_eq]
    by_cases small : n < 10
    next =>
      rw [Nat.mod_eq_of_lt small] at digit value
      rw [if_pos small, Nat.mod_eq_of_lt small, List.nil_append]
      refine ⟨by simp, fun d member => ?_, ?_⟩
      · rw [List.mem_singleton.mp member]
        exact digit
      · simpa only [digitsValue, List.foldl_cons, List.foldl_nil, Nat.zero_mul,
          Nat.zero_add] using value
    next =>
      obtain ⟨-, digits, front⟩ := ih (n / 10) (by omega)
      rw [if_neg small, digitsValue_append, front, value]
      refine ⟨by simp, ?_, by omega⟩
      intro d member
      rcases List.mem_append.mp member with member | member
      · exact digits d member
      · rw [List.mem_singleton.mp member]
        exact digit

theorem decimal_length (n k : Nat) (positive : 0 < k) (bound : n < 10 ^ k) :
    (decimal n).length ≤ k := by
  induction k generalizing n with
  | zero => omega
  | succ k ih =>
    rw [decimal_eq]
    by_cases small : n < 10
    next => simp [small]
    next =>
      have further : 0 < k := by
        rcases k with _ | k
        · simp at bound
          omega
        · omega
      have shorter : n / 10 < 10 ^ k := by
        rw [Nat.pow_succ] at bound
        omega
      have := ih (n / 10) further shorter
      simp only [if_neg small, List.length_append, List.length_singleton]
      omega

theorem digitsValue_lt (ds : Bytes) (digits : ∀ d ∈ ds, isDigit d = true) :
    digitsValue ds < 10 ^ ds.length := by
  induction ds using List.reverseRecOn with
  | nil => simp [digitsValue]
  | append_singleton ds d ih =>
    have front := ih fun x member => digits x (List.mem_append_left _ member)
    have last := digits d (by simp)
    simp only [isDigit, Bool.and_eq_true, decide_eq_true_eq] at last
    rw [digitsValue_append, List.length_append, List.length_singleton, Nat.pow_succ]
    omega

theorem decimal_length_ge (n k : Nat) (large : 10 ^ k ≤ n) : k < (decimal n).length := by
  obtain ⟨-, digits, value⟩ := decimal_correct n
  have bound := digitsValue_lt _ digits
  rw [value] at bound
  exact (Nat.pow_lt_pow_iff_right (by decide)).mp (Nat.lt_of_le_of_lt large bound)

theorem digitsValue_leading (n k : Nat) (large : 10 ^ k ≤ n) :
    10 ^ k ≤ digitsValue ((decimal n).take (k + 1)) := by
  induction n using Nat.strong_induction_on with
  | _ n ih =>
    by_cases small : n < 10 ^ (k + 1)
    next =>
      rw [List.take_of_length_le (decimal_length n (k + 1) (by omega) small),
        (decimal_correct n).2.2]
      exact large
    next =>
      have shorter : 10 ^ k ≤ n / 10 := by
        rw [Nat.pow_succ] at small
        omega
      have positive : 0 < 10 ^ k := Nat.pow_pos (by decide)
      have split : decimal n = decimal (n / 10) ++ [(48 + n % 10).toUInt8] := by
        rw [decimal_eq, if_neg (by rw [Nat.pow_succ] at small; omega)]
      rw [split, List.take_append_of_le_length (decimal_length_ge _ k shorter)]
      exact ih (n / 10) (by omega) shorter

end BTServer.CString
