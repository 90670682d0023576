import BTServer.Bencode.Grammar

set_option autoImplicit false

namespace BTServer.Bencode

open CString Outcome

theorem toUnsigned_natCast (n : Nat) : (toUnsigned n).toNat = n % 2 ^ 32 := by
  have cast : ((n : Int) % 2 ^ 32).toNat = n % 2 ^ 32 := by omega
  rw [toUnsigned, cast, UInt32.toNat_ofNat']
  omega

theorem toUnsigned_low (v : Int) : ((toUnsigned v).toNat : Int) = v % 2 ^ 32 := by
  rw [toUnsigned, UInt32.toNat_ofNat']
  omega

@[simp] theorem strtolFails_zero (val : Int) : strtolFails 0 val = false := by
  simp [strtolFails, erange]

theorem strtolFails_other {errno val : Int} (zero : val ≠ 0) (max : val ≠ longMax)
    (min : val ≠ longMin) : strtolFails errno val = false := by
  simp [strtolFails, zero, max, min]

theorem toUnsigned_bounds (v : Int) : ((toUnsigned v).toNat : Int) ≠ longMax ∧
    ((toUnsigned v).toNat : Int) ≠ longMin := by
  have bound := (toUnsigned v).toNat_lt
  simp only [longMax, longMin]
  omega

theorem take_min_length (front back : Bytes) (n : Nat) :
    (front ++ back).take (min n front.length) = front.take n := by
  rw [List.take_append_of_le_length (Nat.min_le_right _ _), List.take_eq_take_iff]
  omega

-- What `b_string_parse` does once the colon is found.
theorem bStringParse_eq (env : Env) (st : St) (p : Nat) (text rest : Bytes) (target : BString)
    (here : env.At p (text ++ 58 :: rest)) (free : Free 58 text) :
    bStringParse env st p target =
      if strtolFails (st.toScan.strtol (lengthOf text)).errno (lengthOf text).val then
        .done (none, target) ((st.strtol (lengthOf text)).print .error "b_string_parse" 147
          (ascii "strtol error\n"))
      else if 0 ≤ (lengthOf text).val ∧ (lengthOf text).val.toNat ≤ rest.length + 1 then
        if env.alloc st.mallocs then
          .done (some (p + text.length + 1 + (lengthOf text).val.toNat),
            { target with
              head := some st.mallocs
              data := (rest ++ [0]).take (lengthOf text).val.toNat
              len := toUnsigned (lengthOf text).val }) ((st.strtol (lengthOf text)).malloc env)
        else .crash ((st.strtol (lengthOf text)).malloc env)
      else .fault ((st.strtol (lengthOf text)).malloc env) := by
  have found : strchr 58 (text ++ 58 :: rest ++ [0]) = some text.length := by
    simpa using strchr_of_free 58 text (rest ++ [0]) free
  have number : strtol (scratch (integerLen + 1) ((text ++ 58 :: rest ++ [0]).take
      (min integerLen text.length))) = lengthOf text := by
    rw [lengthOf, List.append_assoc, take_min_length]
  have data : (text ++ 58 :: rest ++ [0]).drop (text.length + 1) = rest ++ [0] := by
    simp [← List.drop_drop]
  have inside (n : Nat) : text.length + 1 + n ≤ (text ++ 58 :: rest ++ [0]).length ↔
      n ≤ rest.length + 1 := by
    simp only [List.length_append, List.length_cons, List.length_nil]
    omega
  simp only [bStringParse, here.rest, found, number, data, inside, reduceCtorEq, if_false]
  rfl

theorem bIntParse_eq (env : Env) (st : St) (p : Nat) (text rest : Bytes) (ret : BInt)
    (here : env.At p (105 :: (text ++ 101 :: rest))) (free : Free 101 text) :
    bIntParse env st p ret =
      if strtolFails (st.toScan.strtol (intOf env st.ints text)).errno
          (toUnsigned (intOf env st.ints text).val).toNat then
        .done (none, { ret with val := toUnsigned (intOf env st.ints text).val })
          ((st.strtol (intOf env st.ints text)).nextInt.print .error "b_int_parse" 224
            (ascii "strtol error\n"))
      else .done (some (p + (105 :: (text ++ [101])).length),
        { ret with val := toUnsigned (intOf env st.ints text).val })
        (st.strtol (intOf env st.ints text)).nextInt := by
  have found : strchr 101 (105 :: (text ++ 101 :: rest) ++ [0]) = some (text.length + 1) := by
    have whole := strchr_of_free 101 (105 :: text) (rest ++ [0])
      (by simpa [Free] using free)
    simpa using whole
  have number : strtol (scratch integerLen (((105 :: (text ++ 101 :: rest) ++ [0]).drop 1).take
      (min integerLen ((text.length + 1) % 2 ^ 32))) ++ env.beyond st.ints) =
        intOf env st.ints text := by
    have short : min integerLen ((text.length + 1) % 2 ^ 32) ≤ (text ++ [101]).length := by
      have := Nat.mod_le (text.length + 1) (2 ^ 32)
      simp only [List.length_append, List.length_singleton]
      omega
    have copied : (105 :: (text ++ 101 :: rest) ++ [0]).drop 1 =
        (text ++ [101]) ++ (rest ++ [0]) := by simp
    rw [intOf, intArray, copied, List.take_append_of_le_length short]
  simp only [bIntParse, here.rest, found, number, reduceCtorEq, if_false, List.length_cons,
    List.length_append, List.length_nil]
  rfl

def Failing (env : Env) : Prop := ∃ k, env.alloc k = false

def Allocates (env : Env) : Prop := ∀ k, env.alloc k = true

theorem Allocates.malloc_errno {env : Env} (mallocs : Allocates env) (s : Scan) :
    (s.malloc env).errno = s.errno := s.malloc_errno (mallocs _)

theorem Allocates.not_failing {env : Env} (mallocs : Allocates env) : ¬ Failing env := by
  rintro ⟨k, failed⟩
  simp [mallocs k] at failed

theorem Env.At.length {env : Env} {p : Nat} {t : Bytes} (here : env.At p t) :
    p + t.length = env.buf.length := by
  have length := congrArg List.length here.2
  simp only [List.length_drop] at length
  have := here.1
  omega

structure TextAt (env : Env) (s s' : Scan) (p : Nat) (t : Bytes) (q : Nat) (target : BString)
    (text data rest : Bytes) : Prop where
  split : t = text ++ 58 :: data ++ rest
  next : q = p + (text ++ 58 :: data).length
  read : TextRead env s text data s'
  stored : target.data = data
  sized : target.len.toNat = data.length % 2 ^ 32

def textPost (env : Env) (st : St) (p : Nat) (t : Bytes) : Post St (Option Nat × BString) where
  done result st' := (∀ q, result.1 = some q →
    (∃ text data rest, TextAt env st.toScan st'.toScan p t q result.2 text data rest) ∨
      (env.buf.length < q ∧ Overrun env .text st.toScan t)) ∧
    (result.1 = none → Refuses env st.toScan t .text)
  fault := Overrun env .text st.toScan t
  crash := Failing env
  timeout := False

theorem bStringParse_sat (env : Env) (st : St) (p : Nat) (t : Bytes) (target : BString)
    (here : env.At p t) : (bStringParse env st p target).Sat (textPost env st p t) := by
  cases found : strchr 58 (t ++ [0]) with
  | none =>
    simp only [bStringParse, here.rest, found]
    exact ⟨by simp, fun _ => .inl found⟩
  | some n =>
    obtain ⟨text, rest, rfl, -, free⟩ := strchr_terminated 58 t n (by decide) found
    rw [bStringParse_eq env st p text rest target here free]
    split
    next fails => exact ⟨by simp, fun _ => .inr ⟨text, rest, rfl, free, fails⟩⟩
    next passes =>
      have passes := Bool.eq_false_iff.mpr passes
      split
      next inside =>
        split
        next bytes =>
          refine ⟨fun q next => ?_, by simp⟩
          obtain rfl := Option.some.inj next
          by_cases short : (lengthOf text).val.toNat ≤ rest.length
          next =>
            refine .inl ⟨text, rest.take (lengthOf text).val.toNat,
              rest.drop (lengthOf text).val.toNat, ?_, ?_, ⟨free, ?_, passes, bytes, rfl⟩, ?_, ?_⟩
            · simp
            · simp only [List.length_append, List.length_cons, List.length_take]
              omega
            · simp only [List.length_take]
              omega
            · simp [List.take_append_of_le_length short]
            · have value : (lengthOf text).val = ((lengthOf text).val.toNat : Int) := by omega
              rw [List.length_take, Nat.min_eq_left short, value, toUnsigned_natCast,
                Int.toNat_natCast]
          next =>
            refine .inr ⟨?_, .text free passes (.inr (by omega)) fun _ => bytes⟩
            have length := here.length
            simp only [List.length_append, List.length_cons] at length
            omega
        next failed => exact ⟨_, by simpa using failed⟩
      next outside => exact .text free passes (by omega) (by omega)

theorem bIntParse_sat (env : Env) (st : St) (p : Nat) (t : Bytes) (ret : BInt)
    (here : env.At p (105 :: t)) (node : env.alloc st.mallocs = true) :
    (bIntParse env (st.malloc env) p ret).Sat
      { done := fun result st' => (∀ q, result.1 = some q → ∃ w rest, 105 :: t = w ++ rest ∧
          w ≠ [] ∧ q = p + w.length ∧
          Reads env .any st.toScan w (.value (BValue.int result.2).erase) st'.toScan) ∧
          (result.1 = none → Refuses env st.toScan (105 :: t) .value)
        fault := False
        crash := False
        timeout := False } := by
  cases found : strchr 101 (105 :: t ++ [0]) with
  | none =>
    simp only [bIntParse, here.rest, found]
    exact ⟨by simp, fun _ => ⟨node, t, rfl, .inl found⟩⟩
  | some n =>
    obtain ⟨front, rest, split, -, free⟩ := strchr_terminated 101 (105 :: t) n (by decide) found
    cases front with
    | nil => simp at split
    | cons c text =>
      obtain ⟨rfl, rfl⟩ : 105 = c ∧ t = text ++ 101 :: rest := by simpa using split
      have free : Free 101 text := fun x member => free x (by simp [member])
      rw [bIntParse_eq env (st.malloc env) p text rest ret here free]
      split
      next fails => exact ⟨by simp, fun _ => ⟨node, _, rfl, .inr ⟨text, rest, rfl, free, fails⟩⟩⟩
      next passes =>
        refine ⟨fun q next => ?_, by simp⟩
        obtain rfl := Option.some.inj next
        refine ⟨105 :: (text ++ [101]), rest, by simp, by simp, rfl, ?_⟩
        exact .int node free (Bool.eq_false_iff.mpr passes) trivial

end BTServer.Bencode
