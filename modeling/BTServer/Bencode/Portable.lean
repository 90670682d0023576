import BTServer.Bencode.WellFormed

set_option autoImplicit false

namespace BTServer.Bencode

open CString

-- The grammar within the limits of the C program: a length fits the scratch array and an
-- `unsigned int`, an integer fits both with the letter behind it, and a key fits its field.
inductive Portable : Bytes → Content → Prop
  | str {text data : Bytes} (digits : Digits text) (length : digitsValue text = data.length)
      (short : text.length ≤ integerLen) (small : data.length < 2 ^ 32) :
      Portable (text ++ 58 :: data) (.value (.str data data.length))
  | int {text : Bytes} (digits : Digits text) (short : text.length < integerLen)
      (small : digitsValue text < 2 ^ 32) :
      Portable (105 :: (text ++ [101])) (.value (.int (digitsValue text)))
  | list {w : Bytes} {vs : List Value} (inside : Portable w (.items vs)) :
      Portable (108 :: (w ++ [101])) (.value (.list vs))
  | dict {w : Bytes} {es : List (Bytes × Value)} (inside : Portable w (.entries es)) :
      Portable (100 :: (w ++ [101])) (.value (.dict es))
  | nil : Portable [] (.items [])
  | cons {w ws : Bytes} {v : Value} {vs : List Value} (first : Portable w (.value v))
      (rest : Portable ws (.items vs)) : Portable (w ++ ws) (.items (v :: vs))
  | done : Portable [] (.entries [])
  | entry {text key w ws : Bytes} {v : Value} {es : List (Bytes × Value)} (digits : Digits text)
      (length : digitsValue text = key.length) (short : text.length ≤ integerLen)
      (free : ∀ c ∈ key, c ≠ 0) (fits : key.length ≤ keyLen) (first : Portable w (.value v))
      (rest : Portable ws (.entries es)) :
      Portable (text ++ 58 :: key ++ w ++ ws) (.entries ((key, v) :: es))

theorem Portable.wellFormed {w : Bytes} {content : Content} (portable : Portable w content) :
    WellFormed w content := by
  induction portable with
  | str digits length short small => exact .str digits length
  | int digits short small => exact .int (.plain digits)
  | list inside ih => exact .list ih
  | dict inside ih => exact .dict ih
  | nil => exact .nil
  | cons first rest ih ih' => exact .cons ih ih'
  | done => exact .done
  | entry digits length short free fits first rest ih ih' => exact .entry digits length ih ih'

theorem Portable.noEnd {w : Bytes} {v : Value} (portable : Portable w (.value v)) : NoEnd w := by
  intro head
  obtain ⟨t, rfl⟩ := List.head?_eq_some_iff.mp head
  exact wellFormed_ne_end portable.wellFormed [] t (List.append_nil _)

def Content.Parsable : Content → Prop
  | .value v => Bencode.Parsable v
  | .items vs => ParsableItems vs
  | .entries es => ParsableEntries es

theorem Portable.parsable {w : Bytes} {content : Content} (portable : Portable w content) :
    content.Parsable := by
  induction portable with
  | @str text data digits length short small =>
    simp only [Content.Parsable, Bencode.Parsable, longMax]
    omega
  | int digits short small =>
    simp only [Content.Parsable, Bencode.Parsable]
    omega
  | list inside ih => simpa only [Content.Parsable, Bencode.Parsable] using ih
  | dict inside ih => simpa only [Content.Parsable, Bencode.Parsable] using ih
  | nil => simp only [Content.Parsable, ParsableItems]
  | cons first rest ih ih' =>
    simp only [Content.Parsable, ParsableItems]
    exact ⟨ih, ih'⟩
  | done => simp only [Content.Parsable, ParsableEntries]
  | entry digits length short free fits first rest ih ih' =>
    simp only [Content.Parsable, ParsableEntries]
    exact ⟨⟨free, fits⟩, ih, ih'⟩

section Reads

variable {env : Env} (mallocs : Allocates env) {s : Scan} (errno : s.errno = 0)

include mallocs errno

theorem textRead_digits {text data : Bytes} (digits : Digits text)
    (length : digitsValue text = data.length) (short : text.length ≤ integerLen)
    (small : data.length < 2 ^ 32) :
    ∃ s', s'.errno = 0 ∧ TextRead env s text data s' := by
  have number := lengthOf_digits text digits.1 digits.2 short
    (by rw [length]; simp only [longMax]; omega)
  refine ⟨(s.strtol (lengthOf text)).malloc env, ?_, (digits_free text digits.2).1, ?_, ?_,
    mallocs _, rfl⟩
  next =>
    rw [mallocs.malloc_errno]
    simp [Scan.strtol, number, errno]
  next => simp [number, length]
  next => simp [strtolFails, Scan.strtol, number, errno, erange]

theorem reads_int {text : Bytes} (digits : Digits text) (short : text.length < integerLen)
    (small : digitsValue text < 2 ^ 32) :
    ∃ s', s'.errno = 0 ∧
      Reads env .any s (105 :: (text ++ [101])) (.value (.int (digitsValue text))) s' := by
  have number := intOf_digits env s.ints text digits.1 digits.2 short
    (by simp only [longMax]; omega)
  have stored : (toUnsigned (digitsValue text : Int)).toNat = digitsValue text := by
    rw [toUnsigned_natCast, Nat.mod_eq_of_lt small]
  have reads := @Reads.int env .any s text (mallocs _) (digits_free text digits.2).2.1
    (by simp [strtolFails, Scan.strtol, mallocs.malloc_errno, number, errno, erange, stored]) trivial
  rw [number, stored] at reads
  exact ⟨_, by simp [Scan.nextInt, Scan.strtol, mallocs.malloc_errno, errno], reads⟩

end Reads

theorem Portable.reads {env : Env} (mallocs : Allocates env) {w : Bytes} {content : Content}
    (portable : Portable w content) (s : Scan) (errno : s.errno = 0) :
    ∃ s', s'.errno = 0 ∧ Reads env .any s w content s' := by
  induction portable generalizing s with
  | @str text data digits length short small =>
    obtain ⟨s', errno', read⟩ := textRead_digits mallocs ((mallocs.malloc_errno s).trans errno) digits
      length short small
    have reads : Reads env .any s _ _ s' :=
      .str (mallocs _) (digits_free text digits.2).2.2.1 read trivial
    rw [Nat.mod_eq_of_lt small] at reads
    exact ⟨s', errno', reads⟩
  | int digits short small => exact reads_int mallocs errno digits short small
  | list inside ih =>
    obtain ⟨s', errno', reads⟩ := ih (s.malloc env) ((mallocs.malloc_errno s).trans errno)
    exact ⟨s', errno', .list (mallocs _) reads⟩
  | dict inside ih =>
    obtain ⟨s', errno', reads⟩ := ih (s.malloc env) ((mallocs.malloc_errno s).trans errno)
    exact ⟨s', errno', .dict (mallocs _) reads⟩
  | nil => exact ⟨s, errno, .nil⟩
  | cons first rest ih ih' =>
    obtain ⟨s₁, errno₁, here⟩ := ih s errno
    obtain ⟨s₂, errno₂, others⟩ := ih' (s₁.malloc env) ((mallocs.malloc_errno s₁).trans errno₁)
    have reads := Reads.cons first.noEnd here others
    rw [if_pos (mallocs _)] at reads
    exact ⟨s₂, errno₂, reads⟩
  | done => exact ⟨s, errno, .done⟩
  | @entry text key w ws v es digits length short free fits first rest ih ih' =>
    obtain ⟨s₁, errno₁, read⟩ := textRead_digits mallocs ((mallocs.malloc_errno s).trans errno) digits
      length short (by simp only [keyLen] at fits; omega)
    obtain ⟨s₂, errno₂, here⟩ := ih s₁ errno₁
    obtain ⟨s₃, errno₃, others⟩ := ih' (s₂.malloc env) ((mallocs.malloc_errno s₂).trans errno₂)
    have reads := Reads.entry (digits_free text digits.2).2.2.2 (mallocs _) read trivial trivial here
      others
    rw [if_pos (mallocs _), cutKey_plain key free fits] at reads
    exact ⟨s₃, errno₃, reads⟩

end BTServer.Bencode
