import BTServer.Bencode.Model

set_option autoImplicit false

namespace BTServer.Bencode

open CString

inductive Value where
  | str (data : Bytes) (len : Nat)
  | int (n : Int)
  | list (items : List Value)
  | dict (entries : List (Bytes × Value))

mutual
def BValue.erase : BValue → Value
  | .string s => .str s.data s.len.toNat
  | .int i => .int i.val.toNat
  | .list ⟨_, entries⟩ => .list (eraseItems entries)
  | .dict ⟨_, entries⟩ => .dict (eraseEntries entries)

def eraseItems : List (LEntry BValue) → List Value
  | [] => []
  | ⟨_, entry⟩ :: rest => entry.erase :: eraseItems rest

def eraseEntries : List (DEntry BValue) → List (Bytes × Value)
  | [] => []
  | ⟨_, key, val⟩ :: rest => eraseVal key val ++ eraseEntries rest

def eraseVal (key : Bytes) : Option BValue → List (Bytes × Value)
  | none => []
  | some v => [(key, v.erase)]
end

theorem eraseItems_append (xs ys : List (LEntry BValue)) :
    eraseItems (xs ++ ys) = eraseItems xs ++ eraseItems ys := by
  induction xs with
  | nil => rfl
  | cons x xs ih => simp [eraseItems, ih]

theorem eraseEntries_append (xs ys : List (DEntry BValue)) :
    eraseEntries (xs ++ ys) = eraseEntries xs ++ eraseEntries ys := by
  induction xs with
  | nil => rfl
  | cons x xs ih => simp [eraseEntries, ih]

def lengthOf (text : Bytes) : Number :=
  strtol (scratch (integerLen + 1) (text.take integerLen))

-- The text between `i` and `e` is copied with the `e`, as far as the array goes. The number of
-- bytes to copy is an `unsigned int`.
def intArray (text : Bytes) : Bytes :=
  scratch integerLen ((text ++ [101]).take (min integerLen ((text.length + 1) % 2 ^ 32)))

def intOf (env : Env) (k : Nat) (text : Bytes) : Number := strtol (intArray text ++ env.beyond k)

/-- A string that `b_string_parse` reads: the text before its colon and its bytes. -/
structure TextRead (env : Env) (s : Scan) (text data : Bytes) (s' : Scan) : Prop where
  free : Free 58 text
  value : (lengthOf text).val = data.length
  passes : strtolFails (s.strtol (lengthOf text)).errno (lengthOf text).val = false
  bytes : env.alloc s.mallocs = true
  after : s' = ((s.strtol (lengthOf text)).malloc env)

inductive Content where
  | value (v : Value)
  | items (vs : List Value)
  | entries (es : List (Bytes × Value))

-- What a grammar may ask of a text beyond what the parser asks.
structure Rules where
  text : Bytes → Bytes → Prop
  key : Bytes → Prop
  int : Nat → Bytes → Prop

def Rules.any : Rules := ⟨fun _ _ => True, fun _ => True, fun _ _ => True⟩

def cutKey (key : Bytes) : Bytes := (cstr key).take keyLen

def NoTag (b : Bytes) : Prop := ∀ c, b.head? = some c → c ≠ 108 ∧ c ≠ 105 ∧ c ≠ 100

def NoEnd (b : Bytes) : Prop := b.head? ≠ some 101

-- The texts that the parser accepts, with the contents it stores. The rules `cons` and `entry`
-- lose a value whose entry cannot be allocated; in `retry` and `drop` it is the value's own node.
inductive Reads (env : Env) (rules : Rules) : Scan → Bytes → Content → Scan → Prop
  | str {s s' : Scan} {text data : Bytes} (node : env.alloc s.mallocs = true)
      (tag : NoTag text) (read : TextRead env (s.malloc env) text data s') (ok : rules.text text data) :
      Reads env rules s (text ++ 58 :: data) (.value (.str data (data.length % 2 ^ 32))) s'
  | int {s : Scan} {text : Bytes} (node : env.alloc s.mallocs = true) (free : Free 101 text)
      (passes : strtolFails ((s.malloc env).strtol (intOf env s.ints text)).errno
        (toUnsigned (intOf env s.ints text).val).toNat = false) (ok : rules.int s.ints text) :
      Reads env rules s (105 :: (text ++ [101]))
        (.value (.int (toUnsigned (intOf env s.ints text).val).toNat))
        ((s.malloc env).strtol (intOf env s.ints text)).nextInt
  | list {s s' : Scan} {w : Bytes} {vs : List Value} (node : env.alloc s.mallocs = true)
      (inside : Reads env rules (s.malloc env) w (.items vs) s') :
      Reads env rules s (108 :: (w ++ [101])) (.value (.list vs)) s'
  | dict {s s' : Scan} {w : Bytes} {es : List (Bytes × Value)} (node : env.alloc s.mallocs = true)
      (inside : Reads env rules (s.malloc env) w (.entries es) s') :
      Reads env rules s (100 :: (w ++ [101])) (.value (.dict es)) s'
  | nil {s : Scan} : Reads env rules s [] (.items []) s
  | cons {s s₁ s₂ : Scan} {w ws : Bytes} {v : Value} {vs : List Value} (start : NoEnd w)
      (first : Reads env rules s w (.value v) s₁)
      (rest : Reads env rules (s₁.malloc env) ws (.items vs) s₂) :
      Reads env rules s (w ++ ws) (.items (if env.alloc s₁.mallocs then v :: vs else vs)) s₂
  | retry {s s' : Scan} {w : Bytes} {vs : List Value} (start : NoEnd w) (more : w ≠ [])
      (node : env.alloc s.mallocs = false) (rest : Reads env rules (s.malloc env) w (.items vs) s') :
      Reads env rules s w (.items vs) s'
  | done {s : Scan} : Reads env rules s [] (.entries []) s
  | entry {s s₁ s₂ s₃ : Scan} {text key w ws : Bytes} {v : Value} {es : List (Bytes × Value)}
      (start : NoEnd text) (node : env.alloc s.mallocs = true)
      (read : TextRead env (s.malloc env) text key s₁) (ok : rules.text text key) (plain : rules.key key)
      (first : Reads env rules s₁ w (.value v) s₂)
      (rest : Reads env rules (s₂.malloc env) ws (.entries es) s₃) :
      Reads env rules s (text ++ 58 :: key ++ w ++ ws)
        (.entries (if env.alloc s₂.mallocs then (cutKey key, v) :: es else es)) s₃
  | drop {s s₁ s₂ : Scan} {text key ws : Bytes} {es : List (Bytes × Value)}
      (start : NoEnd text) (node : env.alloc s.mallocs = true)
      (read : TextRead env (s.malloc env) text key s₁) (failed : env.alloc s₁.mallocs = false)
      (rest : Reads env rules (s₁.malloc env) ws (.entries es) s₂) :
      Reads env rules s (text ++ 58 :: key ++ ws) (.entries es) s₂

inductive Place where
  | text
  | value
  | items
  | entries

-- Reading on from here, the parser comes to a string whose length is negative or more than what
-- is left of the buffer. A string that takes in the terminator still fits its `memcpy`; it is the
-- next read that is outside, unless there was no memory for the string.
inductive Overrun (env : Env) : Place → Scan → Bytes → Prop
  | text {s : Scan} {text rest : Bytes} (free : Free 58 text)
      (passes : strtolFails (s.strtol (lengthOf text)).errno (lengthOf text).val = false)
      (long : (lengthOf text).val < 0 ∨ rest.length < (lengthOf text).val)
      (bytes : (lengthOf text).val = rest.length + 1 → env.alloc s.mallocs = true) :
      Overrun env .text s (text ++ 58 :: rest)
  | str {s : Scan} {t : Bytes} (node : env.alloc s.mallocs = true) (tag : NoTag t)
      (inside : Overrun env .text (s.malloc env) t) : Overrun env .value s t
  | list {s : Scan} {t : Bytes} (node : env.alloc s.mallocs = true)
      (inside : Overrun env .items (s.malloc env) t) : Overrun env .value s (108 :: t)
  | dict {s : Scan} {t : Bytes} (node : env.alloc s.mallocs = true)
      (inside : Overrun env .entries (s.malloc env) t) : Overrun env .value s (100 :: t)
  | here {s : Scan} {t : Bytes} (start : NoEnd t) (inside : Overrun env .value s t) :
      Overrun env .items s t
  | later {s s₁ : Scan} {w t : Bytes} {v : Value} (start : NoEnd w)
      (first : Reads env .any s w (.value v) s₁) (rest : Overrun env .items (s₁.malloc env) t) :
      Overrun env .items s (w ++ t)
  | retry {s : Scan} {t : Bytes} (start : NoEnd t) (node : env.alloc s.mallocs = false)
      (rest : Overrun env .items (s.malloc env) t) : Overrun env .items s t
  | key {s : Scan} {t : Bytes} (start : NoEnd t) (node : env.alloc s.mallocs = true)
      (inside : Overrun env .text (s.malloc env) t) : Overrun env .entries s t
  | value {s s₁ : Scan} {text key t : Bytes} (start : NoEnd text)
      (node : env.alloc s.mallocs = true) (read : TextRead env (s.malloc env) text key s₁)
      (inside : Overrun env .value s₁ t) : Overrun env .entries s (text ++ 58 :: key ++ t)
  | entry {s s₁ s₂ : Scan} {text key w t : Bytes} {v : Value} (start : NoEnd text)
      (node : env.alloc s.mallocs = true) (read : TextRead env (s.malloc env) text key s₁)
      (first : Reads env .any s₁ w (.value v) s₂) (rest : Overrun env .entries (s₂.malloc env) t) :
      Overrun env .entries s (text ++ 58 :: key ++ w ++ t)
  | drop {s s₁ : Scan} {text key t : Bytes} (start : NoEnd text)
      (node : env.alloc s.mallocs = true) (read : TextRead env (s.malloc env) text key s₁)
      (failed : env.alloc s₁.mallocs = false) (rest : Overrun env .entries (s₁.malloc env) t) :
      Overrun env .entries s (text ++ 58 :: key ++ t)

-- Reading on from the place given last, the parser comes to the one given first.
inductive Comes (env : Env) (place : Place) (s : Scan) (t : Bytes) : Place → Scan → Bytes → Prop
  | arrived : Comes env place s t place s t
  | str {s₀ : Scan} {t₀ : Bytes} (node : env.alloc s₀.mallocs = true) (tag : NoTag t₀)
      (inside : Comes env place s t .text (s₀.malloc env) t₀) : Comes env place s t .value s₀ t₀
  | list {s₀ : Scan} {t₀ : Bytes} (node : env.alloc s₀.mallocs = true)
      (inside : Comes env place s t .items (s₀.malloc env) t₀) : Comes env place s t .value s₀ (108 :: t₀)
  | dict {s₀ : Scan} {t₀ : Bytes} (node : env.alloc s₀.mallocs = true)
      (inside : Comes env place s t .entries (s₀.malloc env) t₀) :
      Comes env place s t .value s₀ (100 :: t₀)
  | here {s₀ : Scan} {t₀ : Bytes} (start : NoEnd t₀) (inside : Comes env place s t .value s₀ t₀) :
      Comes env place s t .items s₀ t₀
  | later {s₀ s₁ : Scan} {w t₀ : Bytes} {v : Value} (start : NoEnd w)
      (first : Reads env .any s₀ w (.value v) s₁) (rest : Comes env place s t .items (s₁.malloc env) t₀) :
      Comes env place s t .items s₀ (w ++ t₀)
  | retry {s₀ : Scan} {t₀ : Bytes} (start : NoEnd t₀) (node : env.alloc s₀.mallocs = false)
      (rest : Comes env place s t .items (s₀.malloc env) t₀) : Comes env place s t .items s₀ t₀
  | key {s₀ : Scan} {t₀ : Bytes} (start : NoEnd t₀) (node : env.alloc s₀.mallocs = true)
      (inside : Comes env place s t .text (s₀.malloc env) t₀) : Comes env place s t .entries s₀ t₀
  | value {s₀ s₁ : Scan} {text key t₀ : Bytes} (start : NoEnd text)
      (node : env.alloc s₀.mallocs = true) (read : TextRead env (s₀.malloc env) text key s₁)
      (inside : Comes env place s t .value s₁ t₀) :
      Comes env place s t .entries s₀ (text ++ 58 :: key ++ t₀)
  | entry {s₀ s₁ s₂ : Scan} {text key w t₀ : Bytes} {v : Value} (start : NoEnd text)
      (node : env.alloc s₀.mallocs = true) (read : TextRead env (s₀.malloc env) text key s₁)
      (first : Reads env .any s₁ w (.value v) s₂)
      (rest : Comes env place s t .entries (s₂.malloc env) t₀) :
      Comes env place s t .entries s₀ (text ++ 58 :: key ++ w ++ t₀)
  | drop {s₀ s₁ : Scan} {text key t₀ : Bytes} (start : NoEnd text)
      (node : env.alloc s₀.mallocs = true) (read : TextRead env (s₀.malloc env) text key s₁)
      (failed : env.alloc s₁.mallocs = false) (rest : Comes env place s t .entries (s₁.malloc env) t₀) :
      Comes env place s t .entries s₀ (text ++ 58 :: key ++ t₀)

-- A parser returns a null pointer here: there is no colon or no `e`, a number is refused, or there
-- is no memory for a key.
def Refuses (env : Env) (s : Scan) (t : Bytes) : Place → Prop
  | .text => strchr 58 (t ++ [0]) = none ∨ ∃ text rest, t = text ++ 58 :: rest ∧ Free 58 text ∧
      strtolFails (s.strtol (lengthOf text)).errno (lengthOf text).val = true
  | .value => env.alloc s.mallocs = true ∧ ∃ rest, t = 105 :: rest ∧
      (strchr 101 (t ++ [0]) = none ∨ ∃ text after, rest = text ++ 101 :: after ∧ Free 101 text ∧
        strtolFails ((s.malloc env).strtol (intOf env s.ints text)).errno
          (toUnsigned (intOf env s.ints text).val).toNat = true)
  | .items => False
  | .entries => NoEnd t ∧ env.alloc s.mallocs = false

def Refused (env : Env) (place₀ : Place) (s₀ : Scan) (t₀ : Bytes) : Prop :=
  ∃ place s t, Comes env place s t place₀ s₀ t₀ ∧ Refuses env s t place

-- The loop of a dictionary returns a null pointer when it has added these entries.
inductive GivesUp (env : Env) : Scan → Bytes → List (Bytes × Value) → Prop
  | node {s : Scan} {t : Bytes} (start : NoEnd t) (failed : env.alloc s.mallocs = false) :
      GivesUp env s t []
  | key {s : Scan} {t : Bytes} (start : NoEnd t) (node : env.alloc s.mallocs = true)
      (refuses : Refuses env (s.malloc env) t .text) : GivesUp env s t []
  | value {s s₁ : Scan} {text key t : Bytes} (start : NoEnd text)
      (node : env.alloc s.mallocs = true) (read : TextRead env (s.malloc env) text key s₁)
      (refused : Refused env .value s₁ t) : GivesUp env s (text ++ 58 :: key ++ t) []
  | entry {s s₁ s₂ : Scan} {text key w t : Bytes} {v : Value} {es : List (Bytes × Value)}
      (start : NoEnd text) (node : env.alloc s.mallocs = true)
      (read : TextRead env (s.malloc env) text key s₁) (first : Reads env .any s₁ w (.value v) s₂)
      (rest : GivesUp env (s₂.malloc env) t es) :
      GivesUp env s (text ++ 58 :: key ++ w ++ t)
        (if env.alloc s₂.mallocs then (cutKey key, v) :: es else es)
  | drop {s s₁ : Scan} {text key t : Bytes} {es : List (Bytes × Value)} (start : NoEnd text)
      (node : env.alloc s.mallocs = true) (read : TextRead env (s.malloc env) text key s₁)
      (failed : env.alloc s₁.mallocs = false) (rest : GivesUp env (s₁.malloc env) t es) :
      GivesUp env s (text ++ 58 :: key ++ t) es

section Refused

variable {env : Env} {s : Scan} {t : Bytes}

theorem Refuses.refused {place : Place} (refuses : Refuses env s t place) :
    Refused env place s t :=
  ⟨place, s, t, .arrived, refuses⟩

theorem refused_of_comes {place₀ place₁ : Place} {s₀ s₁ : Scan} {t₀ t₁ : Bytes}
    (comes : ∀ {place s t}, Comes env place s t place₁ s₁ t₁ → Comes env place s t place₀ s₀ t₀)
    (refused : Refused env place₁ s₁ t₁) : Refused env place₀ s₀ t₀ := by
  obtain ⟨place, s, t, inside, refuses⟩ := refused
  exact ⟨place, s, t, comes inside, refuses⟩

theorem GivesUp.refused {es : List (Bytes × Value)} (gives : GivesUp env s t es) :
    Refused env .entries s t := by
  induction gives with
  | node start failed => exact Refuses.refused ⟨start, failed⟩
  | key start node refuses => exact refused_of_comes (.key start node) refuses.refused
  | value start node read refused => exact refused_of_comes (.value start node read) refused
  | entry start node read first rest ih => exact refused_of_comes (.entry start node read first) ih
  | drop start node read failed rest ih => exact refused_of_comes (.drop start node read failed) ih

end Refused

def Env.At (env : Env) (p : Nat) (t : Bytes) : Prop := p ≤ env.buf.length ∧ env.buf.drop p = t

theorem Env.At.rest {env : Env} {p : Nat} {t : Bytes} (here : env.At p t) :
    env.rest p = some (t ++ [0]) := by
  simp [Env.rest, here.1, here.2]

theorem Env.At.load {env : Env} {p : Nat} {t : Bytes} (here : env.At p t) :
    env.load p = some (t.headD 0) := by
  cases t <;> simp [Env.load, here.rest]

theorem Env.At.advance {env : Env} {p : Nat} {w t : Bytes} (here : env.At p (w ++ t)) :
    env.At (p + w.length) t := by
  obtain ⟨bound, drop⟩ := here
  have length := congrArg List.length drop
  simp only [List.length_drop, List.length_append] at length
  refine ⟨by omega, ?_⟩
  rw [← List.drop_drop, drop, List.drop_left]

theorem Env.At.next {env : Env} {p : Nat} {c : UInt8} {t : Bytes} (here : env.At p (c :: t)) :
    env.At (p + 1) t :=
  Env.At.advance (w := [c]) here

theorem Env.at_zero (env : Env) : env.At 0 env.buf := ⟨Nat.zero_le _, rfl⟩

theorem Env.load_past {env : Env} {p : Nat} (past : env.buf.length < p) : env.load p = none := by
  simp [Env.load, Env.rest, Nat.not_le.mpr past]

end BTServer.Bencode
