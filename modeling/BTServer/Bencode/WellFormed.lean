import BTServer.Bencode.Bounds
import BTServer.Bencode.RoundTrip

set_option autoImplicit false

namespace BTServer.Bencode

open CString Outcome

inductive WellFormed : Bytes → Content → Prop
  | str {text data : Bytes} (digits : Digits text) (length : digitsValue text = data.length) :
      WellFormed (text ++ 58 :: data) (.value (.str data data.length))
  | int {text : Bytes} {n : Int} (number : Denotes text n) :
      WellFormed (105 :: (text ++ [101])) (.value (.int n))
  | list {w : Bytes} {vs : List Value} (inside : WellFormed w (.items vs)) :
      WellFormed (108 :: (w ++ [101])) (.value (.list vs))
  | dict {w : Bytes} {es : List (Bytes × Value)} (inside : WellFormed w (.entries es)) :
      WellFormed (100 :: (w ++ [101])) (.value (.dict es))
  | nil : WellFormed [] (.items [])
  | cons {w ws : Bytes} {v : Value} {vs : List Value} (first : WellFormed w (.value v))
      (rest : WellFormed ws (.items vs)) : WellFormed (w ++ ws) (.items (v :: vs))
  | done : WellFormed [] (.entries [])
  | entry {text key w ws : Bytes} {v : Value} {es : List (Bytes × Value)} (digits : Digits text)
      (length : digitsValue text = key.length) (first : WellFormed w (.value v))
      (rest : WellFormed ws (.entries es)) :
      WellFormed (text ++ 58 :: key ++ w ++ ws) (.entries ((key, v) :: es))

-- The grammar gives every string its own length, so the tree is named by its text only.
mutual
theorem enc_wellFormed (v : Value) : ∃ v', WellFormed (enc v) (.value v') := by
  match v with
  | .str data _ => exact ⟨_, .str (digits_decimal _).1 (digits_decimal _).2⟩
  | .int n => exact ⟨_, .int (denotes_intText n)⟩
  | .list vs =>
    obtain ⟨_, inside⟩ := encItems_wellFormed vs
    exact ⟨_, .list inside⟩
  | .dict es =>
    obtain ⟨_, inside⟩ := encEntries_wellFormed es
    exact ⟨_, .dict inside⟩

theorem encItems_wellFormed (vs : List Value) : ∃ vs', WellFormed (encItems vs) (.items vs') := by
  match vs with
  | [] => exact ⟨_, .nil⟩
  | v :: vs =>
    obtain ⟨_, here⟩ := enc_wellFormed v
    obtain ⟨_, later⟩ := encItems_wellFormed vs
    exact ⟨_, .cons here later⟩

theorem encEntries_wellFormed (es : List (Bytes × Value)) :
    ∃ es', WellFormed (encEntries es) (.entries es') := by
  match es with
  | [] => exact ⟨_, .done⟩
  | (key, v) :: es =>
    obtain ⟨_, here⟩ := enc_wellFormed v
    obtain ⟨_, later⟩ := encEntries_wellFormed es
    exact ⟨_, .entry (digits_decimal _).1 (digits_decimal _).2 here later⟩
end

-- What a text has to keep to for the parser to read it as the grammar does. An integer of twenty
-- characters or more fills the array it is copied to, and `strtol` goes on behind the array.
def plainRules (env : Env) : Rules where
  text text data := Digits text ∧ digitsValue text = data.length ∧ data.length < 2 ^ 32
  key key := (∀ c ∈ key, c ≠ 0) ∧ key.length ≤ keyLen
  int k text := ∃ n, Denotes text n ∧ 0 ≤ n ∧ n < 2 ^ 32 ∧
    (text.length < integerLen ∨ storedBits env k text = n)

theorem denotes_free {text : Bytes} {n : Int} (number : Denotes text n) : Free 101 text := by
  cases number with
  | plain digits => exact (digits_free _ digits.2).2.1
  | @minus ds digits =>
    intro c member
    rcases List.mem_cons.mp member with rfl | later
    · decide
    · exact (digits_free ds digits.2).2.1 c later

theorem denotes_unique {text : Bytes} {n n' : Int} (number : Denotes text n)
    (number' : Denotes text n') : n = n' := by
  cases number with
  | plain digits =>
    cases number' with
    | plain => rfl
    | minus => exact absurd (digits.2 45 (by simp)) (by decide)
  | minus digits =>
    cases number' with
    | plain digits' => exact absurd (digits'.2 45 (by simp)) (by decide)
    | minus => rfl

theorem digits_ne {text back t : Bytes} (digits : Digits text) {c : UInt8}
    (other : isDigit c = false) : text ++ back ≠ c :: t := by
  obtain ⟨d, ds, rfl⟩ := List.exists_cons_of_ne_nil digits.1
  intro same
  have digit := digits.2 d (by simp)
  rw [(List.cons.inj same).1, other] at digit
  cases digit

def Value.tag : Value → Option UInt8
  | .str _ _ => none
  | .int _ => some 105
  | .list _ => some 108
  | .dict _ => some 100

theorem wellFormed_tag {w : Bytes} {v : Value} (formed : WellFormed w (.value v)) (r : Bytes) :
    v.tag = (w ++ r).head?.filter (!isDigit ·) := by
  generalize content : Content.value v = c at formed
  cases formed with
  | str digits length =>
    cases content
    obtain ⟨d, ds, rfl⟩ := List.exists_cons_of_ne_nil digits.1
    have digit := digits.2 d (by simp)
    simp [Value.tag, Option.filter, digit]
  | int number =>
    cases content
    rfl
  | list inside =>
    cases content
    rfl
  | dict inside =>
    cases content
    rfl
  | nil => cases content
  | cons => cases content
  | done => cases content
  | entry => cases content

theorem tag_same {w w' r r' : Bytes} {v v' : Value} (formed : WellFormed w (.value v))
    (formed' : WellFormed w' (.value v')) (same : w ++ r = w' ++ r') : v.tag = v'.tag := by
  rw [wellFormed_tag formed r, wellFormed_tag formed' r', same]

theorem wellFormed_ne_end {w : Bytes} {v : Value} (formed : WellFormed w (.value v))
    (rest t : Bytes) : w ++ rest ≠ 101 :: t := by
  intro same
  have kind := wellFormed_tag formed rest
  rw [same] at kind
  change v.tag = some 101 at kind
  cases v <;> simp [Value.tag] at kind

theorem text_same {text text' data data' r r' : Bytes} (digits : Digits text)
    (digits' : Digits text') (length : digitsValue text = data.length)
    (length' : digitsValue text' = data'.length)
    (same : text ++ 58 :: data ++ r = text' ++ 58 :: data' ++ r') :
    text = text' ∧ data = data' ∧ r = r' := by
  simp only [List.append_assoc, List.cons_append] at same
  obtain ⟨rfl, behind⟩ := free_split (digits_free _ digits.2).1 (digits_free _ digits'.2).1 same
  obtain ⟨rfl, rfl⟩ := List.append_inj behind (length.symm.trans length')
  exact ⟨rfl, rfl, rfl⟩

/-- Nothing else is read at the front of any text that begins with this one. -/
def ReadOnce (w : Bytes) : Content → Prop
  | .value v => ∀ w' v' r r', WellFormed w' (.value v') → w ++ r = w' ++ r' →
      w = w' ∧ v = v' ∧ r = r'
  | .items vs => ∀ w' vs' r r', WellFormed w' (.items vs') → w ++ 101 :: r = w' ++ 101 :: r' →
      w = w' ∧ vs = vs' ∧ r = r'
  | .entries es => ∀ w' es' r r', WellFormed w' (.entries es') →
      w ++ 101 :: r = w' ++ 101 :: r' → w = w' ∧ es = es' ∧ r = r'

theorem wellFormed_unique {w : Bytes} {content : Content} (formed : WellFormed w content) :
    ReadOnce w content := by
  induction formed with
  | str digits length =>
    intro w' v' r r' formed' same
    have kind := tag_same (.str digits length) formed' same
    cases v' with
    | str data' len' =>
      cases formed' with
      | str digits' length' =>
        obtain ⟨rfl, rfl, rfl⟩ := text_same digits digits' length length' same
        exact ⟨rfl, rfl, rfl⟩
    | _ => cases kind
  | int number =>
    intro w' v' r r' formed' same
    have kind := tag_same (.int number) formed' same
    cases v' with
    | int n' =>
      cases formed' with
      | int number' =>
        simp only [List.cons_append, List.append_assoc, List.cons.injEq, true_and,
          List.nil_append] at same
        obtain ⟨rfl, rfl⟩ := free_split (denotes_free number) (denotes_free number') same
        exact ⟨rfl, by rw [denotes_unique number number'], rfl⟩
    | _ => cases kind
  | list inside ih =>
    intro w' v' r r' formed' same
    have kind := tag_same (.list inside) formed' same
    cases v' with
    | list vs' =>
      cases formed' with
      | list inside' =>
        obtain ⟨rfl, rfl, rfl⟩ := ih _ _ r r' inside' (by simpa using same)
        exact ⟨rfl, rfl, rfl⟩
    | _ => cases kind
  | dict inside ih =>
    intro w' v' r r' formed' same
    have kind := tag_same (.dict inside) formed' same
    cases v' with
    | dict es' =>
      cases formed' with
      | dict inside' =>
        obtain ⟨rfl, rfl, rfl⟩ := ih _ _ r r' inside' (by simpa using same)
        exact ⟨rfl, rfl, rfl⟩
    | _ => cases kind
  | nil =>
    intro w' vs' r r' formed' same
    cases vs' with
    | nil =>
      cases formed'
      exact ⟨rfl, rfl, by simpa using same⟩
    | cons v' vs' =>
      cases formed' with
      | cons first' rest' =>
        rw [List.append_assoc] at same
        exact absurd same.symm (wellFormed_ne_end first' _ _)
  | cons first rest ih ih' =>
    intro w' vs' r r' formed' same
    cases vs' with
    | nil =>
      cases formed'
      rw [List.append_assoc] at same
      exact absurd same (wellFormed_ne_end first _ _)
    | cons v' vs' =>
      cases formed' with
      | cons first' rest' =>
        rw [List.append_assoc, List.append_assoc] at same
        obtain ⟨rfl, rfl, behind⟩ := ih _ _ _ _ first' same
        obtain ⟨rfl, rfl, rfl⟩ := ih' _ _ _ _ rest' behind
        exact ⟨rfl, rfl, rfl⟩
  | done =>
    intro w' es' r r' formed' same
    cases es' with
    | nil =>
      cases formed'
      exact ⟨rfl, rfl, by simpa using same⟩
    | cons e' es' =>
      cases formed' with
      | entry digits' length' first' rest' =>
        exact absurd (by simpa using same.symm) (digits_ne digits' (by decide))
  | @entry text key w ws v es digits length first rest ih ih' =>
    intro w' es' r r' formed' same
    cases es' with
    | nil =>
      cases formed'
      exact absurd (by simpa using same) (digits_ne digits (by decide))
    | cons e' es' =>
      cases formed' with
      | @entry text' key' u us _ _ digits' length' first' rest' =>
        have split : text ++ 58 :: key ++ (w ++ (ws ++ 101 :: r)) =
            text' ++ 58 :: key' ++ (u ++ (us ++ 101 :: r')) := by simpa using same
        obtain ⟨rfl, rfl, behind⟩ := text_same digits digits' length length' split
        obtain ⟨rfl, rfl, behind⟩ := ih _ _ _ _ first' behind
        obtain ⟨rfl, rfl, rfl⟩ := ih' _ _ _ _ rest' behind
        exact ⟨rfl, rfl, rfl⟩

theorem intOf_denotes (env : Env) (k : Nat) {text : Bytes} {n : Int} (number : Denotes text n)
    (nonnegative : 0 ≤ n) (small : n < 2 ^ 32) (short : text.length < integerLen) :
    ((toUnsigned (intOf env k text).val).toNat : Int) = n := by
  obtain ⟨rest, read⟩ := intOf_short env k text short
  cases number with
  | plain digits =>
    rw [read, strtol_digits text _ digits.1 digits.2 (letter_stop rest)
      (by simp only [longMax]; omega), toUnsigned_natCast, Nat.mod_eq_of_lt (by omega)]
  | @minus ds digits =>
    have zero : digitsValue ds = 0 := by omega
    rw [read, List.cons_append, strtol_minus_digits ds _ digits.1 digits.2 (letter_stop rest)
      (by simp only [longMax]; omega), zero]
    rfl

theorem lengthOf_le (ds : Bytes) (digits : Digits ds) :
    (lengthOf ds).val ≤ digitsValue ds := by
  have some : ds.take integerLen ≠ [] := by
    simp [List.take_eq_nil_iff, integerLen, digits.1]
  have front (d : UInt8) (member : d ∈ ds.take integerLen) : isDigit d = true :=
    digits.2 d (List.mem_of_mem_take member)
  rw [lengthOf, scratch, strtol_run _ _ some front (replicate_zero_stop _)]
  have read := clamp_le (digitsValue (ds.take integerLen)) (ds.take integerLen).length
  have cut := digitsValue_take ds integerLen
  omega

theorem plain_wellFormed {env : Env} (mallocs : Allocates env) {s s' : Scan} {w : Bytes}
    {content : Content} (reads : Reads env (plainRules env) s w content s') :
    WellFormed w content := by
  induction reads with
  | str node tag read ok =>
    obtain ⟨digits, length, small⟩ := ok
    rw [Nat.mod_eq_of_lt small]
    exact .str digits length
  | int node free passes ok =>
    obtain ⟨n, number, nonnegative, small, stored⟩ := ok
    have value := stored.elim (intOf_denotes env _ number nonnegative small)
      (intOf_stored env _ number).trans
    rw [value]
    exact .int number
  | list node inside ih => exact .list ih
  | dict node inside ih => exact .dict ih
  | nil => exact .nil
  | cons start first rest ihFirst ihRest =>
    rw [if_pos (mallocs _)]
    exact .cons ihFirst ihRest
  | retry start more node rest ih => simp [mallocs _] at node
  | done => exact .done
  | entry start node read ok plain first rest ihFirst ihRest =>
    rw [if_pos (mallocs _), cutKey_plain _ plain.1 plain.2]
    exact .entry ok.1 ok.2.1 ihFirst ihRest
  | drop start node read failed rest ih => simp [mallocs _] at failed

theorem cutKey_length (key : Bytes) : (cutKey key).length ≤ key.length ∧
    (cutKey key).length ≤ keyLen := by
  have cut : (cutKey key).length ≤ (cstr key).length := List.length_take_le' _ _
  have terminated : (cstr key).length ≤ key.length := (List.takeWhile_prefix _).length_le
  exact ⟨cut.trans terminated, by simp [cutKey]⟩

theorem cutKey_whole (key : Bytes) (whole : key.length ≤ (cutKey key).length) :
    cutKey key = key ∧ (∀ c ∈ key, c ≠ 0) ∧ key.length ≤ keyLen := by
  have short := whole.trans (cutKey_length key).2
  have all : cstr key = key := by
    apply (List.takeWhile_prefix _).eq_of_length_le
    exact whole.trans (List.length_take_le' _ _)
  have free : ∀ c ∈ key, c ≠ 0 := by simpa using List.takeWhile_eq_self_iff.mp all
  exact ⟨cutKey_plain key free short, free, short⟩

theorem wellFormed_str {w data : Bytes} {len : Nat}
    (formed : WellFormed w (.value (.str data len))) :
    len = data.length ∧
      ∃ text, w = text ++ 58 :: data ∧ Digits text ∧ digitsValue text = data.length := by
  cases formed with
  | str digits length => exact ⟨rfl, _, rfl, digits, length⟩

theorem wellFormed_int {w : Bytes} {n : Int} (formed : WellFormed w (.value (.int n))) :
    ∃ text, w = 105 :: (text ++ [101]) ∧ Denotes text n := by
  cases formed with
  | int number => exact ⟨_, rfl, number⟩

theorem wellFormed_dict {w : Bytes} {es : List (Bytes × Value)}
    (formed : WellFormed w (.value (.dict es))) :
    ∃ u, w = 100 :: (u ++ [101]) ∧ WellFormed u (.entries es) := by
  cases formed with
  | dict inside => exact ⟨_, rfl, inside⟩

theorem wellFormed_entry {w key : Bytes} {v : Value} {es : List (Bytes × Value)}
    (formed : WellFormed w (.entries ((key, v) :: es))) :
    ∃ text u us, w = text ++ 58 :: key ++ u ++ us ∧ Digits text ∧
      digitsValue text = key.length ∧ WellFormed u (.value v) ∧ WellFormed us (.entries es) := by
  cases formed with
  | entry digits length first rest => exact ⟨_, _, _, rfl, digits, length, first, rest⟩

/-- The parser reads at most the length that the digits denote, and it never lengthens a key: a key
of that length has been read and stored whole. -/
theorem key_whole {env : Env} {s s' : Scan} {text key : Bytes} (read : TextRead env s text key s')
    (digits : Digits text) (length : digitsValue text = (cutKey key).length) :
    cutKey key = key ∧ (plainRules env).text text key ∧ (plainRules env).key key := by
  have announced := lengthOf_le text digits
  rw [read.value] at announced
  obtain ⟨all, free, short⟩ := cutKey_whole key (by omega)
  have small : key.length < 2 ^ 32 := by simp only [keyLen] at short; omega
  rw [all] at length
  exact ⟨all, ⟨digits, length, small⟩, free, short⟩

/-- A text that the parser and the grammar read alike keeps to the rules. The two agree on where
each string and integer begins, so the induction is on the parser's reading. -/
theorem wellFormed_plain {env : Env} (mallocs : Allocates env) {s s' : Scan} {w : Bytes}
    {content : Content} (reads : Reads env .any s w content s') :
    ∀ w' rest rest', WellFormed w' content → w ++ rest = w' ++ rest' →
      w = w' ∧ Reads env (plainRules env) s w content s' := by
  induction reads with
  | @str s s' text data node tag read ok =>
    intro w' rest rest' formed same
    obtain ⟨len, text', rfl, digits, length⟩ := wellFormed_str formed
    simp only [List.append_assoc, List.cons_append] at same
    obtain ⟨rfl, -⟩ := free_split read.free (digits_free text' digits.2).1 same
    exact ⟨rfl, .str node tag read ⟨digits, length, by omega⟩⟩
  | @int s text node free passes ok =>
    intro w' rest rest' formed same
    obtain ⟨text', rfl, number⟩ := wellFormed_int formed
    simp only [List.append_assoc, List.cons_append, List.cons.injEq, List.nil_append,
      true_and] at same
    obtain ⟨rfl, -⟩ := free_split free (denotes_free number) same
    have bound := (toUnsigned (intOf env s.ints text).val).toNat_lt
    exact ⟨rfl, .int node free passes ⟨_, number, by omega, by omega,
      .inr (intOf_stored env _ number).symm⟩⟩
  | list node inside ih =>
    intro w' rest rest' formed same
    cases formed with
    | list formed =>
      simp only [List.append_assoc, List.cons_append, List.cons.injEq, true_and] at same
      obtain ⟨rfl, reads⟩ := ih _ _ _ formed same
      exact ⟨rfl, .list node reads⟩
  | dict node inside ih =>
    intro w' rest rest' formed same
    obtain ⟨u, rfl, entries⟩ := wellFormed_dict formed
    simp only [List.append_assoc, List.cons_append, List.cons.injEq, true_and] at same
    obtain ⟨rfl, reads⟩ := ih _ _ _ entries same
    exact ⟨rfl, .dict node reads⟩
  | nil =>
    intro w' rest rest' formed same
    cases formed
    exact ⟨rfl, .nil⟩
  | @cons s s₁ s₂ w ws v vs start first others ihFirst ihRest =>
    intro w' rest rest' formed same
    have here := mallocs s₁.mallocs
    rw [if_pos here] at formed ⊢
    cases formed with
    | cons formed formed' =>
      simp only [List.append_assoc] at same
      obtain ⟨rfl, reads⟩ := ihFirst _ _ _ formed same
      obtain ⟨rfl, reads'⟩ := ihRest _ _ _ formed' (List.append_cancel_left same)
      have plain := Reads.cons start reads reads'
      rw [if_pos here] at plain
      exact ⟨rfl, plain⟩
  | retry start more node rest ih => simp [mallocs _] at node
  | done =>
    intro w' rest rest' formed same
    cases formed
    exact ⟨rfl, .done⟩
  | @entry s s₁ s₂ s₃ text key w ws v es start node read ok plain first others ihFirst ihRest =>
    intro w' rest rest' formed same
    have here := mallocs s₂.mallocs
    rw [if_pos here] at formed ⊢
    obtain ⟨text', u, us, rfl, digits, length, value, entries⟩ := wellFormed_entry formed
    simp only [List.append_assoc, List.cons_append] at same
    obtain ⟨rfl, later⟩ := free_split read.free (digits_free text' digits.2).1 same
    obtain ⟨all, ok, plain⟩ := key_whole read digits length
    rw [all] at later
    have values := List.append_cancel_left later
    obtain ⟨rfl, reads⟩ := ihFirst _ _ _ value values
    obtain ⟨rfl, reads'⟩ := ihRest _ _ _ entries (List.append_cancel_left values)
    have entry := Reads.entry start node read ok plain reads reads'
    rw [if_pos here] at entry
    exact ⟨by rw [all], entry⟩
  | drop start node read failed rest ih => simp [mallocs _] at failed

def BeginsWell (buf : Bytes) : Prop := ∃ q es, WellFormed (buf.take q) (.value (.dict es))

/-- What is accepted is a well-formed dictionary, stored as the grammar has it, and a buffer that
does not begin with one is rejected. -/
structure AcceptsGrammar (env : Env) (st : St) (node : Nat) : Prop where
  accepted : ∀ fuel q d st', bDictParse env fuel st 0 (bDictAlloc node) = .done (some q, d) st' →
    WellFormed (env.buf.take q) (.value (BValue.dict d).erase)
  rejected : ¬ BeginsWell env.buf → ∃ enough, ∀ fuel, enough ≤ fuel →
    ∃ d st', bDictParse env fuel st 0 (bDictAlloc node) = .done (none, d) st'

-- Every way the parser can read the buffer keeps to the grammar, and it leaves the buffer only
-- where the grammar finds a dictionary.
structure ReadsPlainly (env : Env) (s : Scan) : Prop where
  plain : ∀ w rest es s', env.buf = 100 :: (w ++ 101 :: rest) →
    Reads env .any s w (.entries es) s' → Reads env (plainRules env) s w (.entries es) s'
  inside : ∀ rest, env.buf = 100 :: rest → Overrun env .entries s rest → BeginsWell env.buf

theorem wellFormed_of_accepted {env : Env} (mallocs : Allocates env) {st : St} {node : Nat}
    (plainly : ReadsPlainly env st.toScan) (fuel q : Nat) (d : BDict) (st' : St)
    (accepted : bDictParse env fuel st 0 (bDictAlloc node) = .done (some q, d) st') :
    WellFormed (env.buf.take q) (.value (.dict (eraseEntries d.entries))) := by
  have sound := (parse_sound env fuel).dict st 0 env.buf (bDictAlloc node) env.at_zero
  rw [accepted] at sound
  obtain ⟨w, rest, es, whole, rfl, reads, contents⟩ := sound.1 q rfl
  have formed := plain_wellFormed mallocs (plainly.plain w rest es _ whole reads)
  change eraseEntries d.entries = [] ++ es at contents
  rw [whole, Nat.zero_add, take_dict, contents]
  exact .dict formed

theorem plain_of_accepted {env : Env} (mallocs : Allocates env) {st : St} {node : Nat}
    (accepts : AcceptsGrammar env st node) {w rest : Bytes} {es : List (Bytes × Value)} {s' : Scan}
    (whole : env.buf = 100 :: (w ++ 101 :: rest))
    (reads : Reads env .any st.toScan w (.entries es) s') :
    Reads env (plainRules env) st.toScan w (.entries es) s' := by
  have here : env.At 0 (100 :: (w ++ 101 :: rest)) := whole ▸ env.at_zero
  obtain ⟨enough, parses⟩ := bDictParse_reads reads 0 rest here
  obtain ⟨d, st', parsed, contents⟩ := parses enough le_rfl (bDictAlloc node)
  have formed := accepts.accepted enough _ d st' parsed
  change eraseEntries d.entries = [] ++ es at contents
  rw [whole, Nat.zero_add, take_dict, BValue.erase, contents] at formed
  obtain ⟨u, text, formed⟩ := wellFormed_dict formed
  have same : w ++ [101] = u ++ [101] := by simpa using text
  exact (wellFormed_plain mallocs reads u _ _ formed same).2

theorem rejected_of_malformed {env : Env} (mallocs : Allocates env) {st : St} {node : Nat}
    (plainly : ReadsPlainly env st.toScan) (malformed : ¬ BeginsWell env.buf) (fuel : Nat)
    (large : 2 * env.buf.length + 1 ≤ fuel) :
    ∃ d st', bDictParse env fuel st 0 (bDictAlloc node) = .done (none, d) st' := by
  have sound := (parse_sound env fuel).dict st 0 env.buf (bDictAlloc node) env.at_zero
  cases result : bDictParse env fuel st 0 (bDictAlloc node) with
  | done pair st' =>
    obtain ⟨next, d⟩ := pair
    cases next with
    | none => exact ⟨d, st', rfl⟩
    | some q =>
      have formed := wellFormed_of_accepted mallocs plainly fuel q d st' result
      exact absurd ⟨q, _, formed⟩ malformed
  | fault st' =>
    rw [result] at sound
    obtain ⟨rest, whole, overrun⟩ := sound
    exact absurd (plainly.inside rest whole overrun) malformed
  | crash st' =>
    rw [result] at sound
    exact absurd sound mallocs.not_failing
  | timeout st' =>
    rw [result] at sound
    rcases sound with failing | short
    · exact absurd failing mallocs.not_failing
    · omega

theorem accepts_grammar_iff (env : Env) (st : St) (node : Nat) (mallocs : Allocates env) :
    AcceptsGrammar env st node ↔ ReadsPlainly env st.toScan := by
  constructor
  · intro accepts
    constructor
    · intro w rest es s' whole reads
      exact plain_of_accepted mallocs accepts whole reads
    · intro rest whole overrun
      by_contra malformed
      obtain ⟨enough, rejects⟩ := accepts.rejected malformed
      obtain ⟨enough', faults⟩ := bDictParse_faults whole overrun
      obtain ⟨d, st', parsed⟩ := rejects (max enough enough') (Nat.le_max_left _ _)
      have fault := faults (max enough enough') (Nat.le_max_right _ _) (bDictAlloc node)
      rw [parsed] at fault
      exact fault
  · intro plainly
    constructor
    · intro fuel q d st' accepted
      exact wellFormed_of_accepted mallocs plainly fuel q d st' accepted
    · intro malformed
      exact ⟨_, rejected_of_malformed mallocs plainly malformed⟩

mutual
theorem storable_wellFormed (v : Value) (storable : Storable v) : WellFormed (enc v) (.value v) := by
  match v with
  | .str data len =>
    simp only [Storable] at storable
    rw [storable.2]
    exact .str (digits_decimal _).1 (digits_decimal _).2
  | .int n => exact .int (denotes_intText n)
  | .list vs =>
    simp only [Storable] at storable
    exact .list (storable_wellFormed_items vs storable)
  | .dict es =>
    simp only [Storable] at storable
    exact .dict (storable_wellFormed_entries es storable)

theorem storable_wellFormed_items (vs : List Value) (storable : StorableItems vs) :
    WellFormed (encItems vs) (.items vs) := by
  match vs with
  | [] => exact .nil
  | v :: vs =>
    simp only [StorableItems] at storable
    exact .cons (storable_wellFormed v storable.1) (storable_wellFormed_items vs storable.2)

theorem storable_wellFormed_entries (es : List (Bytes × Value)) (storable : StorableEntries es) :
    WellFormed (encEntries es) (.entries es) := by
  match es with
  | [] => exact .done
  | (key, v) :: es =>
    simp only [StorableEntries] at storable
    exact .entry (digits_decimal _).1 (digits_decimal _).2 (storable_wellFormed v storable.2.1)
      (storable_wellFormed_entries es storable.2.2)
end

theorem storable_readsPlainly {env : Env} (mallocs : Allocates env) {st : St}
    (errno : st.errno = 0) {es : List (Bytes × Value)} (storable : StorableEntries es)
    (rest : Bytes) (whole : env.buf = 100 :: (encEntries es ++ 101 :: rest)) :
    ReadsPlainly env st.toScan := by
  have formed := storable_wellFormed_entries es storable
  obtain ⟨s', reads⟩ :=
    encEntries_reads mallocs es (storable_parsable_entries es storable) st.toScan errno
  obtain ⟨-, plain⟩ := wellFormed_plain mallocs reads _ [] [] formed rfl
  constructor
  · intro w rest' es' s'' whole' reads'
    obtain ⟨rfl, rfl, rfl⟩ := reading_unique whole whole' reads reads'
    exact plain
  · intro _ _ _
    refine ⟨(encEntries es).length + 2, es, ?_⟩
    rw [whole, take_dict]
    exact .dict formed

theorem accepts_grammar_of_list :
    AcceptsGrammar (.plentiful (ascii "d1:ali7e2:xyee"))
      { errno := 0, ints := 0, mallocs := 1, freed := [], trace := [] } 0 := by
  have storable : StorableEntries [(ascii "a", .list [.int 7, .str (ascii "xy") 2])] := by
    simp [StorableEntries, StorableItems, Storable, ascii, keyLen]
  apply (accepts_grammar_iff _ _ _ fun _ => rfl).mpr
  exact storable_readsPlainly (fun _ => rfl) rfl storable [] (by decide)

theorem empty_length_not_wellFormed (es : List (Bytes × Value)) :
    ¬ WellFormed (ascii "d:0:e") (.value (.dict es)) := by
  intro formed
  obtain ⟨w, whole, inside⟩ := wellFormed_dict formed
  have inner : w ++ [101] = [58, 48, 58, 101] := (congrArg List.tail whole).symm
  cases inside with
  | done => simp at inner
  | @entry text key u us v es digits length first rest =>
    obtain ⟨some, all⟩ := digits
    cases text with
    | nil => exact some rfl
    | cons c text =>
      have head : c = 58 := by simpa using congrArg List.head? inner
      have digit := all c (by simp)
      rw [head] at digit
      exact absurd digit (by decide)

/-- In `d:0:e` neither the key nor the string says how long it is. -/
theorem empty_length_accepted :
    ¬ AcceptsGrammar (.plentiful (ascii "d:0:e"))
      { errno := 0, ints := 0, mallocs := 1, freed := [], trace := [] } 0 := by
  intro accepts
  have stop : acceptedAt (bDictParse (.plentiful (ascii "d:0:e")) 5
      { errno := 0, ints := 0, mallocs := 1, freed := [], trace := [] } 0 (bDictAlloc 0)) =
      some 5 := by decide +kernel
  obtain ⟨d, st', result⟩ := acceptedAt_some stop
  exact empty_length_not_wellFormed _ (accepts.accepted 5 5 d st' result)

end BTServer.Bencode
