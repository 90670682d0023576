import Mathlib.Tactic.Ring
import BTServer.Bencode.Complete
import BTServer.Bencode.Fuel

set_option autoImplicit false

namespace BTServer.Bencode

open CString Outcome

/-- A relation between the courses of two parses that is kept wherever the first reads a string or
a number that keeps to its rules: the second one reads it too and keeps to its own. -/
structure Follows (a b : Env) (rules rules' : Rules) (related : Scan → Scan → Prop) : Prop where
  malloc : ∀ s r, related s r → related (s.malloc a) (r.malloc b)
  text : ∀ s s' r text data, related s r → rules.text text data → TextRead a s text data s' →
    rules'.text text data ∧ ∃ r', TextRead b r text data r' ∧ related s' r'
  key : ∀ key, rules.key key → rules'.key key
  number : ∀ s r text, related s r → intOf b r.ints text = intOf a s.ints text
  int : ∀ s r text, related s r → rules.int s.ints text →
    strtolFails ((s.malloc a).strtol (intOf a s.ints text)).errno
      (toUnsigned (intOf a s.ints text).val).toNat = false →
    rules'.int r.ints text ∧
      strtolFails ((r.malloc b).strtol (intOf a s.ints text)).errno
        (toUnsigned (intOf a s.ints text).val).toNat = false ∧
      related ((s.malloc a).strtol (intOf a s.ints text)).nextInt
        ((r.malloc b).strtol (intOf a s.ints text)).nextInt

-- The induction follows the parser through the text alone: what comes behind it in the buffer has
-- no part in a rule.
theorem Follows.reads {a b : Env} {rules rules' : Rules} {related : Scan → Scan → Prop}
    (follows : Follows a b rules rules' related) (mallocs : Allocates a) (mallocs' : Allocates b)
    {s s' : Scan} {w : Bytes} {content : Content} (reads : Reads a rules s w content s') (r : Scan)
    (start : related s r) : ∃ r', Reads b rules' r w content r' ∧ related s' r' := by
  induction reads generalizing r with
  | str node tag read ok =>
    obtain ⟨ok', r', read', later⟩ := follows.text _ _ _ _ _ (follows.malloc _ _ start) ok read
    exact ⟨r', .str (mallocs' _) tag read' ok', later⟩
  | int node free passes ok =>
    obtain ⟨ok', passes', later⟩ := follows.int _ _ _ start ok passes
    rw [← follows.number _ _ _ start] at passes' later ⊢
    exact ⟨_, .int (mallocs' _) free passes' ok', later⟩
  | list node inside ih =>
    obtain ⟨r', inside', later⟩ := ih (r.malloc b) (follows.malloc _ _ start)
    exact ⟨r', .list (mallocs' _) inside', later⟩
  | dict node inside ih =>
    obtain ⟨r', inside', later⟩ := ih (r.malloc b) (follows.malloc _ _ start)
    exact ⟨r', .dict (mallocs' _) inside', later⟩
  | nil => exact ⟨r, .nil, start⟩
  | cons front first rest firstIh restIh =>
    obtain ⟨r₁, first', between⟩ := firstIh r start
    obtain ⟨r₂, rest', later⟩ := restIh (r₁.malloc b) (follows.malloc _ _ between)
    have whole := Reads.cons front first' rest'
    rw [if_pos (mallocs' _)] at whole
    rw [if_pos (mallocs _)]
    exact ⟨r₂, whole, later⟩
  | retry front more node rest ih => exact absurd ⟨_, node⟩ mallocs.not_failing
  | done => exact ⟨r, .done, start⟩
  | entry front node read ok plain first rest firstIh restIh =>
    obtain ⟨ok', r₁, read', within⟩ := follows.text _ _ _ _ _ (follows.malloc _ _ start) ok read
    obtain ⟨r₂, first', between⟩ := firstIh r₁ within
    obtain ⟨r₃, rest', later⟩ := restIh (r₂.malloc b) (follows.malloc _ _ between)
    have whole := Reads.entry front (mallocs' _) read' ok' (follows.key _ plain) first' rest'
    rw [if_pos (mallocs' _)] at whole
    rw [if_pos (mallocs _)]
    exact ⟨r₃, whole, later⟩
  | drop front node read failed rest ih => exact absurd ⟨_, failed⟩ mallocs.not_failing

theorem unchanged_follows (env : Env) (rules : Rules) : Follows env env rules .any fun s r => r = s where
  malloc _ _ same := by rw [same]
  key _ _ := trivial
  number _ _ _ same := by rw [same]
  text := by
    rintro s s' _ text data rfl - read
    exact ⟨trivial, s', read, rfl⟩
  int := by
    rintro s _ text rfl - passes
    exact ⟨trivial, passes, rfl⟩

theorem Reads.any {env : Env} (mallocs : Allocates env) {rules : Rules} {s s' : Scan} {w : Bytes}
    {content : Content} (reads : Reads env rules s w content s') :
    Reads env .any s w content s' := by
  obtain ⟨r, reads', rfl⟩ := (unchanged_follows env rules).reads mallocs mallocs reads s rfl
  exact reads'

def ScratchOnly (env : Env) : Prop :=
  ∀ k tmp, tmp.length = integerLen → strtol (tmp ++ env.beyond k) = strtol tmp

theorem intOf_scratch {a b : Env} (only : ScratchOnly a) (only' : ScratchOnly b) (k k' : Nat)
    (text : Bytes) : intOf a k text = intOf b k' text := by
  have length : (intArray text).length = integerLen := by
    rw [intArray, scratch, List.length_append, List.length_replicate, List.length_take]
    omega
  rw [intOf, intOf, only k _ length, only' k' _ length]

theorem sameErrno_follows {a b : Env} (mallocs : Allocates a) (mallocs' : Allocates b)
    (only : ScratchOnly a) (only' : ScratchOnly b) :
    Follows a b .any .any fun s r => r.errno = s.errno where
  malloc s r errno := by rw [s.malloc_errno (mallocs _), r.malloc_errno (mallocs' _), errno]
  key _ _ := trivial
  number _ _ _ _ := intOf_scratch only' only _ _ _
  text := by
    intro s s' r text data errno ok read
    have same : (r.strtol (lengthOf text)).errno = (s.strtol (lengthOf text)).errno := by
      simp only [Scan.strtol, errno]
    refine ⟨trivial, (r.strtol (lengthOf text)).malloc b,
      ⟨read.free, read.value, ?_, mallocs' _, rfl⟩, ?_⟩
    · rw [same]
      exact read.passes
    · rw [read.after, Scan.malloc_errno _ (mallocs _), Scan.malloc_errno _ (mallocs' _), same]
  int := by
    intro s r text errno ok passes
    have same (number : Number) :
        ((r.malloc b).strtol number).errno = ((s.malloc a).strtol number).errno := by
      simp only [Scan.strtol, s.malloc_errno (mallocs _), r.malloc_errno (mallocs' _), errno]
    refine ⟨trivial, ?_, same _⟩
    rw [same]
    exact passes

theorem dict_of_accepted {env : Env} {fuel k node : Nat} {st st' : St} {d : BDict}
    (accepted : bDictParse env fuel st 0 (bDictAlloc node) = .done (some k, d) st') :
    ∃ w rest, env.buf = 100 :: (w ++ 101 :: rest) ∧ k = w.length + 2 ∧
      Reads env .any st.toScan w (.entries (eraseEntries d.entries)) st'.toScan := by
  have sound := (parse_sound env fuel).dict st 0 env.buf (bDictAlloc node) env.at_zero
  rw [accepted] at sound
  obtain ⟨w, rest, es, whole, next, reads, contents⟩ := sound.1 k rfl
  change eraseEntries d.entries = [] ++ es at contents
  refine ⟨w, rest, whole, by omega, ?_⟩
  rw [contents]
  exact reads

theorem accepted_elsewhere {a b : Env} (mallocs : Allocates a) (mallocs' : Allocates b)
    (only : ScratchOnly a) (only' : ScratchOnly b) {fuel k node : Nat} {st st' r : St} {d : BDict}
    (errno : r.errno = st.errno)
    (accepted : bDictParse a fuel st 0 (bDictAlloc node) = .done (some k, d) st')
    (agree : a.buf.take k = b.buf.take k) (node' : Nat) :
    ∃ enough, ∀ fuel', enough ≤ fuel' → ∃ d' r',
      bDictParse b fuel' r 0 (bDictAlloc node') = .done (some k, d') r' ∧
        eraseEntries d'.entries = eraseEntries d.entries := by
  obtain ⟨w, rest, whole, rfl, reads⟩ := dict_of_accepted accepted
  obtain ⟨r', reads', -⟩ :=
    (sameErrno_follows mallocs mallocs' only only').reads mallocs mallocs' reads r.toScan errno
  have front : a.buf.take (w.length + 2) = 100 :: (w ++ [101]) := by
    rw [whole, take_dict]
  have here : b.At 0 (100 :: (w ++ 101 :: b.buf.drop (w.length + 2))) := by
    have split := List.take_append_drop (w.length + 2) b.buf
    rw [← agree, front] at split
    have same : b.buf = 100 :: (w ++ 101 :: b.buf.drop (w.length + 2)) := by
      simpa using split.symm
    exact ⟨Nat.zero_le _, same⟩
  obtain ⟨enough, parses⟩ := bDictParse_reads reads' 0 _ here
  refine ⟨enough, fun fuel' large => ?_⟩
  obtain ⟨d', r'', parsed, contents⟩ := parses fuel' large (bDictAlloc node')
  rw [Nat.zero_add] at parsed
  exact ⟨d', r'', parsed, contents⟩

theorem take_eq_of_shorter {a b : Bytes} {k k' : Nat} (inside : k ≤ a.length)
    (front : a.take k <+: b.take k') : a.take k = b.take k := by
  have length : (a.take k).length = k := List.length_take_of_le inside
  have shorter := front.length_le
  rw [length, List.length_take] at shorter
  have same := List.prefix_iff_eq_take.mp front
  rw [length, List.take_take, Nat.min_eq_left (by omega)] at same
  exact same

theorem parse_determined_by_consumed (a b : Env) (mallocs : Allocates a) (mallocs' : Allocates b)
    (only : ScratchOnly a) (only' : ScratchOnly b) (st r : St) (errno : r.errno = st.errno)
    (node node' fuel k : Nat) (d : BDict) (st' : St)
    (accepted : bDictParse a fuel st 0 (bDictAlloc node) = .done (some k, d) st') :
    (a.buf.take k = b.buf.take k → ∃ enough, ∀ fuel', enough ≤ fuel' → ∃ d' r',
      bDictParse b fuel' r 0 (bDictAlloc node') = .done (some k, d') r' ∧
        eraseEntries d'.entries = eraseEntries d.entries) ∧
    ∀ fuel' k' d' r', bDictParse b fuel' r 0 (bDictAlloc node') = .done (some k', d') r' →
      a.buf.take k <+: b.buf.take k' → k' = k := by
  have elsewhere (agree : a.buf.take k = b.buf.take k) :=
    accepted_elsewhere mallocs mallocs' only only' errno accepted agree node'
  refine ⟨elsewhere, fun fuel' k' d' r' accepted' front => ?_⟩
  have inside : k ≤ a.buf.length := by
    obtain ⟨w, rest, whole, rfl, -⟩ := dict_of_accepted accepted
    rw [whole]
    simp
  obtain ⟨enough, parses⟩ := elsewhere (take_eq_of_shorter inside front)
  obtain ⟨d'', r'', parsed, -⟩ := parses (max enough fuel') (by omega)
  rw [bDictParse_more (by omega) accepted'] at parsed
  cases parsed
  rfl

theorem determined_by_eight_bytes :
    acceptedAt (bDictParse (.plentiful (ascii "d1:ai5ee")) 9
      { errno := 0, ints := 0, mallocs := 1, freed := [], trace := [] } 0 (bDictAlloc 0)) = some 8 ∧
    ∃ enough, ∀ fuel, enough ≤ fuel → ∃ d st,
      bDictParse (.plentiful (ascii "d1:ai5eei0")) fuel
        { errno := 0, ints := 3, mallocs := 7, freed := [], trace := [] } 0 (bDictAlloc 6) =
          .done (some 8, d) st := by
  have first : acceptedAt (bDictParse (.plentiful (ascii "d1:ai5ee")) 9
      { errno := 0, ints := 0, mallocs := 1, freed := [], trace := [] } 0 (bDictAlloc 0)) =
        some 8 := by
    decide +kernel
  obtain ⟨d, st, accepted⟩ := acceptedAt_some first
  have only (buf : Bytes) (fits : buf.length < 2 ^ 63 - 1) : ScratchOnly (.plentiful buf fits) :=
    fun _ _ _ => by rw [show (Env.plentiful buf fits).beyond _ = [] from rfl, List.append_nil]
  refine ⟨first, ?_⟩
  obtain ⟨enough, parses⟩ := (parse_determined_by_consumed
    (.plentiful (ascii "d1:ai5ee")) (.plentiful (ascii "d1:ai5eei0"))
    (fun _ => rfl) (fun _ => rfl) (only _ _) (only _ _)
    { errno := 0, ints := 0, mallocs := 1, freed := [], trace := [] }
    { errno := 0, ints := 3, mallocs := 7, freed := [], trace := [] } rfl 0 6 9 8 d st accepted).1
    (by decide +kernel)
  refine ⟨enough, fun fuel large => ?_⟩
  obtain ⟨d', st', parsed, -⟩ := parses fuel large
  exact ⟨d', st', parsed⟩

end BTServer.Bencode
