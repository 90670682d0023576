import BTServer.Bencode.Encoding

set_option autoImplicit false

namespace BTServer.Bencode

open CString Outcome

-- The trees that the program's own types can hold.
mutual
def Storable : Value → Prop
  | .str data len => data.length < 2 ^ 32 ∧ len = data.length
  | .int n => 0 ≤ n ∧ n < 2 ^ 32
  | .list vs => StorableItems vs
  | .dict es => StorableEntries es

def StorableItems : List Value → Prop
  | [] => True
  | v :: vs => Storable v ∧ StorableItems vs

def StorableEntries : List (Bytes × Value) → Prop
  | [] => True
  | (key, v) :: es => ((∀ c ∈ key, c ≠ 0) ∧ key.length ≤ keyLen) ∧ Storable v ∧ StorableEntries es
end

-- A string may be as long as a `long` can say; its stored length then wraps around.
mutual
def Parsable : Value → Prop
  | .str data len => (data.length : Int) ≤ longMax ∧ len = data.length % 2 ^ 32
  | .int n => 0 ≤ n ∧ n < 2 ^ 32
  | .list vs => ParsableItems vs
  | .dict es => ParsableEntries es

def ParsableItems : List Value → Prop
  | [] => True
  | v :: vs => Parsable v ∧ ParsableItems vs

def ParsableEntries : List (Bytes × Value) → Prop
  | [] => True
  | (key, v) :: es => ((∀ c ∈ key, c ≠ 0) ∧ key.length ≤ keyLen) ∧ Parsable v ∧ ParsableEntries es
end

theorem parsableItems_iff (vs : List Value) : ParsableItems vs ↔ ∀ v ∈ vs, Parsable v := by
  induction vs with
  | nil => simp [ParsableItems]
  | cons v vs ih => simp [ParsableItems, ih]

theorem parsableEntries_iff (es : List (Bytes × Value)) : ParsableEntries es ↔
    ∀ e ∈ es, ((∀ c ∈ e.1, c ≠ 0) ∧ e.1.length ≤ keyLen) ∧ Parsable e.2 := by
  induction es with
  | nil => simp [ParsableEntries]
  | cons e es ih => simp [ParsableEntries, ih, and_assoc]

mutual
theorem storable_parsable (v : Value) (storable : Storable v) : Parsable v := by
  match v with
  | .str data len =>
    simp only [Storable] at storable
    simp only [Parsable, longMax]
    omega
  | .int n => simpa only [Parsable, Storable] using storable
  | .list vs =>
    simp only [Storable] at storable
    simpa only [Parsable] using storable_parsable_items vs storable
  | .dict es =>
    simp only [Storable] at storable
    simpa only [Parsable] using storable_parsable_entries es storable

theorem storable_parsable_items (vs : List Value) (storable : StorableItems vs) :
    ParsableItems vs := by
  match vs with
  | [] => simp only [ParsableItems]
  | v :: vs =>
    simp only [StorableItems] at storable
    simp only [ParsableItems]
    exact ⟨storable_parsable v storable.1, storable_parsable_items vs storable.2⟩

theorem storable_parsable_entries (es : List (Bytes × Value)) (storable : StorableEntries es) :
    ParsableEntries es := by
  match es with
  | [] => simp only [ParsableEntries]
  | (key, v) :: es =>
    simp only [StorableEntries] at storable
    simp only [ParsableEntries]
    exact ⟨storable.1, storable_parsable v storable.2.1,
      storable_parsable_entries es storable.2.2⟩
end

theorem seeText_small {env : Env} (mallocs : Allocates env) (data : Bytes)
    (small : (data.length : Int) ≤ longMax) (s : Scan) (errno : s.errno = 0) :
    ∃ s', s'.errno = 0 ∧ seeText env s data = some s' := by
  obtain ⟨some, digits, value⟩ := decimal_correct data.length
  have short := decimal_length data.length 19 (by decide) (by simp only [longMax] at small; omega)
  have number := lengthOf_digits _ some digits (by simp only [integerLen]; omega)
    (by rwa [value])
  refine ⟨(s.strtol (lengthOf (decimal data.length))).malloc env, ?_, ?_⟩
  · rw [mallocs.malloc_errno]
    simp [Scan.strtol, number, errno]
  · simp [seeText, strtolFails, Scan.strtol, number, errno, erange]

theorem intOf_small (env : Env) (k m : Nat) (small : m < 2 ^ 32) :
    ∃ used, intOf env k (intText m) = ⟨m, used, false⟩ := by
  obtain ⟨some, digits, value⟩ := decimal_correct m
  have short := decimal_short m small
  have text : intText m = decimal m := by
    rw [intText, if_neg (by omega), Int.natAbs_natCast]
  have number := intOf_digits env k (decimal m) some digits
    (by simp only [integerLen]; omega) (by rw [value]; simp only [longMax]; omega)
  rw [value, ← text] at number
  exact ⟨_, number⟩

theorem see_int {env : Env} (mallocs : Allocates env) (n : Int) (low : 0 ≤ n) (high : n < 2 ^ 32)
    (s : Scan) (errno : s.errno = 0) : ∃ s', s'.errno = 0 ∧ see env s (.int n) = some (.int n, s') := by
  obtain ⟨m, rfl⟩ := Int.eq_ofNat_of_zero_le low
  obtain ⟨used, number⟩ := intOf_small env s.ints m (by omega)
  have stored : (toUnsigned (m : Int)).toNat = m := by
    rw [toUnsigned_natCast, Nat.mod_eq_of_lt (by omega)]
  refine ⟨((s.malloc env).strtol (intOf env s.ints (intText m))).nextInt, ?_, ?_⟩
  · simp [Scan.nextInt, Scan.strtol, mallocs.malloc_errno, number, errno]
  · simp [see, strtolFails, Scan.strtol, mallocs.malloc_errno, number, errno, erange, stored]

mutual
theorem see_parsable {env : Env} (mallocs : Allocates env) (v : Value) (parsable : Parsable v) (s : Scan)
    (errno : s.errno = 0) : ∃ s', s'.errno = 0 ∧ see env s v = some (v, s') := by
  match v with
  | .str data len =>
    simp only [Parsable] at parsable
    obtain ⟨small, rfl⟩ := parsable
    obtain ⟨s', errno', seen⟩ := seeText_small mallocs data small (s.malloc env)
      ((mallocs.malloc_errno s).trans errno)
    exact ⟨s', errno', by simp [see, seen]⟩
  | .int n =>
    simp only [Parsable] at parsable
    exact see_int mallocs n parsable.1 parsable.2 s errno
  | .list vs =>
    obtain ⟨s', errno', seen⟩ := seeItems_parsable mallocs vs
      (by simpa only [Parsable] using parsable) (s.malloc env) ((mallocs.malloc_errno s).trans errno)
    exact ⟨s', errno', by simp [see, seen]⟩
  | .dict es =>
    obtain ⟨s', errno', seen⟩ := seeEntries_parsable mallocs es
      (by simpa only [Parsable] using parsable) (s.malloc env) ((mallocs.malloc_errno s).trans errno)
    exact ⟨s', errno', by simp [see, seen]⟩

theorem seeItems_parsable {env : Env} (mallocs : Allocates env) (vs : List Value) (parsable : ParsableItems vs) (s : Scan)
    (errno : s.errno = 0) : ∃ s', s'.errno = 0 ∧ seeItems env s vs = some (vs, s') := by
  match vs with
  | [] => exact ⟨s, errno, by simp [seeItems]⟩
  | v :: vs =>
    simp only [ParsableItems] at parsable
    obtain ⟨s₁, errno₁, first⟩ := see_parsable mallocs v parsable.1 s errno
    obtain ⟨s₂, errno₂, rest⟩ := seeItems_parsable mallocs vs parsable.2 (s₁.malloc env)
      ((mallocs.malloc_errno s₁).trans errno₁)
    exact ⟨s₂, errno₂, by simp [seeItems, first, rest]⟩

theorem seeEntries_parsable {env : Env} (mallocs : Allocates env) (es : List (Bytes × Value)) (parsable : ParsableEntries es)
    (s : Scan) (errno : s.errno = 0) :
    ∃ s', s'.errno = 0 ∧ seeEntries env s es = some (es, s') := by
  match es with
  | [] => exact ⟨s, errno, by simp [seeEntries]⟩
  | (key, v) :: es =>
    simp only [ParsableEntries] at parsable
    obtain ⟨⟨free, short⟩, here, others⟩ := parsable
    obtain ⟨s₁, errno₁, read⟩ := seeText_small mallocs key
      (by simp only [keyLen, longMax] at short ⊢; omega) (s.malloc env) ((mallocs.malloc_errno s).trans errno)
    obtain ⟨s₂, errno₂, first⟩ := see_parsable mallocs v here s₁ errno₁
    obtain ⟨s₃, errno₃, rest⟩ := seeEntries_parsable mallocs es others (s₂.malloc env)
      ((mallocs.malloc_errno s₂).trans errno₂)
    exact ⟨s₃, errno₃, by simp [seeEntries, read, first, rest, cutKey_plain key free short]⟩
end

theorem encItems_reads {env : Env} (mallocs : Allocates env) (vs : List Value)
    (parsable : ParsableItems vs) (s : Scan) (errno : s.errno = 0) :
    ∃ s', Reads env .any s (encItems vs) (.items vs) s' := by
  obtain ⟨s', -, seen⟩ := seeItems_parsable mallocs vs parsable s errno
  exact ⟨s', seeItems_reads mallocs vs seen⟩

theorem encEntries_reads {env : Env} (mallocs : Allocates env) (es : List (Bytes × Value))
    (parsable : ParsableEntries es) (s : Scan) (errno : s.errno = 0) :
    ∃ s', Reads env .any s (encEntries es) (.entries es) s' := by
  obtain ⟨s', -, seen⟩ := seeEntries_parsable mallocs es parsable s errno
  exact ⟨s', seeEntries_reads mallocs es seen⟩

theorem bencode_round_trip (env : Env) (st : St) (rest : Bytes) (errno : st.errno = 0)
    (mallocs : Allocates env) :
    (∀ es, Storable (.dict es) → env.buf = enc (.dict es) ++ rest →
      ∃ enough, ∀ fuel, enough ≤ fuel → ∀ node, ∃ d st',
        bDictParse env fuel st 0 (bDictAlloc node) =
          .done (some (enc (.dict es)).length, d) st' ∧ (BValue.dict d).erase = .dict es) ∧
    (∀ vs, Storable (.list vs) → env.buf = enc (.list vs) ++ rest →
      ∃ enough, ∀ fuel, enough ≤ fuel → ∀ node, ∃ l st',
        bListParse env fuel st 0 (bListAlloc node) =
          .done (some (enc (.list vs)).length, l) st' ∧ (BValue.list l).erase = .list vs) := by
  constructor
  · intro es storable whole
    obtain ⟨s', reads⟩ := encEntries_reads mallocs es
      (storable_parsable_entries es (by simpa only [Storable] using storable)) st.toScan errno
    have here : env.At 0 (100 :: (encEntries es ++ 101 :: rest)) := by
      have start := env.at_zero
      rw [whole] at start
      simpa [enc] using start
    obtain ⟨enough, accepts⟩ := bDictParse_reads reads 0 rest here
    refine ⟨enough, fun fuel large node => ?_⟩
    obtain ⟨d, st', parsed, contents⟩ := accepts fuel large (bDictAlloc node)
    refine ⟨d, st', ?_, by simpa [BValue.erase, bDictAlloc, eraseEntries] using contents⟩
    simpa [enc] using parsed
  · intro vs storable whole
    obtain ⟨s', reads⟩ := encItems_reads mallocs vs
      (storable_parsable_items vs (by simpa only [Storable] using storable)) st.toScan errno
    have here : env.At 0 (108 :: (encItems vs ++ 101 :: rest)) := by
      have start := env.at_zero
      rw [whole] at start
      simpa [enc] using start
    obtain ⟨enough, accepts⟩ := bListParse_reads reads 0 rest here
    refine ⟨enough, fun fuel large node => ?_⟩
    obtain ⟨l, st', parsed, contents⟩ := accepts fuel large (bListAlloc node)
    refine ⟨l, st', ?_, by simpa [BValue.erase, bListAlloc, eraseItems] using contents⟩
    simpa [enc] using parsed

theorem bencode_round_trip_nested :
    (∃ enough, ∀ fuel, enough ≤ fuel → ∀ node, ∃ d st',
      bDictParse (.plentiful (ascii "d1:ali7e2::eee!")) fuel
        { errno := 0, ints := 0, mallocs := 1, freed := [], trace := [] } 0 (bDictAlloc node) =
          .done (some 14, d) st' ∧
        (BValue.dict d).erase = .dict [(ascii "a", .list [.int 7, .str (ascii ":e") 2])]) := by
  have tripped := (bencode_round_trip (.plentiful (ascii "d1:ali7e2::eee!"))
    { errno := 0, ints := 0, mallocs := 1, freed := [], trace := [] } (ascii "!") rfl
    (fun _ => rfl)).1 [(ascii "a", .list [.int 7, .str (ascii ":e") 2])]
    (by simp [Storable, StorableEntries, StorableItems, ascii, keyLen]) (by decide)
  exact tripped

end BTServer.Bencode
