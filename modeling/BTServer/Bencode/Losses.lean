import BTServer.Bencode.Stuck

set_option autoImplicit false

namespace BTServer.Bencode

open CString Outcome

def Env.total (env : Env) : Env := { env with alloc := fun _ => true }

-- One allocation fails.
def Env.without (env : Env) (k : Nat) : Env := { env with alloc := fun n => n != k }

-- A reading in which every value of a dictionary gets its node, with the number of values that are
-- lost because there is no memory for the entry that would hold them.
inductive Retains (env : Env) : Scan → Bytes → Content → Nat → Scan → Prop
  | str {s s' : Scan} {text data : Bytes} (node : env.alloc s.mallocs = true)
      (tag : NoTag text) (read : TextRead env (s.malloc env) text data s') :
      Retains env s (text ++ 58 :: data) (.value (.str data (data.length % 2 ^ 32))) 0 s'
  | int {s : Scan} {text : Bytes} (node : env.alloc s.mallocs = true) (free : Free 101 text)
      (passes : strtolFails ((s.malloc env).strtol (intOf env s.ints text)).errno
        (toUnsigned (intOf env s.ints text).val).toNat = false) :
      Retains env s (105 :: (text ++ [101]))
        (.value (.int (toUnsigned (intOf env s.ints text).val).toNat)) 0
        ((s.malloc env).strtol (intOf env s.ints text)).nextInt
  | list {s s' : Scan} {w : Bytes} {vs : List Value} {n : Nat} (node : env.alloc s.mallocs = true)
      (inside : Retains env (s.malloc env) w (.items vs) n s') :
      Retains env s (108 :: (w ++ [101])) (.value (.list vs)) n s'
  | dict {s s' : Scan} {w : Bytes} {es : List (Bytes × Value)} {n : Nat}
      (node : env.alloc s.mallocs = true)
      (inside : Retains env (s.malloc env) w (.entries es) n s') :
      Retains env s (100 :: (w ++ [101])) (.value (.dict es)) n s'
  | nil {s : Scan} : Retains env s [] (.items []) 0 s
  | cons {s s₁ s₂ : Scan} {w ws : Bytes} {v : Value} {vs : List Value} {n m : Nat}
      (start : NoEnd w) (entry : env.alloc s₁.mallocs = true)
      (first : Retains env s w (.value v) n s₁)
      (rest : Retains env (s₁.malloc env) ws (.items vs) m s₂) :
      Retains env s (w ++ ws) (.items (v :: vs)) (n + m) s₂
  | lost {s s₁ s₂ : Scan} {w ws : Bytes} {v : Value} {vs : List Value} {n m : Nat}
      (start : NoEnd w) (failed : env.alloc s₁.mallocs = false)
      (first : Retains env s w (.value v) n s₁)
      (rest : Retains env (s₁.malloc env) ws (.items vs) m s₂) :
      Retains env s (w ++ ws) (.items vs) (m + 1) s₂
  | retry {s s' : Scan} {w : Bytes} {vs : List Value} {n : Nat} (start : NoEnd w) (more : w ≠ [])
      (node : env.alloc s.mallocs = false) (rest : Retains env (s.malloc env) w (.items vs) n s') :
      Retains env s w (.items vs) n s'
  | done {s : Scan} : Retains env s [] (.entries []) 0 s
  | entry {s s₁ s₂ s₃ : Scan} {text key w ws : Bytes} {v : Value} {es : List (Bytes × Value)}
      {n m : Nat} (start : NoEnd text) (node : env.alloc s.mallocs = true)
      (read : TextRead env (s.malloc env) text key s₁) (entry : env.alloc s₂.mallocs = true)
      (first : Retains env s₁ w (.value v) n s₂)
      (rest : Retains env (s₂.malloc env) ws (.entries es) m s₃) :
      Retains env s (text ++ 58 :: key ++ w ++ ws) (.entries ((cutKey key, v) :: es)) (n + m) s₃
  | lostEntry {s s₁ s₂ s₃ : Scan} {text key w ws : Bytes} {v : Value} {es : List (Bytes × Value)}
      {n m : Nat} (start : NoEnd text) (node : env.alloc s.mallocs = true)
      (read : TextRead env (s.malloc env) text key s₁) (failed : env.alloc s₂.mallocs = false)
      (first : Retains env s₁ w (.value v) n s₂)
      (rest : Retains env (s₂.malloc env) ws (.entries es) m s₃) :
      Retains env s (text ++ 58 :: key ++ w ++ ws) (.entries es) (m + 1) s₃

mutual
def Value.size : Value → Nat
  | .str _ _ => 1
  | .int _ => 1
  | .list items => 1 + sizeItems items
  | .dict entries => 1 + sizeEntries entries

def sizeItems : List Value → Nat
  | [] => 0
  | v :: vs => v.size + sizeItems vs

def sizeEntries : List (Bytes × Value) → Nat
  | [] => 0
  | (_, v) :: es => v.size + sizeEntries es
end

theorem size_pos (v : Value) : 0 < v.size := by
  cases v <;> simp only [Value.size] <;> omega

/-- The second content has what the first has and the `n` values that it has lost. -/
def Fuller (n : Nat) : Content → Content → Prop
  | .value v, .value v' => v.size + n ≤ v'.size ∧ (n = 0 → v = v')
  | .items vs, .items vs' => sizeItems vs + n ≤ sizeItems vs' ∧ (n = 0 → vs = vs')
  | .entries es, .entries es' => sizeEntries es + n ≤ sizeEntries es' ∧ (n = 0 → es = es')
  | _, _ => False

theorem fuller_value {n : Nat} {v : Value} {c : Content} (fuller : Fuller n (.value v) c) :
    ∃ v', c = .value v' ∧ v.size + n ≤ v'.size ∧ (n = 0 → v = v') := by
  cases c with
  | value v' => exact ⟨v', rfl, fuller⟩
  | items vs' => exact fuller.elim
  | entries es' => exact fuller.elim

theorem fuller_items {n : Nat} {vs : List Value} {c : Content} (fuller : Fuller n (.items vs) c) :
    ∃ vs', c = .items vs' ∧ sizeItems vs + n ≤ sizeItems vs' ∧ (n = 0 → vs = vs') := by
  cases c with
  | value v' => exact fuller.elim
  | items vs' => exact ⟨vs', rfl, fuller⟩
  | entries es' => exact fuller.elim

theorem fuller_entries {n : Nat} {es : List (Bytes × Value)} {c : Content}
    (fuller : Fuller n (.entries es) c) :
    ∃ es', c = .entries es' ∧ sizeEntries es + n ≤ sizeEntries es' ∧ (n = 0 → es = es') := by
  cases c with
  | value v' => exact fuller.elim
  | items vs' => exact fuller.elim
  | entries es' => exact ⟨es', rfl, fuller⟩

-- Past a failed allocation `errno` is set in the one run and not in the other.
structure Stricter (s s₀ : Scan) : Prop where
  errno : s₀.errno = s.errno ∨ s.errno ≠ 0
  ints : s₀.ints = s.ints

theorem Stricter.skip {s s₀ : Scan} (strict : Stricter s s₀) (env : Env) :
    Stricter (s.malloc env) s₀ := by
  refine ⟨?_, strict.ints⟩
  cases node : env.alloc s.mallocs with
  | true =>
    rw [s.malloc_errno node]
    exact strict.errno
  | false =>
    right
    simp [Scan.malloc, node, enomem]

theorem Stricter.malloc {s s₀ : Scan} (strict : Stricter s s₀) (env : Env) :
    Stricter (s.malloc env) (s₀.malloc env.total) :=
  ⟨(strict.skip env).errno, strict.ints⟩

theorem Stricter.strtol {s s₀ : Scan} (strict : Stricter s s₀) (number : Number) :
    Stricter (s.strtol number) (s₀.strtol number) := by
  refine ⟨?_, strict.ints⟩
  cases range : number.range with
  | true => simp [Scan.strtol, range]
  | false => simpa [Scan.strtol, range] using strict.errno

theorem Stricter.nextInt {s s₀ : Scan} (strict : Stricter s s₀) :
    Stricter s.nextInt s₀.nextInt :=
  ⟨strict.errno, congrArg (· + 1) strict.ints⟩

theorem Stricter.passes {s s₀ : Scan} (strict : Stricter s s₀) {val : Int} (max : val ≠ longMax)
    (min : val ≠ longMin) (passes : strtolFails s.errno val = false) :
    strtolFails s₀.errno val = false := by
  rcases strict.errno with same | set
  next => rwa [same]
  next =>
    refine strtolFails_other ?_ max min
    rintro rfl
    simp [strtolFails, set] at passes

theorem textRead_total {env : Env} {s s₀ s' : Scan} {text data : Bytes} (strict : Stricter s s₀)
    (short : (data.length : Int) < longMax) (read : TextRead env s text data s') :
    ∃ s₀', TextRead env.total s₀ text data s₀' ∧ Stricter s' s₀' := by
  obtain ⟨free, value, passes, bytes, rfl⟩ := read
  have strict' := strict.strtol (lengthOf text)
  refine ⟨_, ⟨free, value, strict'.passes ?_ ?_ passes, rfl, rfl⟩, strict'.malloc env⟩
  · omega
  · simp only [longMin]
    omega

def TotalReading (env : Env) (s : Scan) (w : Bytes) (c : Content) (n : Nat) (s' : Scan) : Prop :=
  (w.length : Int) < longMax → ∀ s₀, Stricter s s₀ →
    ∃ c' s₀', Reads env.total .any s₀ w c' s₀' ∧ Stricter s' s₀' ∧ Fuller n c c'

theorem total_cons {env : Env} {s s₁ s₂ s₀ : Scan} {w ws : Bytes} {v : Value} {vs : List Value}
    {n m : Nat} (start : NoEnd w) (first : TotalReading env s w (.value v) n s₁)
    (rest : TotalReading env (s₁.malloc env) ws (.items vs) m s₂)
    (short : ((w ++ ws).length : Int) < longMax) (strict : Stricter s s₀) :
    ∃ v' vs' s₀', Reads env.total .any s₀ (w ++ ws) (.items (v' :: vs')) s₀' ∧
      Stricter s₂ s₀' ∧ Fuller n (.value v) (.value v') ∧ Fuller m (.items vs) (.items vs') := by
  simp only [List.length_append] at short
  obtain ⟨c₁, s₁', reads₁, strict₁, fuller₁⟩ := first (by omega) s₀ strict
  obtain ⟨v', rfl, more₁⟩ := fuller_value fuller₁
  obtain ⟨c₂, s₂', reads₂, strict₂, fuller₂⟩ := rest (by omega) _ (strict₁.malloc env)
  obtain ⟨vs', rfl, more₂⟩ := fuller_items fuller₂
  exact ⟨v', vs', s₂', .cons start reads₁ reads₂, strict₂, more₁, more₂⟩

theorem total_entry {env : Env} {s s₁ s₂ s₃ s₀ : Scan} {text key w ws : Bytes} {v : Value}
    {es : List (Bytes × Value)} {n m : Nat} (start : NoEnd text)
    (read : TextRead env (s.malloc env) text key s₁) (first : TotalReading env s₁ w (.value v) n s₂)
    (rest : TotalReading env (s₂.malloc env) ws (.entries es) m s₃)
    (short : ((text ++ 58 :: key ++ w ++ ws).length : Int) < longMax) (strict : Stricter s s₀) :
    ∃ v' es' s₀', Reads env.total .any s₀ (text ++ 58 :: key ++ w ++ ws)
        (.entries ((cutKey key, v') :: es')) s₀' ∧ Stricter s₃ s₀' ∧
      Fuller n (.value v) (.value v') ∧ Fuller m (.entries es) (.entries es') := by
  simp only [List.length_append, List.length_cons] at short
  obtain ⟨s₁', read', strict₁⟩ := textRead_total (strict.malloc env) (by omega) read
  obtain ⟨c₂, s₂', reads₂, strict₂, fuller₂⟩ := first (by omega) s₁' strict₁
  obtain ⟨v', rfl, more₂⟩ := fuller_value fuller₂
  obtain ⟨c₃, s₃', reads₃, strict₃, fuller₃⟩ := rest (by omega) _ (strict₂.malloc env)
  obtain ⟨es', rfl, more₃⟩ := fuller_entries fuller₃
  exact ⟨v', es', s₃', .entry start rfl read' trivial trivial reads₂ reads₃, strict₃, more₂, more₃⟩

theorem retains_total {env : Env} {s s' : Scan} {w : Bytes} {c : Content} {n : Nat}
    (retains : Retains env s w c n s') : TotalReading env s w c n s' := by
  induction retains with
  | str node tag read =>
    intro short s₀ strict
    simp only [List.length_append, List.length_cons] at short
    obtain ⟨s₀', read', strict'⟩ := textRead_total (strict.malloc env) (by omega) read
    exact ⟨_, s₀', .str rfl tag read' trivial, strict', Nat.le_refl _, fun _ => rfl⟩
  | @int s text node free passes =>
    intro short s₀ strict
    have strict' := (strict.malloc env).strtol (intOf env s.ints text)
    have number : intOf env.total s₀.ints text = intOf env s.ints text := by
      rw [strict.ints]
      rfl
    have bounds := toUnsigned_bounds (intOf env s.ints text).val
    have passes' := strict'.passes bounds.1 bounds.2 passes
    rw [← number] at passes'
    refine ⟨_, _, .int rfl free passes' trivial, ?_, ?_⟩
    · rw [number]
      exact strict'.nextInt
    · rw [number]
      exact ⟨Nat.le_refl _, fun _ => rfl⟩
  | list node inside ih =>
    intro short s₀ strict
    simp only [List.length_append, List.length_cons] at short
    obtain ⟨c', s₀', reads, strict', fuller⟩ := ih (by omega) _ (strict.malloc env)
    obtain ⟨vs', rfl, size, equal⟩ := fuller_items fuller
    refine ⟨_, s₀', .list rfl reads, strict', ?_, fun none => by rw [equal none]⟩
    simp only [Value.size]
    omega
  | dict node inside ih =>
    intro short s₀ strict
    simp only [List.length_append, List.length_cons] at short
    obtain ⟨c', s₀', reads, strict', fuller⟩ := ih (by omega) _ (strict.malloc env)
    obtain ⟨es', rfl, size, equal⟩ := fuller_entries fuller
    refine ⟨_, s₀', .dict rfl reads, strict', ?_, fun none => by rw [equal none]⟩
    simp only [Value.size]
    omega
  | nil => exact fun _ s₀ strict => ⟨_, s₀, .nil, strict, Nat.le_refl _, fun _ => rfl⟩
  | cons start entry first rest firstIh restIh =>
    intro short s₀ strict
    obtain ⟨v', vs', s₀', reads, strict', ⟨size₁, equal₁⟩, size₂, equal₂⟩ :=
      total_cons start firstIh restIh short strict
    refine ⟨_, s₀', reads, strict', ?_, ?_⟩
    · simp only [sizeItems]
      omega
    · intro none
      rw [equal₁ (by omega), equal₂ (by omega)]
  | lost start failed first rest firstIh restIh =>
    intro short s₀ strict
    obtain ⟨v', vs', s₀', reads, strict', -, size, -⟩ :=
      total_cons start firstIh restIh short strict
    refine ⟨_, s₀', reads, strict', ?_, by omega⟩
    have some := size_pos v'
    simp only [sizeItems]
    omega
  | retry start more node rest ih => exact fun short s₀ strict => ih short s₀ (strict.skip env)
  | done => exact fun _ s₀ strict => ⟨_, s₀, .done, strict, Nat.le_refl _, fun _ => rfl⟩
  | entry start node read entry first rest firstIh restIh =>
    intro short s₀ strict
    obtain ⟨v', es', s₀', reads, strict', ⟨size₁, equal₁⟩, size₂, equal₂⟩ :=
      total_entry start read firstIh restIh short strict
    refine ⟨_, s₀', reads, strict', ?_, ?_⟩
    · simp only [sizeEntries]
      omega
    · intro none
      rw [equal₁ (by omega), equal₂ (by omega)]
  | lostEntry start node read failed first rest firstIh restIh =>
    intro short s₀ strict
    obtain ⟨v', es', s₀', reads, strict', -, size, -⟩ :=
      total_entry start read firstIh restIh short strict
    refine ⟨_, s₀', reads, strict', ?_, by omega⟩
    have some := size_pos v'
    simp only [sizeEntries]
    omega

/-- The parse ends, and what it returns is what it returns with memory for everything. -/
structure SafeUnderFailure (env : Env) (st : St) (node : Nat) : Prop where
  ends : Ends (bDictParse env · st 0 (bDictAlloc node))
  faithful : ∀ fuel q d st', bDictParse env fuel st 0 (bDictAlloc node) = .done (some q, d) st' →
    ∃ fuel' d' st'', bDictParse env.total fuel' st 0 (bDictAlloc node) = .done (some q, d') st'' ∧
      (BValue.dict d').erase = (BValue.dict d).erase

-- Only the nodes of list items fail, and each of them only for a while. Any other failure in a
-- reading that goes to the end of the dictionary loses an entry or takes a value for a key.
structure LosesNothing (env : Env) (s : Scan) : Prop where
  free : ∀ rest, env.buf = 100 :: rest → ¬ Stuck env .entries s rest
  kept : ∀ w rest es s', env.buf = 100 :: (w ++ 101 :: rest) →
    Reads env .any s w (.entries es) s' → Retains env s w (.entries es) 0 s'

/-- No value is taken for a key. -/
def KeepsKeys (env : Env) (s : Scan) : Prop :=
  ∀ w rest es s', env.buf = 100 :: (w ++ 101 :: rest) → Reads env .any s w (.entries es) s' →
    ∃ n, Retains env s w (.entries es) n s'

theorem stuck_failing {env : Env} {place : Place} {s : Scan} {t : Bytes}
    (stuck : Stuck env place s t) : Failing env := by
  induction stuck with
  | never start fails => exact ⟨_, fails _ (Nat.le_refl _)⟩
  | list node inside ih => exact ih
  | dict node inside ih => exact ih
  | here start inside ih => exact ih
  | later start first rest ih => exact ih
  | retry start node rest ih => exact ih
  | value start node read inside ih => exact ih
  | entry start node read first rest ih => exact ih
  | drop start node read failed rest ih => exact ih

theorem allocates_retains {env : Env} (mallocs : Allocates env) {s s' : Scan} {w : Bytes}
    {c : Content} (reads : Reads env .any s w c s') : Retains env s w c 0 s' := by
  induction reads with
  | str node tag read ok => exact .str node tag read
  | int node free passes ok => exact .int node free passes
  | list node inside ih => exact .list node ih
  | dict node inside ih => exact .dict node ih
  | nil => exact .nil
  | cons start first rest firstIh restIh =>
    rw [if_pos (mallocs _)]
    exact .cons start (mallocs _) firstIh restIh
  | retry start more node rest ih => simp [mallocs _] at node
  | done => exact .done
  | entry start node read ok plain first rest firstIh restIh =>
    rw [if_pos (mallocs _)]
    exact .entry start node read (mallocs _) firstIh restIh
  | drop start node read failed rest ih => simp [mallocs _] at failed

theorem losesNothing_of_allocates {env : Env} (mallocs : Allocates env) (s : Scan) :
    LosesNothing env s where
  free _ _ stuck := mallocs.not_failing (stuck_failing stuck)
  kept _ _ _ _ _ reads := allocates_retains mallocs reads

theorem Retains.reads {env : Env} {s s' : Scan} {w : Bytes} {c : Content} {n : Nat}
    (retains : Retains env s w c n s') : Reads env .any s w c s' := by
  induction retains with
  | str node tag read => exact .str node tag read trivial
  | int node free passes => exact .int node free passes trivial
  | list node inside ih => exact .list node ih
  | dict node inside ih => exact .dict node ih
  | nil => exact .nil
  | cons start entry first rest firstIh restIh =>
    have reads := Reads.cons start firstIh restIh
    rwa [if_pos entry] at reads
  | lost start failed first rest firstIh restIh =>
    have reads := Reads.cons start firstIh restIh
    rwa [if_neg (by simp [failed])] at reads
  | retry start more node rest ih => exact .retry start more node ih
  | done => exact .done
  | entry start node read entry first rest firstIh restIh =>
    have reads := Reads.entry start node read trivial trivial firstIh restIh
    rwa [if_pos entry] at reads
  | lostEntry start node read failed first rest firstIh restIh =>
    have reads := Reads.entry start node read trivial trivial firstIh restIh
    rwa [if_neg (by simp [failed])] at reads

theorem losesNothing_of_retains {env : Env} {st : St} {w rest : Bytes} {es : List (Bytes × Value)}
    {s' : Scan} (whole : env.buf = 100 :: (w ++ 101 :: rest))
    (retains : Retains env st.toScan w (.entries es) 0 s') : LosesNothing env st.toScan := by
  constructor
  · apply (bDictParse_ends_iff env st (bDictAlloc 0)).mp
    have here : env.At 0 (100 :: (w ++ 101 :: rest)) := whole ▸ env.at_zero
    obtain ⟨enough, parses⟩ := bDictParse_reads retains.reads 0 rest here
    obtain ⟨d, st', parsed, -⟩ := parses enough (Nat.le_refl _) (bDictAlloc 0)
    exact ⟨enough, fun stopped => by simp [parsed]⟩
  · intro w' rest' es' s'' whole' reads
    obtain ⟨rfl, rfl, rfl⟩ := reading_unique whole whole' retains.reads reads
    exact retains

theorem retains_parsed {env : Env} {st : St} {w rest : Bytes} {es : List (Bytes × Value)}
    {s' : Scan} {n : Nat} (whole : env.buf = 100 :: (w ++ 101 :: rest))
    (retains : Retains env st.toScan w (.entries es) n s') (node : Nat) :
    ∃ es' fuel d st', bDictParse env.total fuel st 0 (bDictAlloc node) =
        .done (some (0 + (w.length + 2)), d) st' ∧ eraseEntries d.entries = es' ∧
      sizeEntries es + n ≤ sizeEntries es' ∧ (n = 0 → es = es') := by
  have short : (w.length : Int) < longMax := by
    have fits := env.fits
    simp only [whole, List.length_cons, List.length_append] at fits
    simp only [longMax]
    omega
  obtain ⟨c, s₀, reads, -, fuller⟩ := retains_total retains short st.toScan ⟨.inl rfl, rfl⟩
  obtain ⟨es', rfl, size, equal⟩ := fuller_entries fuller
  have here : env.total.At 0 (100 :: (w ++ 101 :: rest)) := whole ▸ env.total.at_zero
  obtain ⟨fuel, parses⟩ := bDictParse_reads reads 0 rest here
  obtain ⟨d, st', parsed, contents⟩ := parses fuel (Nat.le_refl _) (bDictAlloc node)
  exact ⟨es', fuel, d, st', parsed, contents, size, equal⟩

theorem safe_of_losesNothing {env : Env} {st : St} {node : Nat}
    (nothing : LosesNothing env st.toScan) : SafeUnderFailure env st node := by
  constructor
  · exact (bDictParse_ends_iff env st _).mpr nothing.free
  · intro fuel q d st' accepted
    have sound := (parse_sound env fuel).dict st 0 env.buf (bDictAlloc node) env.at_zero
    rw [accepted] at sound
    obtain ⟨w, rest, es, whole, rfl, reads, contents⟩ := sound.1 q rfl
    obtain ⟨es', fuel', d', st'', parsed, contents', -, equal⟩ :=
      retains_parsed whole (nothing.kept w rest es _ whole reads) node
    change eraseEntries d.entries = [] ++ es at contents
    refine ⟨fuel', d', st'', parsed, ?_⟩
    simp only [BValue.erase]
    rw [contents, contents', equal rfl]
    rfl

theorem SafeUnderFailure.same {env : Env} {st st₁ st₂ : St} {node fuel fuel' q : Nat} {d d' : BDict}
    {next : Option Nat} (safe : SafeUnderFailure env st node)
    (parsed : bDictParse env fuel st 0 (bDictAlloc node) = .done (some q, d) st₁)
    (total : bDictParse env.total fuel' st 0 (bDictAlloc node) = .done (next, d') st₂) :
    eraseEntries d'.entries = eraseEntries d.entries := by
  obtain ⟨fuel'', d'', st₃, parsed', same⟩ := safe.faithful fuel q d st₁ parsed
  have once := bDictParse_more (Nat.le_max_left fuel' fuel'') total
  rw [bDictParse_more (Nat.le_max_right fuel' fuel'') parsed'] at once
  cases once
  simpa only [BValue.erase, Value.dict.injEq] using same

theorem losesNothing_of_safe {env : Env} {st : St} {node : Nat} (keys : KeepsKeys env st.toScan)
    (safe : SafeUnderFailure env st node) : LosesNothing env st.toScan := by
  constructor
  · exact (bDictParse_ends_iff env st _).mp safe.ends
  · intro w rest es s' whole reads
    obtain ⟨n, retains⟩ := keys w rest es s' whole reads
    have here : env.At 0 (100 :: (w ++ 101 :: rest)) := whole ▸ env.at_zero
    obtain ⟨fuel, parses⟩ := bDictParse_reads reads 0 rest here
    obtain ⟨d, st₁, parsed, contents⟩ := parses fuel (Nat.le_refl _) (bDictAlloc node)
    obtain ⟨es', fuel', d', st₂, total, contents', size, -⟩ := retains_parsed whole retains node
    have same := safe.same parsed total
    change eraseEntries d.entries = [] ++ es at contents
    rw [contents, contents', List.nil_append] at same
    subst same
    obtain rfl : n = 0 := by omega
    exact retains

/-- Where nothing is lost, a failed allocation is no silent success. Unless some value is taken for
a key, it is one wherever something is lost. -/
theorem allocation_failure_safe_iff (env : Env) (st : St) (node : Nat) :
    (LosesNothing env st.toScan → SafeUnderFailure env st node) ∧
      (KeepsKeys env st.toScan → SafeUnderFailure env st node → LosesNothing env st.toScan) :=
  ⟨safe_of_losesNothing, losesNothing_of_safe⟩

/-- In `d1:ali1eee` the node of the list's item fails at first. -/
theorem allocation_failure_safe_after_retry :
    SafeUnderFailure (Env.without (.plentiful (ascii "d1:ali1eee")) 4)
      { errno := 0, ints := 0, mallocs := 1, freed := [], trace := [] } 0 := by
  have key : TextRead (Env.without (.plentiful (ascii "d1:ali1eee")) 4) ⟨0, 0, 2⟩ [49] [97] _ :=
    ⟨by simp [Free], by decide +kernel, by decide +kernel, rfl, rfl⟩
  have one : Free 101 [49] := by simp [Free]
  -- The second try for the item runs with `ENOMEM` set.
  have item : Retains (Env.without (.plentiful (ascii "d1:ali1eee")) 4) ⟨enomem, 0, 5⟩ _ _ _ _ :=
    .int rfl one (by decide +kernel)
  have items := Retains.retry (s := ⟨0, 0, 4⟩) (by simp [NoEnd]) (by simp) rfl
    (.cons (by simp [NoEnd]) rfl item .nil)
  have entries := Retains.entry (s := ⟨0, 0, 1⟩) (by simp [NoEnd]) rfl key rfl (.list rfl items)
    .done
  apply (allocation_failure_safe_iff _ _ _).1
  exact @losesNothing_of_retains _ _ _ [] _ _ rfl entries

def entriesAt : Outcome St (Option Nat × BDict) → Option (Nat × Nat)
  | .done (some q, d) _ => some (q, (eraseEntries d.entries).length)
  | _ => none

theorem entriesAt_some {outcome : Outcome St (Option Nat × BDict)} {q n : Nat}
    (accepted : entriesAt outcome = some (q, n)) :
    ∃ d st, outcome = .done (some q, d) st ∧ (eraseEntries d.entries).length = n := by
  unfold entriesAt at accepted
  split at accepted
  next q' d st =>
    cases accepted
    exact ⟨d, st, rfl, rfl⟩
  next => simp at accepted

/-- In `d1:a1:be` there is no memory for the only entry. -/
theorem lost_entry_accepted :
    ¬ SafeUnderFailure (Env.without (.plentiful (ascii "d1:a1:be")) 5)
      { errno := 0, ints := 0, mallocs := 1, freed := [], trace := [] } 0 := by
  intro safe
  have short : entriesAt (bDictParse (Env.without (.plentiful (ascii "d1:a1:be")) 5) 5
      { errno := 0, ints := 0, mallocs := 1, freed := [], trace := [] } 0 (bDictAlloc 0)) =
      some (8, 0) := by decide +kernel
  have full : entriesAt (bDictParse (.plentiful (ascii "d1:a1:be")) 5
      { errno := 0, ints := 0, mallocs := 1, freed := [], trace := [] } 0 (bDictAlloc 0)) =
      some (8, 1) := by decide +kernel
  obtain ⟨d, st, parsed, empty⟩ := entriesAt_some short
  obtain ⟨d', st', total, one⟩ := entriesAt_some full
  rw [safe.same parsed total, empty] at one
  contradiction

end BTServer.Bencode
