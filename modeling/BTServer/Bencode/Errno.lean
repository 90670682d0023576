import BTServer.Bencode.Course
import BTServer.Bencode.Progress

set_option autoImplicit false

namespace BTServer.Bencode

open CString Outcome

def Scan.withErrno (s : Scan) (errno : Int) : Scan := { s with errno }

def St.withErrno (st : St) (errno : Int) : St := { st with errno }

/-- No length and no integer is stored as zero. The largest `long` is the other value that is
refused with some `errno`. -/
def nonzero (env : Env) : Rules where
  text _ data := data ≠ [] ∧ (data.length : Int) ≠ longMax
  key _ := True
  int k text := toUnsigned (intOf env k text).val ≠ 0

structure Laxer (s r : Scan) : Prop where
  ints : r.ints = s.ints
  mallocs : r.mallocs = s.mallocs
  errno : r.errno = 0 ∨ r.errno = s.errno

theorem Laxer.malloc {env : Env} {s r : Scan} (lax : Laxer s r) (mallocs : Allocates env) :
    Laxer (s.malloc env) (r.malloc env) := by
  refine ⟨lax.ints, congrArg (· + 1) lax.mallocs, ?_⟩
  rw [mallocs.malloc_errno, mallocs.malloc_errno]
  exact lax.errno

theorem Laxer.strtol {s r : Scan} (lax : Laxer s r) (number : Number) :
    Laxer (s.strtol number) (r.strtol number) := by
  refine ⟨lax.ints, lax.mallocs, ?_⟩
  cases range : number.range with
  | true => simp [Scan.strtol, range]
  | false => simpa [Scan.strtol, range] using lax.errno

theorem Laxer.nextInt {s r : Scan} (lax : Laxer s r) : Laxer s.nextInt r.nextInt :=
  ⟨congrArg (· + 1) lax.ints, lax.mallocs, lax.errno⟩

theorem Laxer.passes {s r : Scan} (lax : Laxer s r) {val : Int}
    (passes : strtolFails s.errno val = false) : strtolFails r.errno val = false := by
  rcases lax.errno with clear | same
  next => simp [clear]
  next => rwa [same]

theorem withErrno_laxer (s : Scan) (e : Int) : Laxer (s.withErrno e) (s.withErrno 0) :=
  ⟨rfl, rfl, .inl rfl⟩

theorem textRead_laxer {env : Env} (mallocs : Allocates env) {s s' r : Scan} {text data : Bytes}
    (lax : Laxer s r) (read : TextRead env s text data s') :
    ∃ r', TextRead env r text data r' ∧ Laxer s' r' := by
  refine ⟨(r.strtol (lengthOf text)).malloc env,
    ⟨read.free, read.value, (lax.strtol _).passes read.passes, mallocs _, rfl⟩, ?_⟩
  rw [read.after]
  exact (lax.strtol _).malloc mallocs

theorem laxer_follows {env : Env} (mallocs : Allocates env) (rules : Rules) :
    Follows env env rules rules Laxer where
  malloc _ _ lax := lax.malloc mallocs
  key _ ok := ok
  number _ _ _ lax := by rw [lax.ints]
  text _ _ _ _ _ lax ok read := ⟨ok, textRead_laxer mallocs lax read⟩
  int _ _ _ lax ok passes :=
    ⟨lax.ints ▸ ok, ((lax.malloc mallocs).strtol _).passes passes,
      ((lax.malloc mallocs).strtol _).nextInt⟩

theorem textRead_range {env : Env} {s s' : Scan} {text data : Bytes}
    (read : TextRead env s text data s') : (lengthOf text).range = false := by
  cases range : (lengthOf text).range with
  | false => rfl
  | true =>
    have passes := read.passes
    rcases strtol_range _ range with value | value
    next => simp [Scan.strtol, range, strtolFails, show (lengthOf text).val = _ from value] at passes
    next => simp [Scan.strtol, range, strtolFails, show (lengthOf text).val = _ from value] at passes

theorem textRead_nonzero {env : Env} (mallocs : Allocates env) {s s' r : Scan} {text data : Bytes}
    (lax : Laxer r s) (ok : (nonzero env).text text data) (read : TextRead env s text data s') :
    ∃ r', TextRead env r text data r' ∧ Laxer r' s' := by
  have length := read.value
  have some := List.length_pos_iff.mpr ok.1
  have max := ok.2
  refine ⟨(r.strtol (lengthOf text)).malloc env, ⟨read.free, read.value, ?_, mallocs _, rfl⟩, ?_⟩
  · apply strtolFails_other
    · omega
    · omega
    · simp only [longMin]
      omega
  · rw [read.after]
    exact (lax.strtol _).malloc mallocs

theorem nonzero_follows {env : Env} (mallocs : Allocates env) :
    Follows env env (nonzero env) (nonzero env) fun s r => Laxer r s where
  malloc _ _ lax := lax.malloc mallocs
  key _ _ := trivial
  number _ _ _ lax := by rw [lax.ints]
  text _ _ _ _ _ lax ok read := ⟨ok, textRead_nonzero mallocs lax ok read⟩
  int := by
    intro s r text lax ok passes
    refine ⟨?_, ?_, ((lax.malloc mallocs).strtol _).nextInt⟩
    · rwa [lax.ints] at ok
    · have bounds := toUnsigned_bounds (intOf env s.ints text).val
      refine strtolFails_other ?_ bounds.1 bounds.2
      intro zero
      exact ok (UInt32.toNat_inj.mp (by simpa using zero))

theorem erange_follows {env : Env} (mallocs : Allocates env) :
    Follows env env .any (nonzero env) fun s r => r = s ∧ s.errno = erange where
  malloc := by
    rintro s _ ⟨rfl, range⟩
    exact ⟨rfl, (mallocs.malloc_errno _).trans range⟩
  key _ _ := trivial
  number _ _ _ same := by rw [same.1]
  text := by
    rintro _ s' s text data ⟨rfl, range⟩ - read
    have length := read.value
    have passes := read.passes
    have set : (s.strtol (lengthOf text)).errno = erange := by simp [Scan.strtol, range]
    rw [set, length] at passes
    refine ⟨⟨?_, ?_⟩, s', read, rfl, ?_⟩
    · rintro rfl
      simp [strtolFails, erange] at passes
    · intro max
      simp [strtolFails, max] at passes
    · rw [read.after, mallocs.malloc_errno]
      exact set
  int := by
    rintro _ s text ⟨rfl, range⟩ - passes
    have set : ((s.malloc env).strtol (intOf env s.ints text)).errno = erange := by
      simp [Scan.strtol, mallocs.malloc_errno, range]
    refine ⟨?_, passes, rfl, set⟩
    intro zero
    rw [set, zero] at passes
    simp [strtolFails, erange] at passes

theorem Follows.comes {env : Env} {related : Scan → Scan → Prop}
    (follows : Follows env env .any .any related) (mallocs : Allocates env) {place place₀ : Place}
    {s s₀ : Scan} {t t₀ : Bytes} (comes : Comes env place s t place₀ s₀ t₀) (r₀ : Scan)
    (start : related s₀ r₀) : ∃ r, Comes env place r t place₀ r₀ t₀ ∧ related s r := by
  induction comes generalizing r₀ with
  | arrived => exact ⟨r₀, .arrived, start⟩
  | str node tag inside ih =>
    obtain ⟨r, comes, later⟩ := ih (r₀.malloc env) (follows.malloc _ _ start)
    exact ⟨r, .str (mallocs _) tag comes, later⟩
  | list node inside ih =>
    obtain ⟨r, comes, later⟩ := ih (r₀.malloc env) (follows.malloc _ _ start)
    exact ⟨r, .list (mallocs _) comes, later⟩
  | dict node inside ih =>
    obtain ⟨r, comes, later⟩ := ih (r₀.malloc env) (follows.malloc _ _ start)
    exact ⟨r, .dict (mallocs _) comes, later⟩
  | here front inside ih =>
    obtain ⟨r, comes, later⟩ := ih r₀ start
    exact ⟨r, .here front comes, later⟩
  | later front first rest ih =>
    obtain ⟨r₁, first', between⟩ := follows.reads mallocs mallocs first r₀ start
    obtain ⟨r, comes, later⟩ := ih (r₁.malloc env) (follows.malloc _ _ between)
    exact ⟨r, .later front first' comes, later⟩
  | retry front node rest ih => exact absurd ⟨_, node⟩ mallocs.not_failing
  | key front node inside ih =>
    obtain ⟨r, comes, later⟩ := ih (r₀.malloc env) (follows.malloc _ _ start)
    exact ⟨r, .key front (mallocs _) comes, later⟩
  | value front node read inside ih =>
    obtain ⟨-, r₁, read', between⟩ :=
      follows.text _ _ _ _ _ (follows.malloc _ _ start) trivial read
    obtain ⟨r, comes, later⟩ := ih r₁ between
    exact ⟨r, .value front (mallocs _) read' comes, later⟩
  | entry front node read first rest ih =>
    obtain ⟨-, r₁, read', between⟩ :=
      follows.text _ _ _ _ _ (follows.malloc _ _ start) trivial read
    obtain ⟨r₂, first', behind⟩ := follows.reads mallocs mallocs first r₁ between
    obtain ⟨r, comes, later⟩ := ih (r₂.malloc env) (follows.malloc _ _ behind)
    exact ⟨r, .entry front (mallocs _) read' first' comes, later⟩
  | drop front node read failed rest ih => exact absurd ⟨_, failed⟩ mallocs.not_failing

structure Steady (s₀ s : Scan) : Prop where
  ints : s₀.ints ≤ s.ints
  errno : s₀.ints = s.ints → s.errno = s₀.errno

theorem Steady.refl (s : Scan) : Steady s s := ⟨Nat.le_refl _, fun _ => rfl⟩

theorem Steady.trans {s₀ s₁ s₂ : Scan} (first : Steady s₀ s₁) (second : Steady s₁ s₂) :
    Steady s₀ s₂ := by
  have ints := first.ints
  have ints' := second.ints
  refine ⟨Nat.le_trans ints ints', fun same => ?_⟩
  rw [second.errno (by omega), first.errno (by omega)]

theorem steady_malloc {env : Env} (mallocs : Allocates env) (s : Scan) :
    Steady s (s.malloc env) :=
  ⟨Nat.le_refl _, fun _ => mallocs.malloc_errno s⟩

theorem steady_text {env : Env} (mallocs : Allocates env) {s s' : Scan} {text data : Bytes}
    (read : TextRead env s text data s') : Steady s s' := by
  rw [read.after]
  refine ⟨Nat.le_refl _, fun _ => ?_⟩
  rw [mallocs.malloc_errno]
  simp [Scan.strtol, textRead_range read]

theorem steady_reads {env : Env} (mallocs : Allocates env) {rules : Rules} {s s' : Scan} {w : Bytes} {content : Content}
    (reads : Reads env rules s w content s') : Steady s s' := by
  induction reads with
  | str node tag read ok => exact (steady_malloc mallocs _).trans (steady_text mallocs read)
  | int node free passes ok =>
    exact ⟨Nat.le_succ _, fun same => absurd same (Nat.ne_of_lt (Nat.lt_succ_self _))⟩
  | list node inside ih => exact (steady_malloc mallocs _).trans ih
  | dict node inside ih => exact (steady_malloc mallocs _).trans ih
  | nil => exact .refl _
  | cons start first rest firstIh restIh => exact (firstIh.trans (steady_malloc mallocs _)).trans restIh
  | retry start more node rest ih => exact (steady_malloc mallocs _).trans ih
  | done => exact .refl _
  | entry start node read ok plain first rest firstIh restIh =>
    have key := (steady_malloc mallocs _).trans (steady_text mallocs read)
    exact ((key.trans firstIh).trans (steady_malloc mallocs _)).trans restIh
  | drop start node read failed rest ih =>
    have key := (steady_malloc mallocs _).trans (steady_text mallocs read)
    exact (key.trans (steady_malloc mallocs _)).trans ih

theorem steady_comes {env : Env} (mallocs : Allocates env) {place place₀ : Place} {s s₀ : Scan} {t t₀ : Bytes}
    (comes : Comes env place s t place₀ s₀ t₀) : Steady s₀ s := by
  induction comes with
  | arrived => exact .refl _
  | str node tag inside ih => exact (steady_malloc mallocs _).trans ih
  | list node inside ih => exact (steady_malloc mallocs _).trans ih
  | dict node inside ih => exact (steady_malloc mallocs _).trans ih
  | here start inside ih => exact ih
  | later start first rest ih => exact ((steady_reads mallocs first).trans (steady_malloc mallocs _)).trans ih
  | retry start node rest ih => exact (steady_malloc mallocs _).trans ih
  | key start node inside ih => exact (steady_malloc mallocs _).trans ih
  | value start node read inside ih =>
    exact ((steady_malloc mallocs _).trans (steady_text mallocs read)).trans ih
  | entry start node read first rest ih =>
    have key := (steady_malloc mallocs _).trans (steady_text mallocs read)
    exact ((key.trans (steady_reads mallocs first)).trans (steady_malloc mallocs _)).trans ih
  | drop start node read failed rest ih =>
    have key := (steady_malloc mallocs _).trans (steady_text mallocs read)
    exact (key.trans (steady_malloc mallocs _)).trans ih

def StringAccepted (env : Env) (st : St) (p : Nat) : Prop :=
  ∃ q target st', bStringParse env st p (bStringAlloc 0) = .done (some q, target) st' ∧
    q ≤ env.buf.length

theorem stringAccepted_iff {env : Env} {st : St} {p : Nat} {t : Bytes} (here : env.At p t) :
    StringAccepted env st p ↔ ∃ text data rest s', t = text ++ 58 :: data ++ rest ∧
      TextRead env st.toScan text data s' := by
  constructor
  next =>
    rintro ⟨q, target, st', parsed, inside⟩
    have sat := bStringParse_sat env st p t (bStringAlloc 0) here
    rw [parsed] at sat
    rcases sat.1 q rfl with ⟨text, data, rest, found⟩ | ⟨past, -⟩
    next => exact ⟨text, data, rest, _, found.split, found.read⟩
    next => omega
  next =>
    rintro ⟨text, data, rest, s', rfl, read⟩
    obtain ⟨target, st', parsed, -⟩ := bStringParse_reads read st p rest (bStringAlloc 0) rfl here
    refine ⟨_, target, st', parsed, ?_⟩
    have length := here.length
    simp only [List.length_append] at length ⊢
    omega

def ElementAccepted (env : Env) (st : St) (p : Nat) (c : UInt8) : Prop :=
  ∃ fuel q v st', parseElement env (bListParse env fuel) (bDictParse env fuel) [] id st p c =
    .done (.parsed q v) st' ∧ q ≤ env.buf.length

theorem elementAccepted_iff {env : Env} {st : St} {p : Nat} {t : Bytes} (here : env.At p t) :
    ElementAccepted env st p (t.headD 0) ↔ ∃ w v rest s', t = w ++ rest ∧
      Reads env .any st.toScan w (.value v) s' := by
  constructor
  next =>
    rintro ⟨fuel, q, v, st', parsed, inside⟩
    have sound := parse_sound env fuel
    have sat := @parseElement_sat env fuel st p _ _ sound.list sound.dict [] id t here
    rw [parsed] at sat
    rcases sat with ⟨w, rest, split, -, -, reads⟩ | ⟨past, -⟩
    next => exact ⟨w, _, rest, _, split, reads⟩
    next => omega
  next =>
    rintro ⟨w, v, rest, s', rfl, reads⟩
    obtain ⟨enough, accepts⟩ := reads_accepts reads
    obtain ⟨x, st', parsed, -⟩ := accepts enough (Nat.le_refl _) st p rest [] id rfl here
    refine ⟨enough, _, x, st', parsed, ?_⟩
    have length := here.length
    simp only [List.length_append] at length
    omega

/-- What `errno` may be here: what the caller left, or what an integer read before leaves when its
value is out of range. -/
def MayLeave (s₀ s : Scan) (errno : Int) : Prop :=
  errno = s₀.errno ∨ (s₀.ints < s.ints ∧ errno = erange)

/-- Two parses of the buffer that differ in `errno` end alike and store the same, and whether a
string or an element is accepted is not for the values read before it to say. -/
structure InputOnly (env : Env) (st : St) (node : Nat) : Prop where
  same : ∀ e e', ∃ enough, ∀ fuel, enough ≤ fuel → ∃ next d d' st₁ st₂,
    bDictParse env fuel (st.withErrno e) 0 (bDictAlloc node) = .done (next, d) st₁ ∧
      bDictParse env fuel (st.withErrno e') 0 (bDictAlloc node) = .done (next, d') st₂ ∧
      eraseEntries d.entries = eraseEntries d'.entries
  string : ∀ e st₁ p t, Reaches env (st.withErrno e).toScan .text st₁.toScan t → env.At p t →
    ∀ e', MayLeave (st.withErrno e).toScan st₁.toScan e' →
      (StringAccepted env (st₁.withErrno e') p ↔ StringAccepted env st₁ p)
  element : ∀ e st₁ p t, Reaches env (st.withErrno e).toScan .value st₁.toScan t → env.At p t →
    ∀ e', MayLeave (st.withErrno e).toScan st₁.toScan e' →
      (ElementAccepted env (st₁.withErrno e') p (t.headD 0) ↔
        ElementAccepted env st₁ p (t.headD 0))

/-- From a cleared `errno`, nothing is stored as zero in the entries that are completed, nor in
what could be accepted behind an integer. -/
structure ZeroFree (env : Env) (s₀ : Scan) : Prop where
  completed : ∀ w rest es s', env.buf = 100 :: (w ++ rest) →
    Reads env .any s₀ w (.entries es) s' → Reads env (nonzero env) s₀ w (.entries es) s'
  string : ∀ s t, Reaches env s₀ .text s t → s₀.ints < s.ints → ∀ text data rest s',
    t = text ++ 58 :: data ++ rest → TextRead env (s.withErrno 0) text data s' →
      (nonzero env).text text data
  element : ∀ s t, Reaches env s₀ .value s t → s₀.ints < s.ints → ∀ w v rest s', t = w ++ rest →
    Reads env .any (s.withErrno 0) w (.value v) s' →
      Reads env (nonzero env) (s.withErrno 0) w (.value v) s'

theorem bDictParse_returns {env : Env} (mallocs : Allocates env) (st : St) (node fuel : Nat)
    (enough : 2 * env.buf.length + 1 ≤ fuel)
    (inside : ∀ st', bDictParse env fuel st 0 (bDictAlloc node) ≠ .fault st') :
    ∃ next d st', bDictParse env fuel st 0 (bDictAlloc node) = .done (next, d) st' ∧
      ((env.buf.head? ≠ some 100 ∧ next = none ∧ eraseEntries d.entries = []) ∨
        ∃ t w rest es s', env.buf = 100 :: t ∧
          LoopEnds env st.toScan 1 t [] next (eraseEntries d.entries) w rest es s') := by
  have ends := bDictParse_endsForward mallocs fuel enough st 0 (bDictAlloc node)
  cases result : bDictParse env fuel st 0 (bDictAlloc node) with
  | fault st' => exact absurd result (inside st')
  | crash st' =>
    rw [result] at ends
    exact ends.elim
  | timeout st' =>
    rw [result] at ends
    exact ends.elim
  | done pair st' =>
    refine ⟨pair.1, pair.2, st', rfl, ?_⟩
    obtain ⟨fuel, rfl⟩ : ∃ n, fuel = n + 1 := ⟨fuel - 1, by omega⟩
    by_cases begins : ∃ t, env.buf = 100 :: t
    next =>
      obtain ⟨t, whole⟩ := begins
      have here : env.At 0 (100 :: t) := whole ▸ env.at_zero
      have loop := bDictLoop_loopEnds mallocs fuel st 1 t (bDictAlloc node) here.next
      rw [bDictParse_enter env fuel st 0 t (bDictAlloc node) here] at result
      rw [result] at loop
      obtain ⟨w, rest, es, s', ends⟩ := loop
      exact .inr ⟨t, w, rest, es, s', whole, ends⟩
    next =>
      have other : env.buf.headD 0 ≠ 100 := fun head => begins (headD_cons head (by decide))
      simp only [bDictParse, env.at_zero.load, other, ne_eq, not_false_eq_true, if_true,
        Outcome.done.injEq] at result
      rw [← result.1]
      refine .inl ⟨?_, rfl, rfl⟩
      intro head
      exact other (by simp [head])

theorem NoEntry.laxer {env : Env} (mallocs : Allocates env) {s r : Scan} {t : Bytes}
    (lax : Laxer s r) (none : NoEntry env r t) : NoEntry env s t := by
  intro text key w after v s₁ s₂ entry
  obtain ⟨r₁, read, lax₁⟩ := textRead_laxer mallocs (lax.malloc mallocs) entry.read
  obtain ⟨r₂, first, -⟩ := (laxer_follows mallocs _).reads mallocs mallocs entry.first r₁ lax₁
  exact none text key w after v r₁ r₂ ⟨entry.split, entry.start, read, trivial, trivial, first⟩

theorem Completes.withErrno {env : Env} (mallocs : Allocates env) {s s' : Scan}
    {t w rest : Bytes} {es : List (Bytes × Value)}
    (completes : Completes env .any (s.withErrno 0) t w rest es s')
    (zeroFree : Reads env (nonzero env) (s.withErrno 0) w (.entries es) s') (e : Int) :
    ∃ r', Completes env (nonzero env) (s.withErrno e) t w rest es r' := by
  obtain ⟨r', reads, lax⟩ :=
    (nonzero_follows mallocs).reads mallocs mallocs zeroFree _ (withErrno_laxer s e)
  exact ⟨r', completes.split, reads, completes.last.laxer mallocs lax⟩

theorem Completes.any {env : Env} (mallocs : Allocates env) {rules : Rules} {s s' : Scan}
    {t w rest : Bytes} {es : List (Bytes × Value)}
    (completes : Completes env rules s t w rest es s') : Completes env .any s t w rest es s' :=
  ⟨completes.split, completes.reads.any mallocs, completes.last⟩

section

variable {env : Env} {st : St} {node : Nat}

theorem ZeroFree.same (mallocs : Allocates env)
    (inside : ∀ e fuel st', bDictParse env fuel (st.withErrno e) 0 (bDictAlloc node) ≠ .fault st')
    (zeroFree : ZeroFree env (st.withErrno 0).toScan) (e e' : Int) :
    ∃ enough, ∀ fuel, enough ≤ fuel → ∃ next d d' st₁ st₂,
      bDictParse env fuel (st.withErrno e) 0 (bDictAlloc node) = .done (next, d) st₁ ∧
        bDictParse env fuel (st.withErrno e') 0 (bDictAlloc node) = .done (next, d') st₂ ∧
        eraseEntries d.entries = eraseEntries d'.entries := by
  refine ⟨2 * env.buf.length + 1, fun fuel enough => ?_⟩
  obtain ⟨next₀, d₀, st₀, -, clear⟩ :=
    bDictParse_returns mallocs (st.withErrno 0) node fuel enough (inside 0 fuel)
  -- Every parse ends like the one from a cleared `errno`.
  have like (e : Int) : ∃ d st₁,
      bDictParse env fuel (st.withErrno e) 0 (bDictAlloc node) = .done (next₀, d) st₁ ∧
        eraseEntries d.entries = eraseEntries d₀.entries := by
    obtain ⟨next, d, st₁, run, ends⟩ :=
      bDictParse_returns mallocs (st.withErrno e) node fuel enough (inside e fuel)
    suffices next = next₀ ∧ eraseEntries d.entries = eraseEntries d₀.entries by
      exact ⟨d, st₁, this.1 ▸ run, this.2⟩
    rcases clear with ⟨other, rfl, empty⟩ | ⟨t, w, rest, es, s', whole, completes, rfl, contents⟩
    next =>
      rcases ends with ⟨-, rfl, empty'⟩ | ⟨t, -, -, -, -, whole, -⟩
      next => exact ⟨rfl, empty'.trans empty.symm⟩
      next => exact absurd (by rw [whole]; rfl) other
    next =>
      rcases ends with ⟨other, -⟩ | ⟨t', w', rest', es', s'', whole', completes', rfl, contents'⟩
      next => exact absurd (by rw [whole]; rfl) other
      next =>
        obtain rfl : t = t' := (List.cons.inj (whole.symm.trans whole')).2
        have here : env.At 0 (100 :: t) := whole ▸ env.at_zero
        have strict := zeroFree.completed w rest es s' (by rw [whole, completes.split])
          completes.reads
        obtain ⟨r', again⟩ := completes.withErrno mallocs strict e
        obtain ⟨rfl, rfl, rfl⟩ := (again.any mallocs).unique mallocs here.next completes'
        exact ⟨rfl, contents'.trans contents.symm⟩
  obtain ⟨d, st₁, run, contents⟩ := like e
  obtain ⟨d', st₂, run', contents'⟩ := like e'
  exact ⟨next₀, d, d', st₁, st₂, run, run', contents.trans contents'.symm⟩

theorem Reaches.clear (mallocs : Allocates env) {e : Int} {place : Place} {s : Scan} {t : Bytes}
    (reaches : Reaches env (st.withErrno e).toScan place s t) :
    ∃ r, Reaches env (st.withErrno 0).toScan place r t ∧ Laxer s r := by
  obtain ⟨rest, whole, comes⟩ := reaches
  obtain ⟨r, comes', lax⟩ := (laxer_follows mallocs .any).comes mallocs comes _
    (withErrno_laxer st.toScan e)
  exact ⟨r, ⟨rest, whole, comes'⟩, lax⟩

theorem Laxer.clear {s r : Scan} (lax : Laxer s r) : r.withErrno 0 = s.withErrno 0 := by
  obtain ⟨ints, mallocs, -⟩ := lax
  cases s
  cases r
  simp only [Scan.withErrno] at ints mallocs ⊢
  rw [ints, mallocs]

theorem MayLeave.cases (mallocs : Allocates env) {e e' : Int} {place : Place} {st₁ : St} {t : Bytes}
    (reaches : Reaches env (st.withErrno e).toScan place st₁.toScan t)
    (mayLeave : MayLeave (st.withErrno e).toScan st₁.toScan e') :
    st₁.withErrno e' = st₁ ∨ st.ints < st₁.ints := by
  obtain ⟨rest, whole, comes⟩ := reaches
  have steady := steady_comes mallocs comes
  rcases Nat.lt_or_eq_of_le steady.ints with behind | none
  next => exact .inr behind
  next =>
    rcases mayLeave with rfl | ⟨behind, -⟩
    next =>
      left
      have errno : st₁.errno = e' := steady.errno none
      rw [St.withErrno, ← errno]
    next => exact .inr behind

theorem stringAccepted_withErrno (mallocs : Allocates env) {st₁ : St} {p : Nat} {t : Bytes}
    (here : env.At p t)
    (strict : ∀ text data rest s', t = text ++ 58 :: data ++ rest →
      TextRead env (st₁.toScan.withErrno 0) text data s' → (nonzero env).text text data)
    {e : Int} (accepted : StringAccepted env (st₁.withErrno e) p) (e' : Int) :
    StringAccepted env (st₁.withErrno e') p := by
  obtain ⟨text, data, rest, s', split, read⟩ := (stringAccepted_iff here).mp accepted
  obtain ⟨r, read₀, -⟩ := textRead_laxer mallocs (withErrno_laxer st₁.toScan e) read
  obtain ⟨r', read', -⟩ := textRead_nonzero mallocs (withErrno_laxer st₁.toScan e')
    (strict text data rest r split read₀) read₀
  exact (stringAccepted_iff here).mpr ⟨text, data, rest, r', split, read'⟩

theorem elementAccepted_withErrno (mallocs : Allocates env) {st₁ : St} {p : Nat} {t : Bytes}
    (here : env.At p t)
    (strict : ∀ w v rest s', t = w ++ rest →
      Reads env .any (st₁.toScan.withErrno 0) w (.value v) s' →
        Reads env (nonzero env) (st₁.toScan.withErrno 0) w (.value v) s')
    {e : Int} (accepted : ElementAccepted env (st₁.withErrno e) p (t.headD 0)) (e' : Int) :
    ElementAccepted env (st₁.withErrno e') p (t.headD 0) := by
  obtain ⟨w, v, rest, s', split, reads⟩ := (elementAccepted_iff here).mp accepted
  obtain ⟨r, reads₀, -⟩ := (laxer_follows mallocs .any).reads mallocs mallocs reads _
    (withErrno_laxer st₁.toScan e)
  obtain ⟨r', reads', -⟩ := (nonzero_follows mallocs).reads mallocs mallocs
    (strict w v rest r split reads₀) _ (withErrno_laxer st₁.toScan e')
  exact (elementAccepted_iff here).mpr ⟨w, v, rest, r', split, reads'.any mallocs⟩

theorem ZeroFree.inputOnly (mallocs : Allocates env)
    (inside : ∀ e fuel st', bDictParse env fuel (st.withErrno e) 0 (bDictAlloc node) ≠ .fault st')
    (zeroFree : ZeroFree env (st.withErrno 0).toScan) : InputOnly env st node where
  same := zeroFree.same mallocs inside
  string := by
    intro e st₁ p t reaches here e' mayLeave
    rcases mayLeave.cases mallocs reaches with same | behind
    next => rw [same]
    next =>
      obtain ⟨r, reaches', lax⟩ := reaches.clear mallocs
      have strict := zeroFree.string r t reaches' (lax.ints ▸ behind)
      rw [lax.clear] at strict
      constructor
      · exact fun accepted => stringAccepted_withErrno mallocs here strict accepted st₁.errno
      · exact fun accepted =>
          stringAccepted_withErrno (e := st₁.errno) mallocs here strict accepted e'
  element := by
    intro e st₁ p t reaches here e' mayLeave
    rcases mayLeave.cases mallocs reaches with same | behind
    next => rw [same]
    next =>
      obtain ⟨r, reaches', lax⟩ := reaches.clear mallocs
      have strict := zeroFree.element r t reaches' (lax.ints ▸ behind)
      rw [lax.clear] at strict
      constructor
      · exact fun accepted => elementAccepted_withErrno mallocs here strict accepted st₁.errno
      · exact fun accepted =>
          elementAccepted_withErrno (e := st₁.errno) mallocs here strict accepted e'

theorem reads_erange (mallocs : Allocates env) {s s' : Scan} {w : Bytes} {content : Content}
    (reads : Reads env .any (s.withErrno erange) w content s') :
    ∃ r, Reads env (nonzero env) (s.withErrno 0) w content r := by
  obtain ⟨r, strict, rfl, -⟩ := (erange_follows mallocs).reads mallocs mallocs reads _ ⟨rfl, rfl⟩
  obtain ⟨r', reads', -⟩ :=
    (laxer_follows mallocs _).reads mallocs mallocs strict _ (withErrno_laxer s erange)
  exact ⟨r', reads'⟩

theorem textRead_erange (mallocs : Allocates env) {s s' : Scan} {text data : Bytes}
    (read : TextRead env (s.withErrno erange) text data s') :
    (nonzero env).text text data ∧ ∃ r, TextRead env (s.withErrno 0) text data r := by
  obtain ⟨strict, -⟩ := (erange_follows mallocs).text _ _ _ _ _ ⟨rfl, rfl⟩ trivial read
  obtain ⟨r, read', -⟩ := textRead_laxer mallocs (withErrno_laxer s erange) read
  exact ⟨strict, r, read'⟩

theorem completes_strict (mallocs : Allocates env) {s s' s'' : Scan} {p : Nat}
    {t w rest w' rest' : Bytes} {es : List (Bytes × Value)} (here : env.At p t)
    (clear : Completes env .any (s.withErrno 0) t w rest es s')
    (strict : Completes env .any (s.withErrno erange) t w' rest' es s'') :
    Completes env (nonzero env) (s.withErrno 0) t w rest es s' := by
  obtain ⟨r, reads⟩ := reads_erange mallocs strict.reads
  obtain ⟨-, x, es', rfl, more, last⟩ :=
    clear.after mallocs here strict.split (reads.any mallocs)
  have none : es' = [] := by
    have length := congrArg List.length more
    simp only [List.length_append] at length
    exact List.eq_nil_of_length_eq_zero (by omega)
  subst none
  rcases entries_cases mallocs last with ⟨rfl, -, rfl⟩ | ⟨_, _, _, _, _, _, _, _, -, -, empty, -⟩
  next =>
    rw [List.append_nil] at clear ⊢
    exact ⟨clear.split, reads, clear.last⟩
  next => cases empty

theorem InputOnly.completed (mallocs : Allocates env) (inputOnly : InputOnly env st node)
    {w rest : Bytes} {es : List (Bytes × Value)} {s' : Scan}
    (whole : env.buf = 100 :: (w ++ rest))
    (reads : Reads env .any (st.withErrno 0).toScan w (.entries es) s') :
    Reads env (nonzero env) (st.withErrno 0).toScan w (.entries es) s' := by
  obtain ⟨enough, runs⟩ := inputOnly.same 0 erange
  obtain ⟨next, d, d', st₁, st₂, run, run', same⟩ :=
    runs (enough + (2 * env.buf.length + 1)) (Nat.le_add_right _ _)
  have here : env.At 0 (100 :: (w ++ rest)) := whole ▸ env.at_zero
  have ends {e : Int} {next : Option Nat} {d : BDict} {st' : St}
      (run : bDictParse env (enough + (2 * env.buf.length + 1)) (st.withErrno e) 0
        (bDictAlloc node) = .done (next, d) st') :
      ∃ w' rest' s'', Completes env .any (st.withErrno e).toScan (w ++ rest) w' rest'
        (eraseEntries d.entries) s'' := by
    obtain ⟨next', d₁, st₃, again, returns⟩ := bDictParse_returns mallocs (st.withErrno e) node
      (enough + (2 * env.buf.length + 1)) (Nat.le_add_left _ _) (by simp [run])
    rw [run] at again
    cases again
    rcases returns with ⟨other, -⟩ | ⟨t, w', rest', es', s'', whole', completes, -, contents⟩
    next => exact absurd (by rw [whole]; rfl) other
    next =>
      obtain rfl : w ++ rest = t := (List.cons.inj (whole.symm.trans whole')).2
      rw [contents]
      exact ⟨w', rest', s'', completes⟩
  obtain ⟨w₀, rest₀, s₀, clear⟩ := ends run
  obtain ⟨w₁, rest₁, s₁, strict⟩ := ends run'
  rw [← same] at strict
  exact ((completes_strict mallocs here.next clear strict).after mallocs here.next rfl reads).1

theorem InputOnly.zeroFree (mallocs : Allocates env) (inputOnly : InputOnly env st node) :
    ZeroFree env (st.withErrno 0).toScan where
  completed _ _ _ _ whole reads := inputOnly.completed mallocs whole reads
  string := by
    intro s t reaches behind text data rest s' split read
    obtain ⟨p, here⟩ := reaches.position
    have alike := inputOnly.string 0 ⟨s, [], []⟩ p t reaches here
    have accepted := (@stringAccepted_iff env (St.withErrno ⟨s, [], []⟩ 0) p t here).mpr
      ⟨text, data, rest, s', split, read⟩
    have strict := (alike erange (.inr ⟨behind, rfl⟩)).mpr ((alike 0 (.inl rfl)).mp accepted)
    obtain ⟨text', data', rest', s'', split', read'⟩ := (stringAccepted_iff here).mp strict
    obtain ⟨ok, r, again⟩ := textRead_erange (s := s) mallocs read'
    rw [split] at here split'
    obtain ⟨rfl, rfl, -, -⟩ := text_unique read again here split'
    exact ok
  element := by
    intro s t reaches behind w v rest s' split reads
    obtain ⟨p, here⟩ := reaches.position
    have alike := inputOnly.element 0 ⟨s, [], []⟩ p t reaches here
    have accepted := (@elementAccepted_iff env (St.withErrno ⟨s, [], []⟩ 0) p t here).mpr
      ⟨w, v, rest, s', split, reads⟩
    have strict := (alike erange (.inr ⟨behind, rfl⟩)).mpr ((alike 0 (.inl rfl)).mp accepted)
    obtain ⟨w', v', rest', s'', split', reads'⟩ := (elementAccepted_iff here).mp strict
    obtain ⟨r, again⟩ := reads_erange (s := s) mallocs reads'
    rw [split] at here split'
    obtain ⟨rfl, rfl, -, rfl⟩ := value_unique reads (again.any mallocs) here split'
    exact again

theorem parse_depends_on_input_iff (env : Env) (st : St) (node : Nat) (mallocs : Allocates env)
    (inside : ∀ e fuel st', bDictParse env fuel (st.withErrno e) 0 (bDictAlloc node) ≠ .fault st') :
    InputOnly env st node ↔ ZeroFree env (st.withErrno 0).toScan :=
  ⟨fun inputOnly => inputOnly.zeroFree mallocs, fun zeroFree => zeroFree.inputOnly mallocs inside⟩

end

theorem zeroFree_of_reads {env : Env} (mallocs : Allocates env) {s₀ s₁ : Scan} {w : Bytes}
    (rest : Bytes) {es : List (Bytes × Value)} (whole : env.buf = 100 :: (w ++ 101 :: rest))
    (reads : Reads env (nonzero env) s₀ w (.entries es) s₁) : ZeroFree env s₀ := by
  have here : env.At 0 (100 :: (w ++ 101 :: rest)) := whole ▸ env.at_zero
  have readHere {place : Place} {s : Scan} {t : Bytes} (reaches : Reaches env s₀ place s t) :
      ReadHere env (nonzero env) place s t := by
    obtain ⟨t₀, whole', comes⟩ := reaches
    obtain rfl : w ++ 101 :: rest = t₀ := (List.cons.inj (whole.symm.trans whole')).2
    exact comes.readHere mallocs here.next ⟨w, es, rest, s₁, rfl, reads⟩
  constructor
  · intro w' rest' es' s' whole' reads'
    have split : w ++ 101 :: rest = w' ++ rest' := (List.cons.inj (whole.symm.trans whole')).2
    have completes : Completes env (nonzero env) s₀ (w ++ 101 :: rest) w (101 :: rest) es s₁ :=
      ⟨rfl, reads, noEntry_end _ _ _⟩
    exact (completes.after mallocs here.next split reads').1
  · intro s t reaches _ text data rest' s' split read
    obtain ⟨p, there⟩ := reaches.position
    obtain ⟨text', data', _, _, split', ok, read'⟩ := readHere reaches
    obtain ⟨_, again, -⟩ := textRead_laxer mallocs (withErrno_laxer s s.errno) read'
    rw [split] at there split'
    obtain ⟨rfl, rfl, -, -⟩ := text_unique read again there split'
    exact ok
  · intro s t reaches _ w' v rest' s' split reads'
    obtain ⟨p, there⟩ := reaches.position
    obtain ⟨w'', v', _, _, split', reads''⟩ := readHere reaches
    obtain ⟨r, again, -⟩ :=
      (laxer_follows mallocs _).reads mallocs mallocs reads'' _ (withErrno_laxer s s.errno)
    rw [split] at there split'
    obtain ⟨rfl, rfl, -, rfl⟩ := value_unique reads' (again.any mallocs) there split'
    exact again

theorem inside_of_reads {env : Env} (mallocs : Allocates env) (st : St) {s₁ : Scan} {w : Bytes}
    (rest : Bytes) {es : List (Bytes × Value)} (whole : env.buf = 100 :: (w ++ 101 :: rest))
    (reads : Reads env (nonzero env) (st.withErrno 0).toScan w (.entries es) s₁) (node : Nat)
    (e : Int) (fuel : Nat) (st' : St) :
    bDictParse env fuel (st.withErrno e) 0 (bDictAlloc node) ≠ .fault st' := by
  obtain ⟨r, reads', -⟩ :=
    (nonzero_follows mallocs).reads mallocs mallocs reads _ (withErrno_laxer st.toScan e)
  have here : env.At 0 (100 :: (w ++ 101 :: rest)) := whole ▸ env.at_zero
  obtain ⟨enough, parses⟩ := @bDictParse_reads env _ r w es (st.withErrno e) reads' 0 rest here
  obtain ⟨d, st₁, parsed, -⟩ := parses enough le_rfl (bDictAlloc node)
  exact bDictParse_inside parsed fuel st'

theorem seven_depends_on_input :
    InputOnly (.plentiful (ascii "d1:ai7ee"))
      { errno := 0, ints := 0, mallocs := 1, freed := [], trace := [] } 0 := by
  have mallocs : Allocates (.plentiful (ascii "d1:ai7ee")) := fun _ => rfl
  have key : TextRead (.plentiful (ascii "d1:ai7ee")) ⟨0, 0, 2⟩ [49] [97] _ :=
    ⟨by simp [Free], by decide +kernel, by decide +kernel, rfl, rfl⟩
  have seven : Free 101 [55] := by simp [Free]
  have stored : toUnsigned (intOf (.plentiful (ascii "d1:ai7ee")) 0 [55]).val ≠ 0 := by
    decide +kernel
  have value : Reads (.plentiful (ascii "d1:ai7ee")) (nonzero _) ⟨0, 0, 3⟩ _ _ _ :=
    .int (mallocs _) seven (by decide +kernel) stored
  have ok : (nonzero (.plentiful (ascii "d1:ai7ee"))).text [49] [97] :=
    ⟨List.cons_ne_nil _ _, by decide⟩
  have reads : Reads (.plentiful (ascii "d1:ai7ee")) (nonzero _) ⟨0, 0, 1⟩ _ (.entries _) _ :=
    .entry (by simp [NoEnd]) rfl key ok trivial value .done
  have inside := inside_of_reads mallocs ⟨⟨0, 0, 1⟩, [], []⟩ [] (by rfl) reads 0
  exact (parse_depends_on_input_iff _ _ 0 mallocs inside).mpr
    (zeroFree_of_reads mallocs [] (by rfl) reads)

def returnedBy {α : Type} : Outcome St (Option Nat × α) → Option (Option Nat)
  | .done (next, _) _ => some next
  | _ => none

theorem returnedBy_some {α : Type} {outcome : Outcome St (Option Nat × α)} {next : Option Nat}
    (returned : returnedBy outcome = some next) : ∃ x st, outcome = .done (next, x) st := by
  cases outcome with
  | done pair st =>
    simp only [returnedBy, Option.some.injEq] at returned
    exact ⟨pair.2, st, by rw [← returned]⟩
  | fault st => simp [returnedBy] at returned
  | crash st => simp [returnedBy] at returned
  | timeout st => simp [returnedBy] at returned

theorem stale_errno_refuses_zero :
    ¬ InputOnly (.plentiful (ascii "d1:ai0ee"))
      { errno := 0, ints := 0, mallocs := 1, freed := [], trace := [] } 0 := by
  intro inputOnly
  obtain ⟨enough, runs⟩ := inputOnly.same 0 erange
  obtain ⟨next, d, d', st₁, st₂, run, run', -⟩ := runs (enough + 9) (by omega)
  have clear : returnedBy (bDictParse (.plentiful (ascii "d1:ai0ee")) 9
      { errno := 0, ints := 0, mallocs := 1, freed := [], trace := [] } 0 (bDictAlloc 0)) =
        some (some 8) := by
    decide +kernel
  have stale : returnedBy (bDictParse (.plentiful (ascii "d1:ai0ee")) 9
      { errno := erange, ints := 0, mallocs := 1, freed := [], trace := [] } 0 (bDictAlloc 0)) =
        some none := by
    decide +kernel
  obtain ⟨d₁, st₃, clear⟩ := returnedBy_some clear
  obtain ⟨d₂, st₄, stale⟩ := returnedBy_some stale
  have accepted := run.symm.trans (bDictParse_more (Nat.le_add_left 9 enough) clear)
  have refused := run'.symm.trans (bDictParse_more (Nat.le_add_left 9 enough) stale)
  simp only [Outcome.done.injEq, Prod.mk.injEq] at accepted refused
  have clash := accepted.1.1.symm.trans refused.1.1
  cases clash

end BTServer.Bencode
