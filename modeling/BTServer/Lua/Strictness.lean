import BTServer.Lua.Grammar
import BTServer.Shared.Keyed

set_option autoImplicit false

namespace BTServer.Lua

open Bencode CString Keyed Outcome

def Number.value : Number → Option ℚ
  | .int n => some n
  | .float (.finite q) => some q
  | .float (.infinity _) => none

-- The value that a table has for a tree: an item under each index, and under each key what its last
-- entry says. Nothing else is in the table.
inductive Holds : Value → LuaValue → Prop
  | str {data : Bytes} {len : Nat} : Holds (.str data len) (.string data)
  | int {n : Int} {number : Number} (exact : number.value = some n) :
      Holds (.int n) (.number number)
  | list {vs : List Value} {t : Table}
      (indices : ∀ key, (t.lookup key).isSome ↔ ∃ i < vs.length, key = .index i)
      (each : ∀ i v x, vs[i]? = some v → t.lookup (.index i) = some x → Holds v x) :
      Holds (.list vs) (.table t)
  | dict {es : List (Bytes × Value)} {t : Table}
      (keys : ∀ key, (t.lookup key).isSome ↔ ∃ name ∈ es.map Prod.fst, key = .string name)
      (each : ∀ name v x, last name some es = some v → t.lookup (.string name) = some x →
        Holds v x) :
      Holds (.dict es) (.table t)

/-- The integers that are not overwritten are numbers of Lua: 64 bits are enough, or a double is the
integer itself. -/
inductive KeptExactly : Value → Prop
  | str {data : Bytes} {len : Nat} : KeptExactly (.str data len)
  | int {n : Int} (exact : (numberOf n).value = some n) : KeptExactly (.int n)
  | list {vs : List Value} (each : ∀ v ∈ vs, KeptExactly v) : KeptExactly (.list vs)
  | dict {es : List (Bytes × Value)} (each : ∀ name v, last name some es = some v → KeptExactly v) :
      KeptExactly (.dict es)

theorem lookup_replaced (t : Table) (key key' : Key) (v : LuaValue) :
    (t.map fun e => if e.1 = key then (key, v) else e).lookup key' =
      if key' = key then (t.lookup key).map fun _ => v else t.lookup key' := by
  induction t with
  | nil => simp
  | cons e t ih =>
    by_cases replaced : e.1 = key
    next =>
      rw [List.map_cons, if_pos replaced, List.lookup_cons, List.lookup_cons, List.lookup_cons, ih,
        replaced]
      by_cases same : key' = key
      next => simp [same]
      next => simp [same, beq_false_of_ne same]
    next =>
      rw [List.map_cons, if_neg replaced, List.lookup_cons, List.lookup_cons, List.lookup_cons, ih]
      by_cases same : key' = key
      next =>
        have other : (key == e.1) = false := by simpa using fun same => replaced same.symm
        simp [same, other]
      next => simp [same]

theorem lookup_isSome_iff (t : Table) (key : Key) :
    (t.lookup key).isSome ↔ key ∈ t.map Prod.fst := by
  simp only [List.lookup_isSome_iff, List.mem_map, beq_iff_eq]
  exact ⟨fun ⟨e, inside, same⟩ => ⟨e, inside, same.symm⟩,
    fun ⟨e, inside, same⟩ => ⟨e, inside, same.symm⟩⟩

theorem lookup_setIndex (t : Table) (key key' : Key) (v : LuaValue) :
    (setIndex t key v).lookup key' = if key' = key then some v else t.lookup key' := by
  unfold setIndex
  split
  next present =>
    obtain ⟨old, found⟩ := Option.isSome_iff_exists.mp ((lookup_isSome_iff t key).mpr present)
    rw [lookup_replaced, found]
    rfl
  next absent =>
    have none : t.lookup key = none := by
      rw [← Option.not_isSome_iff_eq_none, lookup_isSome_iff]
      exact absent
    rw [List.lookup_append, List.lookup_cons, List.lookup_nil]
    by_cases same : key' = key
    next => simp [same, none]
    next => simp [same, beq_false_of_ne same]

theorem lookup_takenItems (vs : List Value) (i : Nat) (t : Table) (key : Key) :
    (takenItems i t vs).lookup key = match key with
      | .index j => ((if i ≤ j then vs[j - i]? else none).map taken).or (t.lookup (.index j))
      | .string name => t.lookup (.string name) := by
  induction vs generalizing i t with
  | nil =>
    rw [takenItems]
    cases key <;> simp
  | cons v vs ih =>
    rw [takenItems, ih]
    cases key with
    | string name => simp [lookup_setIndex]
    | index j =>
      dsimp only
      rw [lookup_setIndex]
      rcases Nat.lt_trichotomy i j with later | rfl | before
      next =>
        have next : j - i = (j - (i + 1)) + 1 := by omega
        have other : Key.index j ≠ .index i := by simpa using Nat.ne_of_gt later
        rw [if_neg other, if_pos (Nat.succ_le_of_lt later), if_pos (Nat.le_of_lt later), next,
          List.getElem?_cons_succ]
      next => simp
      next =>
        have other : Key.index j ≠ .index i := by simpa using Nat.ne_of_lt before
        rw [if_neg other, if_neg (by omega), if_neg (by omega)]

theorem last_cons (name key : Bytes) (v : Value) (es : List (Bytes × Value)) :
    last name some ((key, v) :: es) =
      (last name some es).or (if key = name then some v else none) := by
  rw [show (key, v) :: es = [(key, v)] ++ es from rfl, last_append]
  congr 1
  by_cases same : key = name
  next => simp [last, under, same]
  next => simp [last, under, same]

theorem lookup_takenEntries (es : List (Bytes × Value)) (t : Table) (key : Key) :
    (takenEntries t es).lookup key = match key with
      | .index j => t.lookup (.index j)
      | .string name => ((last name some es).map taken).or (t.lookup (.string name)) := by
  induction es generalizing t with
  | nil =>
    rw [takenEntries]
    cases key <;> simp
  | cons e es ih =>
    obtain ⟨name', v⟩ := e
    rw [takenEntries, ih]
    cases key with
    | index j => simp [lookup_setIndex]
    | string name =>
      dsimp only
      rw [lookup_setIndex, last_cons]
      by_cases same : name' = name
      next =>
        subst same
        cases last name' some es <;> simp
      next =>
        have other : Key.string name ≠ .string name' := by simpa using fun same' => same same'.symm
        rw [if_neg other, if_neg same, Option.or_none]

theorem last_isSome_iff (name : Bytes) (es : List (Bytes × Value)) :
    (last name some es).isSome ↔ name ∈ es.map Prod.fst := by
  induction es with
  | nil => simp
  | cons e es ih =>
    rw [last_cons, Option.isSome_or, Bool.or_eq_true, ih, List.map_cons, List.mem_cons, or_comm]
    by_cases same : e.1 = name
    next => simp [same]
    next => simp [same, Ne.symm same]

theorem lookup_list (vs : List Value) (i : Nat) :
    (takenItems 0 [] vs).lookup (.index i) = vs[i]?.map taken := by
  simp [lookup_takenItems]

theorem lookup_dict (es : List (Bytes × Value)) (name : Bytes) :
    (takenEntries [] es).lookup (.string name) = (last name some es).map taken := by
  simp [lookup_takenEntries]

theorem indices_list (vs : List Value) (key : Key) :
    ((takenItems 0 [] vs).lookup key).isSome ↔ ∃ i < vs.length, key = .index i := by
  cases key with
  | index j => simp [lookup_list]
  | string name => simp [lookup_takenItems]

theorem keys_dict (es : List (Bytes × Value)) (key : Key) :
    ((takenEntries [] es).lookup key).isSome ↔ ∃ name ∈ es.map Prod.fst, key = .string name := by
  cases key with
  | index j => simp [lookup_takenEntries]
  | string name =>
    rw [lookup_dict, Option.isSome_map, last_isSome_iff]
    simp only [Key.string.injEq, exists_eq_right']

theorem holds_of_kept {v : Value} (kept : KeptExactly v) : Holds v (taken v) := by
  induction kept with
  | str =>
    rw [taken]
    exact .str
  | int exact =>
    rw [taken]
    exact .int exact
  | @list vs each ih =>
    rw [taken]
    refine .list (indices_list vs) ?_
    intro i v x here found
    rw [lookup_list, here, Option.map_some, Option.some.injEq] at found
    rw [← found]
    exact ih v (List.mem_of_getElem? here)
  | @dict es each ih =>
    rw [taken]
    refine .dict (keys_dict es) ?_
    intro name v x here found
    rw [lookup_dict, here, Option.map_some, Option.some.injEq] at found
    rw [← found]
    exact ih name v here

theorem kept_of_holds {v : Value} {x : LuaValue} (holds : Holds v x) (same : x = taken v) :
    KeptExactly v := by
  induction holds with
  | str => exact .str
  | int exact =>
    rw [taken, LuaValue.number.injEq] at same
    rw [same] at exact
    exact .int exact
  | @list vs t indices each ih =>
    rw [taken, LuaValue.table.injEq] at same
    subst same
    refine .list fun v member => ?_
    obtain ⟨i, here⟩ := List.getElem?_of_mem member
    exact ih i v (taken v) here (by rw [lookup_list, here]; rfl) rfl
  | @dict es t keys each ih =>
    rw [taken, LuaValue.table.injEq] at same
    subst same
    refine .dict fun name v here => ?_
    exact ih name v (taken v) here (by rw [lookup_dict, here]; rfl) rfl

theorem plain_text {s front back name rest : Bytes} (named : StringTaken s front back name rest)
    (ok : plain.length front back) (fits : IsString s) :
    s = front ++ 58 :: name ++ rest ∧ digitsValue front = name.length := by
  obtain ⟨digits, inside⟩ := ok
  have split := named.split
  have small : (digitsValue front : Int) < maxInteger := by
    rw [split] at fits
    simp only [IsString, List.length_append, List.length_cons] at fits
    simp only [maxInteger]
    omega
  have read := @stringTaken_digits front back digits small
  rw [← split] at read
  let g : Globals := ⟨.nil, .nil, .nil, .nil, .nil, .nil, .nil, .nil, .nil, .nil, .nil, .nil⟩
  obtain ⟨g₁, run⟩ := parseString_taken named g
  obtain ⟨g₂, run'⟩ := parseString_taken read g
  rw [run, Outcome.done.injEq, Prod.mk.injEq, LuaValue.string.injEq, LuaValue.string.injEq] at run'
  obtain ⟨⟨rfl, rfl⟩, -⟩ := run'
  refine ⟨?_, by simp [inside]⟩
  rw [split, List.append_assoc, List.cons_append, List.take_append_drop]

def Formed (s rest : Bytes) : Part → Prop
  | .value x => ∃ w v, s = w ++ rest ∧ WellFormed w (.value v) ∧ x = taken v
  | .items i t t' => ∃ w vs, s = w ++ 101 :: rest ∧ WellFormed w (.items vs) ∧
      t' = takenItems i t vs
  | .entries _ t t' => ∃ w es, s = w ++ 101 :: rest ∧ WellFormed w (.entries es) ∧
      t' = takenEntries t es

theorem plain_formed {s rest : Bytes} {part : Part} (takes : Takes plain s part rest)
    (fits : IsString s) : Formed s rest part := by
  induction takes with
  | str tag named ok =>
    obtain ⟨split, length⟩ := plain_text named ok fits
    exact ⟨_, _, split, .str ok.1 length, by rw [taken]⟩
  | @int s front rest n read ok =>
    obtain ⟨m, number⟩ := ok
    have value := read.number
    rw [tonumber_denotes number, Option.some.injEq] at value
    refine ⟨105 :: (front ++ [101]), .int m, by simp [read.split], .int number, ?_⟩
    rw [taken, value]
  | @list s rest t inside ih =>
    obtain ⟨w, vs, rfl, formed, rfl⟩ := ih (fits.of_le (by simp))
    exact ⟨108 :: (w ++ [101]), .list vs, by simp, .list formed, by rw [taken]⟩
  | @dict s rest t inside ih =>
    obtain ⟨w, es, rfl, formed, rfl⟩ := ih (fits.of_le (by simp))
    exact ⟨100 :: (w ++ [101]), .dict es, by simp, .dict formed, by rw [taken]⟩
  | nil => exact ⟨[], [], rfl, .nil, by rw [takenItems]⟩
  | cons more here later ih ih' =>
    obtain ⟨w, v, rfl, formed, rfl⟩ := ih fits
    obtain ⟨ws, vs, rfl, others, rfl⟩ := ih' fits.of_append
    exact ⟨w ++ ws, v :: vs, by simp, .cons formed others, by rw [takenItems]⟩
  | done => exact ⟨[], [], rfl, .done, by rw [takenEntries]⟩
  | @entry s s₁ s₂ rest front back key name t t' x digit named ok here later ih ih' =>
    obtain ⟨rfl, length⟩ := plain_text named ok fits
    obtain ⟨w, v, rfl, formed, rfl⟩ := ih fits.of_append
    obtain ⟨ws, es, rfl, others, rfl⟩ := ih' fits.of_append.of_append
    refine ⟨front ++ 58 :: name ++ w ++ ws, (name, v) :: es, by simp,
      .entry ok.1 length formed others, ?_⟩
    rw [takenEntries]
  | keyless more other ok => exact ok.elim

theorem parseDict_table {fuel : Nat} {g g' : Globals} {x : Bytes} {t : Table} {r : LuaValue}
    (returned : parseDict fuel g x = .done (.table t, r) g') :
    ∃ s rest, x = 100 :: s ∧ r = .string rest ∧ Takes .any s (.entries [] [] t) rest := by
  cases fuel with
  | zero => simp [parseDict] at returned
  | succ fuel =>
    rw [parseDict] at returned
    split at returned
    next => simp at returned
    next tag =>
      obtain ⟨s, rfl⟩ : ∃ s, x = 100 :: s := first_eq (not_not.mp tag)
      have behind : sub (100 :: s) 2 (-1) = s := sub_drop (100 :: s) 1
      have sat := (reading_sound fuel).dictLoop { g with str := .string s } [] [] s rfl
      rw [behind] at returned
      rw [returned] at sat
      rcases sat with none | ⟨t', rest, same, takes⟩
      next => cases none
      next =>
        cases same
        exact ⟨s, rest, rfl, rfl, takes⟩

def AcceptsGrammar (x : Bytes) : Prop :=
  ∀ fuel g t r g', parseDict fuel g x = .done (.table t, r) g' →
    ∃ w rest es, r = .string rest ∧ x = w ++ rest ∧ WellFormed w (.value (.dict es)) ∧
      Holds (.dict es) (.table t)

/-- The text has a key in every entry, plain digits for every length that is there and for every
integer, and no integer is rounded that counts. -/
structure Strict (x : Bytes) : Prop where
  plain : ∀ s t rest, x = 100 :: s → Takes .any s (.entries [] [] t) rest →
    Takes plain s (.entries [] [] t) rest
  exact : ∀ w rest es, x = w ++ rest → WellFormed w (.value (.dict es)) → KeptExactly (.dict es)

-- The parser is a function: what one reading says is returned, every other one says, too.
theorem AcceptsGrammar.of_takes {rules : TextRules} {s rest : Bytes} {t : Table}
    (accepts : AcceptsGrammar (100 :: s)) (takes : Takes rules s (.entries [] [] t) rest) :
    ∃ w es, 100 :: s = w ++ rest ∧ WellFormed w (.value (.dict es)) ∧
      Holds (.dict es) (.table t) := by
  obtain ⟨enough, runs⟩ := parseDict_runs (takes_runs takes)
  obtain ⟨g', returned⟩ := runs enough (Nat.le_refl _)
    ⟨.nil, .nil, .nil, .nil, .nil, .nil, .nil, .nil, .nil, .nil, .nil, .nil⟩
  obtain ⟨w, rest', es, same, split, formed, holds⟩ := accepts _ _ _ _ _ returned
  cases same
  exact ⟨w, es, split, formed, holds⟩

theorem takes_unique {rules rules' : TextRules} {s rest rest' : Bytes} {t t' : Table}
    (takes : Takes rules s (.entries [] [] t) rest)
    (takes' : Takes rules' s (.entries [] [] t') rest') : t = t' ∧ rest = rest' := by
  obtain ⟨enough, runs⟩ := parseDict_runs (takes_runs takes)
  obtain ⟨enough', runs'⟩ := parseDict_runs (takes_runs takes')
  let g : Globals := ⟨.nil, .nil, .nil, .nil, .nil, .nil, .nil, .nil, .nil, .nil, .nil, .nil⟩
  obtain ⟨g₁, run⟩ := runs (max enough enough') (Nat.le_max_left _ _) g
  obtain ⟨g₂, run'⟩ := runs' (max enough enough') (Nat.le_max_right _ _) g
  rw [run] at run'
  cases run'
  exact ⟨rfl, rfl⟩

theorem wellFormed_takes {w s rest : Bytes} {es : List (Bytes × Value)} (fits : IsString (100 :: s))
    (split : 100 :: s = w ++ rest) (formed : WellFormed w (.value (.dict es))) :
    Takes plain s (.entries [] [] (takenEntries [] es)) rest := by
  obtain ⟨u, rfl, inside⟩ := wellFormed_dict formed
  obtain rfl : s = u ++ 101 :: rest := by simpa using split
  exact wellFormed_read inside rest (@IsString.of_append [100] _ fits) [] []

theorem AcceptsGrammar.strict {x : Bytes} (accepts : AcceptsGrammar x) (fits : IsString x) :
    Strict x where
  plain := by
    rintro s t rest rfl takes
    obtain ⟨w, es, split, formed, -⟩ := accepts.of_takes takes
    have again := wellFormed_takes fits split formed
    obtain ⟨rfl, -⟩ := takes_unique takes again
    exact again
  exact := by
    rintro w rest es rfl formed
    obtain ⟨u, rfl, inside⟩ := wellFormed_dict formed
    have takes := wellFormed_takes fits rfl formed
    obtain ⟨w', es', split, formed', holds⟩ := accepts.of_takes takes
    obtain ⟨-, same, -⟩ := wellFormed_unique formed w' _ rest rest formed' split
    cases same
    exact kept_of_holds holds (by rw [taken])

theorem Strict.accepts {x : Bytes} (strict : Strict x) (fits : IsString x) : AcceptsGrammar x := by
  intro fuel g t r g' returned
  obtain ⟨s, rest, rfl, rfl, takes⟩ := parseDict_table returned
  obtain ⟨w, es, rfl, formed, rfl⟩ := plain_formed (strict.plain s t rest rfl takes)
    (@IsString.of_append [100] _ fits)
  have kept := strict.exact (100 :: (w ++ [101])) rest es (by simp) (.dict formed)
  have holds := holds_of_kept kept
  rw [taken] at holds
  exact ⟨100 :: (w ++ [101]), rest, es, rfl, by simp, .dict formed, holds⟩

theorem lua_accepts_grammar_iff (x : Bytes) (fits : IsString x) : AcceptsGrammar x ↔ Strict x :=
  ⟨fun accepts => accepts.strict fits, fun strict => strict.accepts fits⟩

theorem strict_of_wellFormed {w rest : Bytes} {es : List (Bytes × Value)}
    (formed : WellFormed w (.value (.dict es))) (kept : KeptExactly (.dict es))
    (fits : IsString (w ++ rest)) : Strict (w ++ rest) where
  plain := by
    intro s t rest' split takes
    have again := wellFormed_takes (split ▸ fits) split.symm formed
    obtain ⟨rfl, rfl⟩ := takes_unique takes again
    exact again
  exact := by
    intro w' rest' es' split formed'
    obtain ⟨-, same, -⟩ := wellFormed_unique formed w' _ rest rest' formed' split
    cases same
    exact kept

theorem digits_singleton {d : UInt8} (digit : isDigit d = true) : Digits [d] :=
  ⟨by simp, by simpa using digit⟩

theorem lua_accepts_overwritten : AcceptsGrammar (ascii "d1:ai5e1:ai7eei") := by
  have entry {ws : Bytes} {es : List (Bytes × Value)} {d : UInt8} (digit : isDigit d = true)
      (later : WellFormed ws (.entries es)) :=
    @WellFormed.entry [49] [97] _ ws _ es (digits_singleton (by decide)) (by decide)
      (.int (.plain (digits_singleton digit))) later
  have formed := WellFormed.dict (@entry _ _ 53 (by decide) (@entry _ _ 55 (by decide) .done))
  refine (lua_accepts_grammar_iff (ascii "d1:ai5e1:ai7eei") (by unfold IsString; decide)).mpr ?_
  refine @strict_of_wellFormed _ [105] _ formed ?_ (by unfold IsString; decide)
  refine .dict fun name v found => ?_
  rw [last_cons, last_cons, last_nil, Option.none_or] at found
  split at found
  next =>
    cases found
    exact .int rfl
  next => simp at found

theorem keyless_entry_accepted : ¬ AcceptsGrammar (ascii "di1ee") := by
  intro accepts
  have number : IntTaken [105, 49, 101, 101] [49] [101] (.int 1) :=
    ⟨rfl, by simp, tonumber_digits [49] (by simp) (digits_singleton (by decide)).2 (by decide)⟩
  have takes : Takes .any [105, 49, 101, 101] (.entries [] []
      (setIndex [] (.string []) (.number (.int 1)))) [] :=
    .keyless (by decide) (by decide) trivial (.int number trivial) .done
  obtain ⟨w, es, split, formed, -⟩ := AcceptsGrammar.of_takes accepts takes
  obtain ⟨u, rfl, inside⟩ := wellFormed_dict formed
  cases es with
  | nil =>
    cases inside
    simp at split
  | cons e es =>
    obtain ⟨text, u, us, rfl, digits, -⟩ := wellFormed_entry inside
    exact absurd (by simpa using split.symm) (digits_ne digits (by decide))

end BTServer.Lua
