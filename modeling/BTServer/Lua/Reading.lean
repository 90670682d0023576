import BTServer.Lua.RoundTrip

set_option autoImplicit false

namespace BTServer.Lua

open Bencode CString Outcome

theorem find_some {s : Bytes} {c : UInt8} {n : Nat} (found : find s c = some n) :
    ∃ front back, s = front ++ c :: back ∧ (∀ x ∈ front, x ≠ c) ∧ n = front.length + 1 := by
  unfold find at found
  obtain ⟨k, index, rfl⟩ := Option.map_eq_some_iff.mp found
  obtain ⟨inside, here, before⟩ := List.findIdx?_eq_some_iff_getElem.mp index
  refine ⟨s.take k, s.drop (k + 1), ?_, ?_, by simp; omega⟩
  · rw [← eq_of_beq here, ← List.drop_eq_getElem_cons inside, List.take_append_drop]
  · intro x member
    obtain ⟨i, short, rfl⟩ := List.getElem_of_mem member
    simp only [List.length_take] at short
    have other := before i (by omega)
    simpa using other

theorem sub_suffix (s : Bytes) (i : Int) : sub s i (-1) <:+ s := by
  have stop : (posrelat (-1) s.length).toNat = s.length := by
    simp only [posrelat]
    split
    next => omega
    next => split <;> omega
  rw [sub, stop, List.take_length]
  exact List.drop_suffix _ _

structure StringTaken (s front back name rest : Bytes) : Prop where
  split : s = front ++ 58 :: back
  free : ∀ x ∈ front, x ≠ 58
  read : ∃ len stop start, tonumber front = some len ∧ len.toInteger = some stop ∧
    len.addOne.toInteger = some start ∧ name = sub back 1 stop ∧ rest = sub back start (-1)

theorem StringTaken.shorter {s front back name rest : Bytes}
    (taken : StringTaken s front back name rest) : rest <:+ s ∧ rest.length < s.length := by
  obtain ⟨rfl, -, len, stop, start, -, -, -, -, rfl⟩ := taken
  have suffix := sub_suffix back start
  have length := suffix.length_le
  refine ⟨suffix.trans ((List.suffix_cons _ _).trans (List.suffix_append _ _)), ?_⟩
  simp only [List.length_append, List.length_cons]
  omega

def stringPost (s : Bytes) : Post Globals (LuaValue × LuaValue) where
  done result _ := result = (.nil, .string s) ∨ ∃ front back name rest,
    result = (.string name, .string rest) ∧ StringTaken s front back name rest
  fault := True
  crash := False
  timeout := False

theorem parseString_sat (g : Globals) (s : Bytes) : (parseString g s).Sat (stringPost s) := by
  unfold parseString
  split
  next => exact .inl rfl
  next n found =>
    obtain ⟨front, back, rfl, free, rfl⟩ := find_some found
    simp only [sub_before, sub_behind]
    split
    next => exact .inl rfl
    next len number =>
      split
      next stop start stops starts =>
        exact .inr ⟨front, back, _, _, rfl, rfl, free, len, stop, start, number, stops, starts, rfl,
          rfl⟩
      next => trivial
      next => trivial

theorem parseString_taken {s front back name rest : Bytes}
    (taken : StringTaken s front back name rest) (g : Globals) :
    ∃ g', parseString g s = .done (.string name, .string rest) g' := by
  obtain ⟨rfl, free, len, stop, start, number, stops, starts, rfl, rfl⟩ := taken
  simp only [parseString, find_free free, sub_before, sub_behind, number, stops, starts]
  exact ⟨_, rfl⟩

structure IntTaken (s front rest : Bytes) (n : Number) : Prop where
  split : s = 105 :: (front ++ 101 :: rest)
  free : ∀ x ∈ front, x ≠ 101
  number : tonumber front = some n

def intPost (s : Bytes) : Post Globals (LuaValue × LuaValue) where
  done result _ := result.1 = .nil ∨ ∃ front rest n,
    result = (.number n, .string rest) ∧ IntTaken s front rest n
  fault := False
  crash := False
  timeout := False

theorem first_eq {s : Bytes} {c : UInt8} (same : first s = [c]) : ∃ rest, s = c :: rest := by
  cases s with
  | nil => simp [first, sub] at same
  | cons d rest =>
    rw [first_cons] at same
    cases same
    exact ⟨rest, rfl⟩

theorem ne_nil_of_first {s : Bytes} (some : first s ≠ []) : s ≠ [] := by
  rintro rfl
  exact some rfl

theorem parseInt_sat (g : Globals) (s : Bytes) : (parseInt g s).Sat (intPost s) := by
  unfold parseInt
  dsimp only
  split
  next => exact .inl rfl
  next tag =>
    obtain ⟨rest, rfl⟩ : ∃ rest, s = 105 :: rest := first_eq (not_not.mp tag)
    have inside : sub (105 :: rest) 2 (-1) = rest := sub_drop (105 :: rest) 1
    simp only [inside]
    split
    next => exact .inl rfl
    next n found =>
      obtain ⟨front, back, rfl, free, rfl⟩ := find_some found
      simp only [sub_before, sub_behind]
      cases number : tonumber front with
      | none => exact .inl rfl
      | some n => exact .inr ⟨front, back, n, rfl, rfl, free, number⟩

/-- What may be asked of the texts beyond what the parser asks: of a length and the text behind its
colon, of an entry that brings no key, of an integer. -/
structure TextRules where
  length : Bytes → Bytes → Prop
  keyless : Prop
  int : Bytes → Prop

def TextRules.any : TextRules := ⟨fun _ _ => True, True, fun _ => True⟩

-- What is read from a place on: a value, or the rest of a list or dictionary, which takes the
-- table so far to the whole one. A dictionary remembers the last key.
inductive Part where
  | value (x : LuaValue)
  | items (i : Nat) (t t' : Table)
  | entries (key : Bytes) (t t' : Table)

inductive Takes (rules : TextRules) : Bytes → Part → Bytes → Prop
  | str {s front back name rest : Bytes} (tag : first s ∉ [ascii "l", ascii "i", ascii "d"])
      (taken : StringTaken s front back name rest) (ok : rules.length front back) :
      Takes rules s (.value (.string name)) rest
  | int {s front rest : Bytes} {n : Number} (taken : IntTaken s front rest n)
      (ok : rules.int front) : Takes rules s (.value (.number n)) rest
  | list {s rest : Bytes} {t : Table} (inside : Takes rules s (.items 0 [] t) rest) :
      Takes rules (108 :: s) (.value (.table t)) rest
  | dict {s rest : Bytes} {t : Table} (inside : Takes rules s (.entries [] [] t) rest) :
      Takes rules (100 :: s) (.value (.table t)) rest
  | nil {rest : Bytes} {i : Nat} {t : Table} : Takes rules (101 :: rest) (.items i t t) rest
  | cons {s s₁ rest : Bytes} {i : Nat} {t t' : Table} {x : LuaValue} (more : first s ≠ ascii "e")
      (here : Takes rules s (.value x) s₁)
      (later : Takes rules s₁ (.items (i + 1) (setIndex t (.index i) x) t') rest) :
      Takes rules s (.items i t t') rest
  | done {rest key : Bytes} {t : Table} : Takes rules (101 :: rest) (.entries key t t) rest
  | entry {s s₁ s₂ rest front back key name : Bytes} {t t' : Table} {x : LuaValue}
      (digit : (tonumber (first s)).isSome = true) (named : StringTaken s front back name s₁)
      (ok : rules.length front back) (here : Takes rules s₁ (.value x) s₂)
      (later : Takes rules s₂ (.entries name (setIndex t (.string name) x) t') rest) :
      Takes rules s (.entries key t t') rest
  | keyless {s s₁ rest key : Bytes} {t t' : Table} {x : LuaValue} (more : first s ≠ ascii "e")
      (other : (tonumber (first s)).isSome = false) (ok : rules.keyless)
      (here : Takes rules s (.value x) s₁)
      (later : Takes rules s₁ (.entries key (setIndex t (.string key) x) t') rest) :
      Takes rules s (.entries key t t') rest

theorem Takes.shorter {rules : TextRules} {s rest : Bytes} {part : Part}
    (takes : Takes rules s part rest) : rest <:+ s ∧ rest.length < s.length := by
  induction takes with
  | str tag taken ok => exact taken.shorter
  | int taken ok =>
    rw [taken.split]
    refine ⟨?_, by simp; omega⟩
    exact (List.suffix_cons _ _).trans ((List.suffix_append _ _).trans (List.suffix_cons _ _))
  | list inside ih => exact ⟨ih.1.trans (List.suffix_cons _ _), by simp; omega⟩
  | dict inside ih => exact ⟨ih.1.trans (List.suffix_cons _ _), by simp; omega⟩
  | nil => exact ⟨List.suffix_cons _ _, by simp⟩
  | cons more here later ih ih' => exact ⟨ih'.1.trans ih.1, by omega⟩
  | done => exact ⟨List.suffix_cons _ _, by simp⟩
  | entry digit named ok here later ih ih' =>
    have key := named.shorter
    exact ⟨(ih'.1.trans ih.1).trans key.1, by omega⟩
  | keyless more other ok here later ih ih' => exact ⟨ih'.1.trans ih.1, by omega⟩

theorem Takes.ne {rules : TextRules} {s rest : Bytes} {part : Part}
    (takes : Takes rules s part rest) : s ≠ rest := by
  rintro rfl
  exact Nat.lt_irrefl _ takes.shorter.2

def tablePost (late : Prop) (part : Table → Part) (s : Bytes) :
    Post Globals (LuaValue × LuaValue) where
  done result _ := result.1 = .nil ∨ ∃ t rest, result = (.table t, .string rest) ∧
    Takes .any s (part t) rest
  fault := True
  crash := False
  timeout := late

def valuePost (fuel : Nat) (s : Bytes) : Post Globals (Option LuaValue) where
  done result g := ∀ x, result = some x → ∃ rest, g.str = .string rest ∧
    Takes .any s (.value x) rest
  fault := True
  crash := False
  timeout := fuel < 2 * s.length

structure Sound (fuel : Nat) : Prop where
  list : ∀ g s, (parseList fuel g s).Sat
    (tablePost (fuel < max 1 (2 * s.length)) (fun t => .value (.table t)) s)
  listLoop : ∀ g t i s, g.str = .string s → (parseListLoop fuel g t i (first s)).Sat
    (tablePost (fuel < 2 * s.length + 1) (fun t' => .items i t t') s)
  dict : ∀ g s, (parseDict fuel g s).Sat
    (tablePost (fuel < max 1 (2 * s.length)) (fun t => .value (.table t)) s)
  dictLoop : ∀ g key t s, g.str = .string s → (parseDictLoop fuel g (.string key) t (first s)).Sat
    (tablePost (fuel < 2 * s.length + 1) (fun t' => .entries key t t') s)

theorem checked_sat {fuel : Nat} {s : Bytes} {v next : LuaValue} {g : Globals}
    (here : g.str = next)
    (read : v = .nil ∨ ∃ rest, next = .string rest ∧ Takes .any s (.value v) rest) :
    (if v.isNil || next.isNil then .done none g else .done (some v) g :
      Outcome Globals (Option LuaValue)).Sat (valuePost fuel s) := by
  split
  next =>
    intro x same
    cases same
  next some =>
    rintro x ⟨⟩
    rcases read with rfl | ⟨rest, rfl, takes⟩
    next => simp [LuaValue.isNil] at some
    next => exact ⟨rest, here, takes⟩

theorem parseValue_sat {fuel : Nat} (sound : Sound fuel) {g : Globals} {s : Bytes}
    (here : g.str = .string s) (some : s ≠ []) :
    (parseValue (parseList fuel) (parseDict fuel) g (first s)).Sat (valuePost fuel s) := by
  have size := List.length_pos_iff.mpr some
  have table {v next : LuaValue}
      (read : v = .nil ∨ ∃ t rest, (v, next) = (.table t, .string rest) ∧
        Takes .any s (.value (.table t)) rest) :
      v = .nil ∨ ∃ rest, next = .string rest ∧ Takes .any s (.value v) rest := by
    rcases read with none | ⟨t, rest, same, takes⟩
    next => exact .inl none
    next =>
      cases same
      exact .inr ⟨rest, rfl, takes⟩
  rw [parseValue, here, withString]
  dsimp only
  split
  next =>
    refine Sat.andThen (sound.list g s) ?_ id id (fun late => ?_)
    · rintro ⟨v, next⟩ g' read
      exact @checked_sat fuel s v next _ rfl (table read)
    · change fuel < 2 * s.length
      have late : fuel < max 1 (2 * s.length) := late
      omega
  next noList =>
    split
    next =>
      refine Sat.andThen (parseInt_sat g s) ?_ False.elim id False.elim
      rintro ⟨v, next⟩ g' read
      refine @checked_sat fuel s v next _ rfl ?_
      rcases read with none | ⟨front, rest, n, same, taken⟩
      next => exact .inl none
      next =>
        cases same
        exact .inr ⟨rest, rfl, .int taken trivial⟩
    next noInt =>
      split
      next =>
        refine Sat.andThen (sound.dict g s) ?_ id id (fun late => ?_)
        · rintro ⟨v, next⟩ g' read
          exact @checked_sat fuel s v next _ rfl (table read)
        · change fuel < 2 * s.length
          have late : fuel < max 1 (2 * s.length) := late
          omega
      next noDict =>
        refine Sat.andThen (parseString_sat g s) ?_ id id False.elim
        rintro ⟨v, next⟩ g' read
        refine @checked_sat fuel s v next _ rfl ?_
        rcases read with none | ⟨front, back, name, rest, same, taken⟩
        next =>
          cases none
          exact .inl rfl
        next =>
          cases same
          exact .inr ⟨rest, rfl, .str (by simp [noList, noInt, noDict]) taken trivial⟩

theorem parseList_step {fuel : Nat} (sound : Sound fuel) (g : Globals) (s : Bytes) :
    (parseList (fuel + 1) g s).Sat
      (tablePost (fuel + 1 < max 1 (2 * s.length)) (fun t => .value (.table t)) s) := by
  rw [parseList]
  split
  next => exact .inl rfl
  next tag =>
    obtain ⟨rest, rfl⟩ : ∃ rest, s = 108 :: rest := first_eq (not_not.mp tag)
    have inside : sub (108 :: rest) 2 (-1) = rest := sub_drop (108 :: rest) 1
    rw [inside]
    refine Sat.mono (sound.listLoop { g with str := .string rest } [] 0 rest rfl) ?_ id id ?_
    · rintro result g' (none | ⟨t, after, same, takes⟩)
      · exact .inl none
      · exact .inr ⟨t, after, same, .list takes⟩
    · intro (late : fuel < 2 * rest.length + 1)
      change fuel + 1 < max 1 (2 * (108 :: rest).length)
      simp only [List.length_cons]
      omega

theorem parseDict_step {fuel : Nat} (sound : Sound fuel) (g : Globals) (s : Bytes) :
    (parseDict (fuel + 1) g s).Sat
      (tablePost (fuel + 1 < max 1 (2 * s.length)) (fun t => .value (.table t)) s) := by
  rw [parseDict]
  split
  next => exact .inl rfl
  next tag =>
    obtain ⟨rest, rfl⟩ : ∃ rest, s = 100 :: rest := first_eq (not_not.mp tag)
    have inside : sub (100 :: rest) 2 (-1) = rest := sub_drop (100 :: rest) 1
    rw [inside]
    refine Sat.mono (sound.dictLoop { g with str := .string rest } [] [] rest rfl) ?_ id id ?_
    · rintro result g' (none | ⟨t, after, same, takes⟩)
      · exact .inl none
      · exact .inr ⟨t, after, same, .dict takes⟩
    · intro (late : fuel < 2 * rest.length + 1)
      change fuel + 1 < max 1 (2 * (100 :: rest).length)
      simp only [List.length_cons]
      omega

theorem parseEnd_sat {late : Prop} {part : Table → Part} {g : Globals} {t : Table} {s : Bytes}
    (here : g.str = .string s) (closes : first s = ascii "e")
    (takes : ∀ rest, s = 101 :: rest → Takes .any s (part t) rest) :
    (parseEnd g t).Sat (tablePost late part s) := by
  obtain ⟨rest, rfl⟩ : ∃ rest, s = 101 :: rest := first_eq closes
  obtain ⟨g', ended⟩ := parseEnd_closed (t := t) here
  rw [ended]
  exact .inr ⟨t, rest, rfl, takes rest rfl⟩

theorem parseListLoop_step {fuel : Nat} (sound : Sound fuel) (g : Globals) (t : Table) (i : Nat)
    (s : Bytes) (here : g.str = .string s) :
    (parseListLoop (fuel + 1) g t i (first s)).Sat
      (tablePost (fuel + 1 < 2 * s.length + 1) (fun t' => .items i t t') s) := by
  rw [parseListLoop]
  split
  next closes =>
    refine parseEnd_sat here closes ?_
    rintro rest rfl
    exact .nil
  next more =>
    dsimp only
    split
    next => exact .inl rfl
    next inside =>
      refine Sat.andThen (parseValue_sat sound here (ne_nil_of_first inside)) ?_ id id ?_
      · intro v g' read
        cases v with
        | none => exact .inl rfl
        | some x =>
          obtain ⟨rest, there, takes⟩ := read x rfl
          have shorter := takes.shorter.2
          simp only [here, there, LuaValue.equals, takes.ne, decide_false, Bool.false_eq_true,
            if_false, withString]
          refine Sat.mono (sound.listLoop g' _ (i + 1) rest there) ?_ id id ?_
          · rintro result g'' (none | ⟨t', after, same, later⟩)
            · exact .inl none
            · exact .inr ⟨t', after, same, .cons more takes later⟩
          · intro (late : fuel < 2 * rest.length + 1)
            change fuel + 1 < 2 * s.length + 1
            omega
      · intro (late : fuel < 2 * s.length)
        change fuel + 1 < 2 * s.length + 1
        omega

theorem entry_sat {fuel : Nat} (sound : Sound fuel) {g : Globals} {t : Table}
    {s s₁ key name : Bytes} (here : g.str = .string s₁) (short : s₁.length ≤ s.length)
    (entry : ∀ x s₂ rest t', Takes .any s₁ (.value x) s₂ →
      Takes .any s₂ (.entries name (setIndex t (.string name) x) t') rest →
        Takes .any s (.entries key t t') rest) :
    (withString g.str g fun str =>
      let flag := first str
      if flag = [] then .done (.nil, .nil) g
      else
        (parseValue (parseList fuel) (parseDict fuel) g flag).andThen fun v g =>
          match v with
          | none => .done (.nil, .nil) g
          | some v =>
            if (LuaValue.string s).equals g.str then .done (.nil, .nil) g
            else withString (.string name) g fun name => withString g.str g fun str =>
              parseDictLoop fuel g (.string name) (setIndex t (.string name) v) (first str)).Sat
      (tablePost (fuel + 1 < 2 * s.length + 1) (fun t' => .entries key t t') s) := by
  rw [here, withString]
  dsimp only
  split
  next => exact .inl rfl
  next inside =>
    refine Sat.andThen (parseValue_sat sound here (ne_nil_of_first inside)) ?_ id id ?_
    · intro v g' read
      cases v with
      | none => exact .inl rfl
      | some x =>
        obtain ⟨rest, there, takes⟩ := read x rfl
        have shorter := takes.shorter.2
        have moved : s ≠ rest := by
          rintro rfl
          omega
        simp only [there, LuaValue.equals, moved, decide_false, Bool.false_eq_true, if_false,
          withString]
        refine Sat.mono (sound.dictLoop g' name _ rest there) ?_ id id ?_
        · rintro result g'' (none | ⟨t', after, same, later⟩)
          · exact .inl none
          · exact .inr ⟨t', after, same, entry x rest after t' takes later⟩
        · intro (late : fuel < 2 * rest.length + 1)
          change fuel + 1 < 2 * s.length + 1
          omega
    · intro (late : fuel < 2 * s₁.length)
      change fuel + 1 < 2 * s.length + 1
      omega

theorem parseDictLoop_step {fuel : Nat} (sound : Sound fuel) (g : Globals) (key : Bytes) (t : Table)
    (s : Bytes) (here : g.str = .string s) :
    (parseDictLoop (fuel + 1) g (.string key) t (first s)).Sat
      (tablePost (fuel + 1 < 2 * s.length + 1) (fun t' => .entries key t t') s) := by
  rw [parseDictLoop]
  split
  next closes =>
    refine parseEnd_sat here closes ?_
    rintro rest rfl
    exact .done
  next more =>
    simp only [parseKey, here, withString]
    split
    next digit =>
      rw [andThen_andThen]
      refine Sat.andThen (parseString_sat g s) ?_ id False.elim False.elim
      rintro ⟨v, next⟩ g' (none | ⟨front, back, name, rest, same, named⟩)
      next =>
        cases none
        exact .inl rfl
      next =>
        cases same
        exact entry_sat (g := { g' with str := .string rest }) sound rfl
          (Nat.le_of_lt named.shorter.2)
          fun _ _ _ _ takes later => .entry digit named trivial takes later
    next other =>
      have kept : (tonumber (first s)).isSome = false := by simpa using other
      simp only [done_andThen, here, LuaValue.isNil, Bool.or_self, Bool.false_eq_true, if_false]
      have sat := @entry_sat fuel sound g t s s key key here (Nat.le_refl s.length)
        fun _ _ _ _ takes later => .keyless more kept trivial takes later
      rw [here] at sat
      exact sat

theorem reading_sound (fuel : Nat) : Sound fuel := by
  induction fuel with
  | zero =>
    constructor
    · intro g s
      rw [parseList]
      change 0 < max 1 (2 * s.length)
      omega
    · intro g t i s here
      rw [parseListLoop]
      change 0 < 2 * s.length + 1
      omega
    · intro g s
      rw [parseDict]
      change 0 < max 1 (2 * s.length)
      omega
    · intro g key t s here
      rw [parseDictLoop]
      change 0 < 2 * s.length + 1
      omega
  | succ fuel sound =>
    exact ⟨parseList_step sound, parseListLoop_step sound, parseDict_step sound,
      parseDictLoop_step sound⟩

def Runs (s rest : Bytes) : Part → Prop
  | .value x => ∃ enough, ∀ fuel, enough ≤ fuel → ∀ g, g.str = .string s →
      ∃ g', parseValue (parseList fuel) (parseDict fuel) g (first s) = .done (some x) g' ∧
        g'.str = .string rest
  | .items i t t' => ∃ enough, ∀ fuel, enough ≤ fuel → ∀ g, g.str = .string s →
      ∃ g', parseListLoop fuel g t i (first s) = .done (.table t', .string rest) g'
  | .entries key t t' => ∃ enough, ∀ fuel, enough ≤ fuel → ∀ g, g.str = .string s →
      ∃ g', parseDictLoop fuel g (.string key) t (first s) = .done (.table t', .string rest) g'

section Runs

variable {s s₁ rest : Bytes} {t t' : Table} {x : LuaValue}

theorem runs_str {front back name : Bytes}
    (tag : first s ∉ [ascii "l", ascii "i", ascii "d"])
    (taken : StringTaken s front back name rest) : Runs s rest (.value (.string name)) := by
  refine ⟨0, fun fuel _ g here => ?_⟩
  simp only [List.mem_cons, List.not_mem_nil, or_false, not_or] at tag
  obtain ⟨g', read⟩ := parseString_taken taken g
  refine ⟨{ g' with s := .string name, str := .string rest }, ?_, rfl⟩
  rw [parseValue, here, withString, if_neg tag.1, if_neg tag.2.1, if_neg tag.2.2, read,
    done_andThen]
  rfl

theorem runs_int {front : Bytes} {n : Number} (taken : IntTaken s front rest n) :
    Runs s rest (.value (.number n)) := by
  obtain ⟨rfl, free, number⟩ := taken
  refine ⟨0, fun fuel _ g here => ?_⟩
  obtain ⟨g', read⟩ := parseInt_end rest g free n number
  refine ⟨{ g' with retI := .number n, str := .string rest }, ?_, rfl⟩
  rw [parseValue, here, withString, first_cons, if_neg (by decide), if_pos (by decide), read,
    done_andThen]
  rfl

theorem parseList_runs (inside : Runs s rest (.items 0 [] t)) :
    ∃ enough, ∀ fuel, enough ≤ fuel → ∀ g, ∃ g',
      parseList fuel g (108 :: s) = .done (.table t, .string rest) g' := by
  obtain ⟨enough, runs⟩ := inside
  refine ⟨enough + 1, fun fuel large g => ?_⟩
  obtain ⟨fuel, rfl, within⟩ := succ_of_le large
  have behind : sub (108 :: s) 2 (-1) = s := sub_drop (108 :: s) 1
  rw [parseList, if_neg (by simp [ascii]), behind]
  exact runs fuel within _ rfl

theorem parseDict_runs (inside : Runs s rest (.entries [] [] t)) :
    ∃ enough, ∀ fuel, enough ≤ fuel → ∀ g, ∃ g',
      parseDict fuel g (100 :: s) = .done (.table t, .string rest) g' := by
  obtain ⟨enough, runs⟩ := inside
  refine ⟨enough + 1, fun fuel large g => ?_⟩
  obtain ⟨fuel, rfl, within⟩ := succ_of_le large
  have behind : sub (100 :: s) 2 (-1) = s := sub_drop (100 :: s) 1
  rw [parseDict, if_neg (by simp [ascii]), behind]
  exact runs fuel within _ rfl

theorem runs_list (inside : Runs s rest (.items 0 [] t)) :
    Runs (108 :: s) rest (.value (.table t)) := by
  obtain ⟨enough, runs⟩ := parseList_runs inside
  refine ⟨enough, fun fuel large g here => ?_⟩
  obtain ⟨g', read⟩ := runs fuel large g
  refine ⟨{ g' with l := .table t, str := .string rest }, ?_, rfl⟩
  rw [parseValue, here, withString, first_cons, if_pos (by decide), read, done_andThen]
  rfl

theorem runs_dict (inside : Runs s rest (.entries [] [] t)) :
    Runs (100 :: s) rest (.value (.table t)) := by
  obtain ⟨enough, runs⟩ := parseDict_runs inside
  refine ⟨enough, fun fuel large g here => ?_⟩
  obtain ⟨g', read⟩ := runs fuel large g
  refine ⟨{ g' with d := .table t, str := .string rest }, ?_, rfl⟩
  rw [parseValue, here, withString, first_cons, if_neg (by decide), if_neg (by decide),
    if_pos (by decide), read, done_andThen]
  rfl

theorem runs_cons {i : Nat} (more : first s ≠ ascii "e") (inside : first s ≠ []) (moved : s ≠ s₁)
    (here : Runs s s₁ (.value x))
    (later : Runs s₁ rest (.items (i + 1) (setIndex t (.index i) x) t')) :
    Runs s rest (.items i t t') := by
  obtain ⟨enough, runs⟩ := here
  obtain ⟨enough', runs'⟩ := later
  refine ⟨max enough enough' + 1, fun fuel large g str => ?_⟩
  obtain ⟨fuel, rfl, within⟩ := succ_of_le large
  obtain ⟨g₁, parsed, there⟩ := runs fuel (by omega) g str
  rw [parseListLoop_item more inside str parsed there moved]
  exact runs' fuel (by omega) g₁ there

theorem runs_entry {s₂ key name : Bytes} (more : first s ≠ ascii "e") (inside : first s₁ ≠ [])
    (named : ∀ g, g.str = .string s → ∃ g', parseKey g (.string key) (first s) =
      .done (.string name) g' ∧ g'.str = .string s₁)
    (moved : s ≠ s₂) (here : Runs s₁ s₂ (.value x))
    (later : Runs s₂ rest (.entries name (setIndex t (.string name) x) t')) :
    Runs s rest (.entries key t t') := by
  obtain ⟨enough, runs⟩ := here
  obtain ⟨enough', runs'⟩ := later
  refine ⟨max enough enough' + 1, fun fuel large g str => ?_⟩
  obtain ⟨fuel, rfl, within⟩ := succ_of_le large
  obtain ⟨g₁, read, value⟩ := named g str
  obtain ⟨g₂, parsed, there⟩ := runs fuel (by omega) g₁ value
  rw [parseDictLoop_entry more str read value inside parsed there moved]
  exact runs' fuel (by omega) g₂ there

theorem first_ne_nil (longer : rest.length < s.length) : first s ≠ [] := by
  cases s with
  | nil => simp at longer
  | cons c s => simp

end Runs

theorem takes_runs {rules : TextRules} {s rest : Bytes} {part : Part}
    (takes : Takes rules s part rest) : Runs s rest part := by
  induction takes with
  | str tag taken ok => exact runs_str tag taken
  | int taken ok => exact runs_int taken
  | list inside ih => exact runs_list ih
  | dict inside ih => exact runs_dict ih
  | nil =>
    refine ⟨1, fun fuel large g here => ?_⟩
    obtain ⟨fuel, rfl, -⟩ := succ_of_le large
    rw [first_cons, parseListLoop, if_pos (by decide)]
    exact parseEnd_closed here
  | cons more here later ih ih' =>
    exact runs_cons more (first_ne_nil here.shorter.2) here.ne ih ih'
  | done =>
    refine ⟨1, fun fuel large g here => ?_⟩
    obtain ⟨fuel, rfl, -⟩ := succ_of_le large
    rw [first_cons, parseDictLoop, if_pos (by decide)]
    exact parseEnd_closed here
  | @entry s s₁ s₂ rest front back key name t t' x digit named ok here later ih ih' =>
    have more : first s ≠ ascii "e" := by
      intro closes
      rw [closes] at digit
      exact absurd digit (by decide)
    have moved : s ≠ s₂ := by
      rintro rfl
      have := here.shorter.2
      have := named.shorter.2
      omega
    refine runs_entry more (first_ne_nil here.shorter.2) ?_ moved ih ih'
    intro g str
    obtain ⟨g', read⟩ := parseString_taken named g
    refine ⟨{ g' with str := .string s₁ }, ?_, rfl⟩
    rw [parseKey, if_pos digit, str, withString, read]
    rfl
  | @keyless s s₁ rest key t t' x more other ok here later ih ih' =>
    refine runs_entry more (first_ne_nil here.shorter.2) ?_ here.ne ih ih'
    intro g str
    refine ⟨g, ?_, str⟩
    rw [parseKey, if_neg (by simp [other])]

end BTServer.Lua
