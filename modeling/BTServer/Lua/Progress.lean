import BTServer.Lua.Reading

set_option autoImplicit false

namespace BTServer.Lua

open CString Outcome

-- The bodies of the two loops, from the test of `flag` until it is made again.
def listRound (fuel : Nat) (g : Globals) (list : Table) (i : Nat) (flag : Bytes) :
    Outcome Globals (Round (Table × Nat × Bytes) (LuaValue × LuaValue)) :=
  if flag = ascii "e" then (parseEnd g list).andThen fun result g => .done (.leave result) g
  else
    let bakStr := g.str
    if flag = [] then .done (.leave (.nil, .nil)) g
    else
      (parseValue (parseList fuel) (parseDict fuel) g flag).andThen fun v g =>
        match v with
        | none => .done (.leave (.nil, .nil)) g
        | some v =>
          if bakStr.equals g.str then .done (.leave (.nil, .nil)) g
          else withString g.str g fun str =>
            .done (.again (setIndex list (.index i) v, i + 1, first str)) g

theorem withString_andThen {α β : Type} (v : LuaValue) (g : Globals)
    (f : Bytes → Outcome Globals α) (next : α → Globals → Outcome Globals β) :
    (withString v g f).andThen next = withString v g fun str => (f str).andThen next := by
  cases v <;> rfl

theorem parseListLoop_rounds (fuel : Nat) (g : Globals) (list : Table) (i : Nat) (flag : Bytes) :
    parseListLoop (fuel + 1) g list i flag = (listRound fuel g list i flag).rounds
      fun (list, i, flag) g => parseListLoop fuel g list i flag := by
  rw [parseListLoop, listRound]
  split
  next =>
    rw [rounds, andThen_andThen]
    cases parseEnd g list <;> rfl
  next =>
    dsimp only
    split
    next => rfl
    next =>
      rw [rounds, andThen_andThen]
      congr 1
      funext v g'
      cases v with
      | none => rfl
      | some v =>
        dsimp only
        split
        next => rfl
        next =>
          rw [withString_andThen]
          rfl

def dictRound (fuel : Nat) (g : Globals) (key : LuaValue) (dict : Table) (flag : Bytes) :
    Outcome Globals (Round (LuaValue × Table × Bytes) (LuaValue × LuaValue)) :=
  if flag = ascii "e" then (parseEnd g dict).andThen fun result g => .done (.leave result) g
  else
    let bakStr := g.str
    (parseKey g key flag).andThen fun key g =>
      if key.isNil || g.str.isNil then .done (.leave (.nil, .nil)) g
      else withString g.str g fun str =>
        let flag := first str
        if flag = [] then .done (.leave (.nil, .nil)) g
        else
          (parseValue (parseList fuel) (parseDict fuel) g flag).andThen fun v g =>
            match v with
            | none => .done (.leave (.nil, .nil)) g
            | some v =>
              if bakStr.equals g.str then .done (.leave (.nil, .nil)) g
              else withString key g fun name => withString g.str g fun str =>
                .done (.again (key, setIndex dict (.string name) v, first str)) g

theorem parseDictLoop_rounds (fuel : Nat) (g : Globals) (key : LuaValue) (dict : Table)
    (flag : Bytes) :
    parseDictLoop (fuel + 1) g key dict flag = (dictRound fuel g key dict flag).rounds
      fun (key, dict, flag) g => parseDictLoop fuel g key dict flag := by
  rw [parseDictLoop, dictRound]
  split
  next =>
    rw [rounds, andThen_andThen]
    cases parseEnd g dict <;> rfl
  next =>
    dsimp only
    rw [rounds, andThen_andThen]
    congr 1
    funext key g₁
    split
    next => rfl
    next =>
      rw [withString_andThen]
      congr 1
      funext str
      split
      next => rfl
      next =>
        rw [andThen_andThen]
        congr 1
        funext v g₂
        cases v with
        | none => rfl
        | some v =>
          dsimp only
          split
          next => rfl
          next =>
            rw [withString_andThen]
            congr 1
            funext name
            rw [withString_andThen]
            rfl

def shrinking {α β : Type} (s : Bytes) : Post Globals (Round α β) where
  done round g := ∀ next, round = .again next → ∃ rest, g.str = .string rest ∧
    rest.length < s.length
  fault := True
  crash := True
  timeout := True

theorem listRound_shrinks (fuel : Nat) (g : Globals) (t : Table) (i : Nat) (s : Bytes)
    (here : g.str = .string s) : (listRound fuel g t i (first s)).Sat (shrinking s) := by
  rw [listRound]
  split
  next =>
    cases parseEnd g t <;> simp [shrinking, Sat, andThen]
  next =>
    dsimp only
    split
    next => simp [shrinking]
    next inside =>
      refine Sat.andThen (parseValue_sat (reading_sound fuel) here (ne_nil_of_first inside)) ?_
        (fun _ => trivial) (fun _ => trivial) (fun _ => trivial)
      intro v g' read
      cases v with
      | none => simp [shrinking]
      | some x =>
        obtain ⟨rest, there, takes⟩ := read x rfl
        dsimp only
        split
        next => simp [shrinking]
        next =>
          rw [there, withString]
          exact fun _ _ => ⟨rest, there, takes.shorter.2⟩

theorem dictRound_shrinks (fuel : Nat) (g : Globals) (key : LuaValue) (t : Table) (s : Bytes)
    (here : g.str = .string s) : (dictRound fuel g key t (first s)).Sat (shrinking s) := by
  rw [dictRound]
  split
  next =>
    cases parseEnd g t <;> simp [shrinking, Sat, andThen]
  next =>
    dsimp only
    -- The key is read from the text or kept; neither makes it longer.
    have keyed : (parseKey g key (first s)).Sat ⟨fun _ g' => ∃ s₁, g'.str = .string s₁ ∧
        s₁.length ≤ s.length, True, True, True⟩ := by
      rw [parseKey]
      split
      next =>
        rw [here, withString]
        refine Sat.andThen (parseString_sat g s) ?_ (fun _ => trivial) (fun _ => trivial)
          (fun _ => trivial)
        rintro ⟨v, next⟩ g' (none | ⟨front, back, name, rest, same, named⟩)
        next =>
          cases none
          exact ⟨s, rfl, Nat.le_refl _⟩
        next =>
          cases same
          exact ⟨rest, rfl, Nat.le_of_lt named.shorter.2⟩
      next => exact ⟨s, here, Nat.le_refl _⟩
    refine Sat.andThen keyed ?_ (fun _ => trivial) (fun _ => trivial) (fun _ => trivial)
    rintro key' g₁ ⟨s₁, value, short⟩
    split
    next => simp [shrinking]
    next =>
      rw [value, withString]
      split
      next => simp [shrinking]
      next inside =>
        refine Sat.andThen (parseValue_sat (reading_sound fuel) value (ne_nil_of_first inside)) ?_
          (fun _ => trivial) (fun _ => trivial) (fun _ => trivial)
        intro v g' read
        cases v with
        | none => simp [shrinking]
        | some x =>
          obtain ⟨rest, there, takes⟩ := read x rfl
          have shorter := takes.shorter.2
          dsimp only
          split
          next => simp [shrinking]
          next =>
            cases key' with
            | string name =>
              rw [there, withString, withString]
              exact fun _ _ => ⟨rest, there, by omega⟩
            | nil => trivial
            | number n => trivial
            | table t => trivial

def consuming (s : Bytes) : Post Globals (LuaValue × LuaValue) where
  done result _ := ∀ t next, result = (.table t, next) →
    ∃ rest, next = .string rest ∧ rest <:+ s ∧ rest ≠ s
  fault := True
  crash := False
  timeout := False

theorem consuming_of_sat {late : Prop} {part : Table → Part} {s : Bytes}
    {outcome : Outcome Globals (LuaValue × LuaValue)} (sat : outcome.Sat (tablePost late part s))
    (enough : ¬ late) : outcome.Sat (consuming s) := by
  refine Sat.mono sat ?_ id id enough
  rintro result g' (none | ⟨t, rest, rfl, takes⟩) t' next same
  next =>
    rw [same] at none
    cases none
  next =>
    cases same
    exact ⟨rest, rfl, takes.shorter.1, takes.ne.symm⟩

/-- The functions end in time on any text. The loops are their rounds, and every round that comes to
the test again has made the global text shorter. -/
structure Consumes : Prop where
  list : ∀ g x fuel, 2 * x.length + 1 ≤ fuel → (parseList fuel g x).Sat (consuming x)
  dict : ∀ g x fuel, 2 * x.length + 1 ≤ fuel → (parseDict fuel g x).Sat (consuming x)
  listLoop : ∀ fuel g list i flag, parseListLoop (fuel + 1) g list i flag =
    (Lua.listRound fuel g list i flag).rounds fun (list, i, flag) g =>
      parseListLoop fuel g list i flag
  dictLoop : ∀ fuel g key dict flag, parseDictLoop (fuel + 1) g key dict flag =
    (Lua.dictRound fuel g key dict flag).rounds fun (key, dict, flag) g =>
      parseDictLoop fuel g key dict flag
  listRound : ∀ fuel g t i s t' i' flag g', g.str = .string s →
    listRound fuel g t i (first s) = .done (.again (t', i', flag)) g' →
      parseListLoop (fuel + 1) g t i (first s) = parseListLoop fuel g' t' i' flag ∧
        ∃ s', g'.str = .string s' ∧ s'.length < s.length
  dictRound : ∀ fuel g key t s key' t' flag g', g.str = .string s →
    dictRound fuel g key t (first s) = .done (.again (key', t', flag)) g' →
      parseDictLoop (fuel + 1) g key t (first s) = parseDictLoop fuel g' key' t' flag ∧
        ∃ s', g'.str = .string s' ∧ s'.length < s.length

theorem lua_parse_consumes : Consumes where
  list g x fuel enough := consuming_of_sat ((reading_sound fuel).list g x) (by omega)
  dict g x fuel enough := consuming_of_sat ((reading_sound fuel).dict g x) (by omega)
  listLoop := parseListLoop_rounds
  dictLoop := parseDictLoop_rounds
  listRound := by
    intro fuel g t i s t' i' flag g' here round
    have shrinks := listRound_shrinks fuel g t i s here
    rw [round] at shrinks
    rw [parseListLoop_rounds, round]
    exact ⟨rfl, shrinks _ rfl⟩
  dictRound := by
    intro fuel g key t s key' t' flag g' here round
    have shrinks := dictRound_shrinks fuel g key t s here
    rw [round] at shrinks
    rw [parseDictLoop_rounds, round]
    exact ⟨rfl, shrinks _ rfl⟩

end BTServer.Lua
