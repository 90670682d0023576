import BTServer.Lua.Grammar

set_option autoImplicit false

namespace BTServer.Lua

open Bencode CString Outcome

def Cut (p w : Bytes) : Prop := p <+: w ∧ p ≠ w

theorem Cut.append {p a b : Bytes} (cut : Cut p (a ++ b)) :
    Cut p a ∨ ∃ p', p = a ++ p' ∧ Cut p' b := by
  obtain ⟨⟨t, whole⟩, short⟩ := cut
  rcases List.append_eq_append_iff.mp whole with ⟨a', rfl, rfl⟩ | ⟨p', rfl, rfl⟩
  next =>
    by_cases none : a' = []
    next =>
      subst none
      refine .inr ⟨[], by simp, List.nil_prefix, ?_⟩
      rintro rfl
      exact short (by simp)
    next => exact .inl ⟨List.prefix_append _ _, by simpa using none⟩
  next =>
    refine .inr ⟨p', rfl, List.prefix_append _ _, ?_⟩
    intro same
    exact short (by rw [← same])

theorem Cut.cons {p w : Bytes} {c : UInt8} (cut : Cut p (c :: w)) (some : p ≠ []) :
    ∃ p', p = c :: p' ∧ Cut p' w := by
  obtain ⟨front, short⟩ := cut
  cases p with
  | nil => exact absurd rfl some
  | cons d p =>
    obtain ⟨rfl, later⟩ := List.cons_prefix_cons.mp front
    exact ⟨p, rfl, later, fun same => short (by rw [same])⟩

theorem Cut.singleton {p : Bytes} {c : UInt8} (cut : Cut p [c]) : p = [] := by
  by_contra some
  obtain ⟨p', rfl, front, short⟩ := cut.cons some
  exact short (List.prefix_nil.mp front)

def nilPost : Post Globals (LuaValue × LuaValue) :=
  ⟨fun result _ => result.1 = .nil, False, False, False⟩

/-- There is no value, or nothing is left behind it: a string is accepted that is too short. -/
def cutPost : Post Globals (Option LuaValue) :=
  ⟨fun v g => v = none ∨ g.str = .string [], False, False, False⟩

def Fails (p : Bytes) : Content → Prop
  | .value _ => p ≠ [] → ∃ enough, ∀ fuel, enough ≤ fuel → ∀ g, g.str = .string p →
      (parseValue (parseList fuel) (parseDict fuel) g (first p)).Sat cutPost
  | .items _ => ∃ enough, ∀ fuel, enough ≤ fuel → ∀ g t i, g.str = .string p →
      (parseListLoop fuel g t i (first p)).Sat nilPost
  | .entries _ => ∃ enough, ∀ fuel, enough ≤ fuel → ∀ g key t, g.str = .string p →
      (parseDictLoop fuel g (.string key) t (first p)).Sat nilPost

@[simp] theorem first_nil : first [] = [] := rfl

theorem parseListLoop_nothing (fuel : Nat) (g : Globals) (t : Table) (i : Nat) :
    (parseListLoop (fuel + 1) g t i []).Sat nilPost := by
  rw [parseListLoop, if_neg (by decide)]
  rfl

theorem parseDictLoop_nothing (fuel : Nat) (g : Globals) (key : Bytes) (t : Table)
    (here : g.str = .string []) : (parseDictLoop (fuel + 1) g (.string key) t []).Sat nilPost := by
  have kept : parseKey g (.string key) [] = .done (.string key) g := if_neg (by decide)
  rw [parseDictLoop, if_neg (by decide), kept, done_andThen]
  simp [here, LuaValue.isNil, withString, nilPost]

theorem fails_item {p : Bytes} {v : Value} {vs : List Value} (some : p ≠ [])
    (more : first p ≠ ascii "e") (value : Fails p (.value v)) : Fails p (.items vs) := by
  obtain ⟨enough, fails⟩ := value some
  refine ⟨max enough 1 + 1, fun fuel large g t i here => ?_⟩
  obtain ⟨fuel, rfl, within⟩ := succ_of_le large
  have inside : first p ≠ [] := by
    obtain ⟨c, rest, rfl⟩ := List.exists_cons_of_ne_nil some
    simp
  rw [parseListLoop, if_neg more, if_neg inside]
  refine Sat.andThen (fails fuel (by omega) g here) ?_ id id id
  rintro v g' (rfl | there)
  next => rfl
  next =>
    cases v with
    | none => rfl
    | some x =>
      obtain ⟨fuel, rfl⟩ : ∃ n, fuel = n + 1 := ⟨fuel - 1, by omega⟩
      simp only [here, there, LuaValue.equals, some, decide_false, Bool.false_eq_true, if_false,
        withString]
      exact parseListLoop_nothing fuel g' _ _

theorem fails_named {p p₁ name : Bytes} {v : Value} {es : List (Bytes × Value)}
    (more : first p ≠ ascii "e") (some : p ≠ [])
    (named : ∀ g key, g.str = .string p → ∃ g', parseKey g (.string key) (first p) =
      .done (.string name) g' ∧ g'.str = .string p₁)
    (value : Fails p₁ (.value v)) : Fails p (.entries es) := by
  by_cases missing : p₁ = []
  next =>
    refine ⟨1, fun fuel large g key t here => ?_⟩
    obtain ⟨fuel, rfl, within⟩ := succ_of_le large
    obtain ⟨g', read, there⟩ := named g key here
    rw [parseDictLoop, if_neg more, read, done_andThen]
    simp [there, missing, LuaValue.isNil, withString, nilPost]
  next =>
    obtain ⟨enough, fails⟩ := value missing
    refine ⟨max enough 1 + 1, fun fuel large g key t here => ?_⟩
    obtain ⟨fuel, rfl, within⟩ := succ_of_le large
    obtain ⟨g₁, read, there⟩ := named g key here
    have inside : first p₁ ≠ [] := by
      obtain ⟨c, rest, rfl⟩ := List.exists_cons_of_ne_nil missing
      simp
    rw [parseDictLoop, if_neg more, read, done_andThen]
    simp only [there, LuaValue.isNil, Bool.or_self, Bool.false_eq_true, if_false, withString, inside]
    refine Sat.andThen (fails fuel (by omega) g₁ there) ?_ id id id
    rintro v g' (rfl | there')
    next => rfl
    next =>
      cases v with
      | none => rfl
      | some x =>
        obtain ⟨fuel, rfl⟩ : ∃ n, fuel = n + 1 := ⟨fuel - 1, by omega⟩
        simp only [here, there', LuaValue.equals, some, decide_false, Bool.false_eq_true, if_false]
        exact parseDictLoop_nothing fuel g' name _ there'

theorem find_absent {s : Bytes} {c : UInt8} (absent : c ∉ s) : find s c = none := by
  simp only [find, Option.map_eq_none_iff, List.findIdx?_eq_none_iff]
  intro d member
  simpa using fun same : d = c => absent (same ▸ member)

theorem parseString_colonless {p : Bytes} (absent : 58 ∉ p) (g : Globals) :
    ∃ g', parseString g p = .done (.nil, .string p) g' := by
  simp only [parseString, find_absent absent]
  exact ⟨_, rfl⟩

theorem parseString_cut {text data p : Bytes} (digits : Digits text)
    (length : digitsValue text = data.length) (fits : IsString (text ++ 58 :: data))
    (cut : Cut p (text ++ 58 :: data)) (some : p ≠ []) :
    (∃ d, first p = [d] ∧ isDigit d = true) ∧
      ((∀ g, ∃ g', parseString g p = .done (.nil, .string p) g') ∨
        ∃ name, ∀ g, ∃ g', parseString g p = .done (.string name, .string []) g') := by
  have free : 58 ∉ text := fun member => ((digits_free text digits.2).1 58 member).1 rfl
  rcases cut.append with ⟨front, -⟩ | ⟨p', rfl, cut'⟩
  next =>
    obtain ⟨t, rfl⟩ := front
    obtain ⟨d, rest, rfl⟩ := List.exists_cons_of_ne_nil some
    refine ⟨⟨d, first_cons _ _, digits.2 d (by simp)⟩, .inl ?_⟩
    exact parseString_colonless fun member => free (List.mem_append_left _ member)
  next =>
    refine ⟨digits_first digits p', ?_⟩
    by_cases none : p' = []
    next =>
      subst none
      rw [List.append_nil]
      exact .inl (parseString_colonless free)
    next =>
      obtain ⟨data', rfl, front, short⟩ := cut'.cons none
      refine .inr ⟨data'.take (digitsValue text), fun g => ?_⟩
      have small : (digitsValue text : Int) < maxInteger := by
        simp only [IsString, List.length_append, List.length_cons] at fits
        simp only [maxInteger]
        omega
      have nothing : data'.drop (digitsValue text) = [] := by
        rw [length]
        exact List.drop_eq_nil_of_le front.length_le
      have taken := @stringTaken_digits text data' digits small
      rw [nothing] at taken
      exact parseString_taken taken g

theorem fails_str {text data p : Bytes} (digits : Digits text)
    (length : digitsValue text = data.length) (fits : IsString (text ++ 58 :: data))
    (cut : Cut p (text ++ 58 :: data)) (v : Value) : Fails p (.value v) := by
  intro some
  obtain ⟨⟨d, start, digit⟩, read⟩ := parseString_cut digits length fits cut some
  have tag := digit_tag digit
  simp only [List.mem_cons, List.not_mem_nil, or_false, not_or] at tag
  refine ⟨0, fun fuel _ g here => ?_⟩
  rw [start, parseValue, here, withString, if_neg tag.1, if_neg tag.2.1, if_neg tag.2.2]
  rcases read with refused | ⟨name, accepted⟩
  next =>
    obtain ⟨g', parsed⟩ := refused g
    rw [parsed]
    exact .inl rfl
  next =>
    obtain ⟨g', parsed⟩ := accepted g
    rw [parsed]
    exact .inr rfl

theorem fails_int {text p : Bytes} {n : Int} (number : Denotes text n)
    (cut : Cut p (105 :: (text ++ [101]))) (v : Value) : Fails p (.value v) := by
  intro some
  obtain ⟨p', rfl, cut'⟩ := cut.cons some
  have absent : 101 ∉ p' := by
    intro member
    have inside : 101 ∈ text := by
      rcases cut'.append with ⟨front, -⟩ | ⟨p'', rfl, last⟩
      next => exact front.subset member
      next => simpa [last.singleton] using member
    exact (denotes_free number 101 inside).1 rfl
  have behind : sub (105 :: p') 2 (-1) = p' := sub_drop (105 :: p') 1
  have tag : ¬ first (105 :: p') ≠ ascii "i" := by simp [ascii]
  refine ⟨0, fun fuel _ g here => ?_⟩
  rw [parseValue, here, withString, first_cons, if_neg (by decide), if_pos (by decide)]
  simp only [parseInt, tag, if_false, behind, find_absent absent]
  exact .inl rfl

theorem parseList_cut {p w : Bytes} {vs : List Value} (cut : Cut p (108 :: w))
    (inside : ∀ p', Cut p' w → Fails p' (.items vs)) :
    ∃ enough, ∀ fuel, enough ≤ fuel → ∀ g, (parseList fuel g p).Sat nilPost := by
  by_cases none : p = []
  next =>
    refine ⟨1, fun fuel large g => ?_⟩
    obtain ⟨fuel, rfl, -⟩ := succ_of_le large
    rw [none, parseList, if_pos (by decide)]
    rfl
  next =>
    obtain ⟨p', rfl, cut'⟩ := cut.cons none
    obtain ⟨enough, fails⟩ := inside p' cut'
    refine ⟨enough + 1, fun fuel large g => ?_⟩
    obtain ⟨fuel, rfl, within⟩ := succ_of_le large
    have behind : sub (108 :: p') 2 (-1) = p' := sub_drop (108 :: p') 1
    rw [parseList, if_neg (by simp [ascii]), behind]
    exact fails fuel within _ [] 0 rfl

theorem parseDict_cut {p w : Bytes} {es : List (Bytes × Value)} (cut : Cut p (100 :: w))
    (inside : ∀ p', Cut p' w → Fails p' (.entries es)) :
    ∃ enough, ∀ fuel, enough ≤ fuel → ∀ g, (parseDict fuel g p).Sat nilPost := by
  by_cases none : p = []
  next =>
    refine ⟨1, fun fuel large g => ?_⟩
    obtain ⟨fuel, rfl, -⟩ := succ_of_le large
    rw [none, parseDict, if_pos (by decide)]
    rfl
  next =>
    obtain ⟨p', rfl, cut'⟩ := cut.cons none
    obtain ⟨enough, fails⟩ := inside p' cut'
    refine ⟨enough + 1, fun fuel large g => ?_⟩
    obtain ⟨fuel, rfl, within⟩ := succ_of_le large
    have behind : sub (100 :: p') 2 (-1) = p' := sub_drop (100 :: p') 1
    rw [parseDict, if_neg (by simp [ascii]), behind]
    exact fails fuel within _ [] [] rfl

theorem cut_of_nil {outcome : Outcome Globals (LuaValue × LuaValue)} (sat : outcome.Sat nilPost)
    (store : LuaValue → LuaValue → Globals → Globals) :
    (outcome.andThen fun (v, str) g =>
      if v.isNil || (store v str g).str.isNil then .done none (store v str g)
      else .done (some v) (store v str g)).Sat cutPost := by
  refine Sat.andThen sat ?_ id id id
  rintro ⟨v, str⟩ g rfl
  exact .inl rfl

theorem fails_list {p w : Bytes} {vs : List Value} (cut : Cut p (108 :: w))
    (inside : ∀ p', Cut p' w → Fails p' (.items vs)) (v : Value) : Fails p (.value v) := by
  intro some
  obtain ⟨enough, fails⟩ := parseList_cut cut inside
  obtain ⟨p', rfl, -⟩ := cut.cons some
  refine ⟨enough, fun fuel large g here => ?_⟩
  rw [parseValue, here, withString, first_cons, if_pos (by decide)]
  exact cut_of_nil (fails fuel large g) fun l str g => { g with l, str }

theorem fails_dict {p w : Bytes} {es : List (Bytes × Value)} (cut : Cut p (100 :: w))
    (inside : ∀ p', Cut p' w → Fails p' (.entries es)) (v : Value) : Fails p (.value v) := by
  intro some
  obtain ⟨enough, fails⟩ := parseDict_cut cut inside
  obtain ⟨p', rfl, -⟩ := cut.cons some
  refine ⟨enough, fun fuel large g here => ?_⟩
  rw [parseValue, here, withString, first_cons, if_neg (by decide), if_neg (by decide),
    if_pos (by decide)]
  exact cut_of_nil (fails fuel large g) fun d str g => { g with d, str }

theorem fails_nothing (vs : List Value) (es : List (Bytes × Value)) :
    Fails [] (.items vs) ∧ Fails [] (.entries es) := by
  constructor
  next =>
    refine ⟨1, fun fuel large g t i here => ?_⟩
    obtain ⟨fuel, rfl, -⟩ := succ_of_le large
    exact parseListLoop_nothing fuel g t i
  next =>
    refine ⟨1, fun fuel large g key t here => ?_⟩
    obtain ⟨fuel, rfl, -⟩ := succ_of_le large
    exact parseDictLoop_nothing fuel g key t here

theorem fails_later {p p' : Bytes} {x : LuaValue} {vs vs' : List Value} (some : first p ≠ [])
    (more : first p ≠ ascii "e") (moved : p ≠ p') (here : Runs p p' (.value x))
    (later : Fails p' (.items vs)) : Fails p (.items vs') := by
  obtain ⟨enough, runs⟩ := here
  obtain ⟨enough', fails⟩ := later
  refine ⟨max enough enough' + 1, fun fuel large g t i str => ?_⟩
  obtain ⟨fuel, rfl, within⟩ := succ_of_le large
  obtain ⟨g', parsed, there⟩ := runs fuel (by omega) g str
  rw [parseListLoop_item more some str parsed there moved]
  exact fails fuel (by omega) g' _ _ there

theorem fails_entry_later {p p₁ p₂ name : Bytes} {x : LuaValue} {es es' : List (Bytes × Value)}
    (more : first p ≠ ascii "e") (some : first p₁ ≠ []) (moved : p ≠ p₂)
    (named : ∀ g key, g.str = .string p → ∃ g', parseKey g (.string key) (first p) =
      .done (.string name) g' ∧ g'.str = .string p₁)
    (here : Runs p₁ p₂ (.value x)) (later : Fails p₂ (.entries es)) : Fails p (.entries es') := by
  obtain ⟨enough, runs⟩ := here
  obtain ⟨enough', fails⟩ := later
  refine ⟨max enough enough' + 1, fun fuel large g key t str => ?_⟩
  obtain ⟨fuel, rfl, within⟩ := succ_of_le large
  obtain ⟨g₁, read, value⟩ := named g key str
  obtain ⟨g', parsed, there⟩ := runs fuel (by omega) g₁ value
  rw [parseDictLoop_entry more str read value some parsed there moved]
  exact fails fuel (by omega) g' _ _ there

theorem Cut.first_eq {p w : Bytes} (cut : Cut p w) (some : p ≠ []) (rest : Bytes) :
    first (w ++ rest) = first p := by
  obtain ⟨⟨t, rfl⟩, -⟩ := cut
  rw [List.append_assoc, first_append some]

theorem parseKey_digit {p name rest : Bytes} {d : UInt8} (start : first p = [d])
    (digit : isDigit d = true)
    (read : ∀ g, ∃ g', parseString g p = .done (.string name, .string rest) g') (g : Globals)
    (key : Bytes) (here : g.str = .string p) :
    ∃ g', parseKey g (.string key) (first p) = .done (.string name) g' ∧
      g'.str = .string rest := by
  obtain ⟨g', parsed⟩ := read g
  refine ⟨{ g' with str := .string rest }, ?_, rfl⟩
  rw [start, parseKey, if_pos (tonumber_digit digit), here, withString, parsed]
  rfl

theorem fails_key {text key p : Bytes} {es : List (Bytes × Value)} (digits : Digits text)
    (length : digitsValue text = key.length) (fits : IsString (text ++ 58 :: key))
    (cut : Cut p (text ++ 58 :: key)) (some : p ≠ []) : Fails p (.entries es) := by
  obtain ⟨⟨d, start, digit⟩, read⟩ := parseString_cut digits length fits cut some
  have more : first p ≠ ascii "e" := by
    rw [start]
    exact digit_not_end digit
  rcases read with refused | ⟨name, accepted⟩
  next =>
    refine ⟨1, fun fuel large g last t here => ?_⟩
    obtain ⟨fuel, rfl, -⟩ := succ_of_le large
    obtain ⟨g', parsed⟩ := refused g
    rw [parseDictLoop, if_neg more, parseKey, start, if_pos (tonumber_digit digit), here,
      withString, parsed]
    rfl
  next =>
    have nothing : Fails [] (.value (.int 0)) := fun none => absurd rfl none
    exact fails_named more some (parseKey_digit start digit accepted) nothing

def CutFails (w : Bytes) : Content → Prop
  | .value v => IsString w → ∀ p, Cut p w → Fails p (.value v)
  | .items vs => IsString (w ++ [101]) → ∀ p, Cut p (w ++ [101]) → Fails p (.items vs)
  | .entries es => IsString (w ++ [101]) → ∀ p, Cut p (w ++ [101]) → Fails p (.entries es)

theorem wellFormed_fails {w : Bytes} {content : Content} (formed : WellFormed w content) :
    CutFails w content := by
  induction formed with
  | str digits length => exact fun fits p cut => fails_str digits length fits cut _
  | int number => exact fun fits p cut => fails_int number cut _
  | list inside ih =>
    intro fits p cut
    exact fails_list cut (ih (fits.of_le (by simp))) _
  | dict inside ih =>
    intro fits p cut
    exact fails_dict cut (ih (fits.of_le (by simp))) _
  | nil =>
    intro fits p cut
    rw [Cut.singleton cut]
    exact (fails_nothing [] []).1
  | @cons w ws v vs formed others ih ih' =>
    intro fits p cut
    rw [List.append_assoc] at fits cut
    by_cases none : p = []
    next =>
      rw [none]
      exact (fails_nothing _ []).1
    next =>
      rcases cut.append with inside | ⟨p', rfl, later⟩
      next =>
        have more := wellFormed_first formed []
        rw [inside.first_eq none] at more
        exact fails_item none more (ih (fits.of_le (by simp)) p inside)
      next =>
        have more := wellFormed_first formed p'
        have short := later.1.length_le
        have takes := wellFormed_read formed p' (fits.of_le (by
          simp only [List.length_append] at short ⊢
          omega))
        exact fails_later (first_ne_nil takes.shorter.2) more takes.ne (takes_runs takes)
          (ih' (fits.of_append) p' later)
  | done =>
    intro fits p cut
    rw [Cut.singleton cut]
    exact (fails_nothing [] []).2
  | @entry text key w ws v es digits length formed others ih ih' =>
    intro fits p cut
    rw [List.append_assoc, List.append_assoc] at fits cut
    by_cases none : p = []
    next =>
      rw [none]
      exact (fails_nothing [] _).2
    next =>
      rcases cut.append with inside | ⟨p₁, rfl, later⟩
      next => exact fails_key digits length (fits.of_le (by simp)) inside none
      next =>
        have fits₁ : IsString (text ++ 58 :: key ++ p₁) := fits.of_le (by
          have short := later.1.length_le
          simp only [List.length_append] at short ⊢
          omega)
        have whole := parseString_taken (takes_text digits length fits₁).1
        obtain ⟨d, start, digit⟩ := digits_first digits (58 :: key ++ p₁)
        rw [← List.append_assoc] at start
        have named := parseKey_digit start digit whole
        have more : first (text ++ 58 :: key ++ p₁) ≠ ascii "e" := by
          rw [start]
          exact digit_not_end digit
        rcases later.append with inside | ⟨p₂, rfl, behind⟩
        next => exact fails_named more none named (ih (fits.of_append.of_le (by simp)) p₁ inside)
        next =>
          have takes := wellFormed_read formed p₂ fits₁.of_append
          refine fails_entry_later more (first_ne_nil takes.shorter.2) ?_ named (takes_runs takes)
            (ih' fits.of_append.of_append p₂ behind)
          intro same
          have length := congrArg List.length same
          have short := takes.shorter.2
          simp only [List.length_append, List.length_cons] at length short
          omega

/-- With enough steps, both functions refuse what is left of a text when its end is missing,
whatever the variables held. -/
theorem lua_refuses_truncated (g : Globals) (p : Bytes) :
    (∀ es, IsString (enc (.dict es)) → Cut p (enc (.dict es)) →
      ∃ enough, ∀ fuel, enough ≤ fuel → ∃ next g', parseDict fuel g p = .done (.nil, next) g') ∧
    (∀ vs, IsString (enc (.list vs)) → Cut p (enc (.list vs)) →
      ∃ enough, ∀ fuel, enough ≤ fuel → ∃ next g', parseList fuel g p = .done (.nil, next) g') := by
  have returned {outcome : Outcome Globals (LuaValue × LuaValue)} (sat : outcome.Sat nilPost) :
      ∃ next g', outcome = .done (.nil, next) g' := by
    match outcome, sat with
    | .done (.nil, next) g', rfl => exact ⟨next, g', rfl⟩
  constructor
  next =>
    intro es fits cut
    obtain ⟨_, formed⟩ := encEntries_wellFormed es
    rw [enc] at fits cut
    have inside := wellFormed_fails formed (fits.of_le (by simp))
    obtain ⟨enough, refused⟩ := parseDict_cut cut inside
    exact ⟨enough, fun fuel large => returned (refused fuel large g)⟩
  next =>
    intro vs fits cut
    obtain ⟨_, formed⟩ := encItems_wellFormed vs
    rw [enc] at fits cut
    have inside := wellFormed_fails formed (fits.of_le (by simp))
    obtain ⟨enough, refused⟩ := parseList_cut cut inside
    exact ⟨enough, fun fuel large => returned (refused fuel large g)⟩

/-- The string is cut in the middle and taken as it is; the missing end is what refuses it. -/
theorem lua_refuses_short_string :
    ∃ enough, ∀ fuel, enough ≤ fuel → ∃ next g',
      parseDict fuel ⟨.nil, .nil, .nil, .nil, .nil, .nil, .nil, .nil, .nil, .nil, .nil, .nil⟩
        (ascii "d1:al3:e:") = .done (.nil, next) g' := by
  refine (lua_refuses_truncated _ (ascii "d1:al3:e:")).1 [(ascii "a", .list [.str (ascii "e:e") 3])]
    ?_ ⟨?_, ?_⟩
  · unfold IsString
    decide
  · decide
  · decide

end BTServer.Lua
