import BTServer.Bencode.Fate

set_option autoImplicit false

namespace BTServer.Bencode

open CString Outcome

theorem Comes.exits {env : Env} {exit : Exit env} {place place₀ : Place} {s s₀ : Scan}
    {t t₀ : Bytes} (comes : Comes env place s t place₀ s₀ t₀)
    (complains : ∀ st, exit.element .rejected st → exit.element .rejected
      (st.print .error "b_dict_parse" 657 (ascii "Error list entry type\n")))
    (last : Exits exit s t place) : Exits exit s₀ t₀ place₀ := by
  induction comes with
  | arrived => exact last
  | str node tag inside ih => exact exits_str node tag ih
  | list node inside ih => exact exits_list node ih
  | dict node inside ih => exact exits_dict node ih
  | here start inside ih => exact exits_here start ih
  | later start first rest ih => exact exits_later start first ih
  | retry start node rest ih => exact exits_retry start node ih
  | key start node inside ih => exact exits_key start node ih
  | value start node read inside ih => exact exits_value start node read complains ih
  | entry start node read first rest ih => exact exits_entry start node read first ih
  | drop start node read failed rest ih => exact exits_drop start node read failed ih

def rejection (env : Env) : Fate env where
  element e := e = .rejected
  result next := next = none
  fault := False
  timeout := False
  returned _ same := ⟨same, rfl⟩
  carried _ same := .inl ⟨same, rfl⟩

section Refused

variable {env : Env} {s : Scan} {t : Bytes}

theorem text_exits (refuses : Refuses env s t .text) : Exits (rejection env).exit s t .text := by
  intro st p target scan here
  subst scan
  rcases refuses with absent | ⟨text, rest, rfl, free, fails⟩
  next =>
    simp only [bStringParse, here.rest, absent]
    rfl
  next =>
    rw [bStringParse_eq env st p text rest target here free, if_pos fails]
    rfl

theorem int_exits (refuses : Refuses env s t .value) : Exits (rejection env).exit s t .value := by
  obtain ⟨node, rest, rfl, refuses⟩ := refuses
  refine ⟨0, fun fuel _ st p release complain _ scan here => ?_⟩
  subst scan
  have noList : ¬ (105 : UInt8) = 108 := by decide
  obtain ⟨i, st', parsed⟩ : ∃ i st',
      bIntParse env (st.malloc env) p (bIntAlloc st.mallocs) = .done (none, i) st' := by
    rcases refuses with absent | ⟨text, after, rfl, free, fails⟩
    next =>
      simp only [bIntParse, here.rest, absent]
      exact ⟨_, _, rfl⟩
    next =>
      exact ⟨_, _, (bIntParse_eq env (st.malloc env) p text after _ here free).trans (if_pos fails)⟩
  simp only [parseElement, node, List.headD_cons, noList, Bool.true_eq_false, if_false, if_true,
    parsed, done_andThen]
  rfl

theorem node_exits (refuses : Refuses env s t .entries) :
    Exits (rejection env).exit s t .entries := by
  obtain ⟨start, failed⟩ := refuses
  refine ⟨1, fun fuel large st p ret scan here => ?_⟩
  obtain ⟨fuel, rfl, -⟩ := succ_of_le large
  subst scan
  simp only [bDictLoop, here.load, headD_ne_end start, failed, if_false, if_true]
  rfl

theorem Refused.exits {place : Place} (refused : Refused env place s t) :
    Exits (rejection env).exit s t place := by
  obtain ⟨place', s', t', comes, refuses⟩ := refused
  refine comes.exits (fun _ => id) ?_
  cases place' with
  | text => exact text_exits refuses
  | value => exact int_exits refuses
  | items => exact refuses.elim
  | entries => exact node_exits refuses

-- The loop gives up with the entries it has added to those that were there.
def Leaves (env : Env) (s : Scan) (t : Bytes) (es : List (Bytes × Value)) : Prop :=
  ∃ enough, ∀ fuel, enough ≤ fuel → ∀ st p ret, st.toScan = s → env.At p t → ∃ d st',
    bDictLoop env fuel st p ret = .done (none, d) st' ∧
      eraseEntries d.entries = eraseEntries ret.entries ++ es

theorem leaves_node (start : NoEnd t) (failed : env.alloc s.mallocs = false) :
    Leaves env s t [] := by
  refine ⟨1, fun fuel large st p ret scan here => ?_⟩
  obtain ⟨fuel, rfl, -⟩ := succ_of_le large
  subst scan
  refine ⟨ret, st.malloc env, ?_, by simp⟩
  simp only [bDictLoop, here.load, headD_ne_end start, failed, if_false, if_true]

theorem leaves_key (start : NoEnd t) (node : env.alloc s.mallocs = true)
    (refuses : Refuses env (s.malloc env) t .text) : Leaves env s t [] := by
  refine ⟨1, fun fuel large st p ret scan here => ?_⟩
  obtain ⟨fuel, rfl, -⟩ := succ_of_le large
  subst scan
  obtain ⟨⟨next, key⟩, st', parsed, rejected⟩ :=
    (text_exits refuses (st.malloc env) p (bStringAlloc st.mallocs) rfl here).returns id id id
  cases next with
  | some q => cases rejected
  | none =>
    refine ⟨ret, st'.free (bStringFree key), ?_, by simp⟩
    simp only [bDictLoop, here.load, headD_ne_end start, node, parsed, done_andThen, if_false,
      Bool.true_eq_false]

theorem leaves_value {s₁ : Scan} {text key : Bytes} (start : NoEnd text)
    (node : env.alloc s.mallocs = true) (read : TextRead env (s.malloc env) text key s₁)
    (refused : Refused env .value s₁ t) : Leaves env s (text ++ 58 :: key ++ t) [] := by
  obtain ⟨enough, ends⟩ := refused.exits
  refine ⟨enough + 1, fun fuel large st p ret scan here => ?_⟩
  obtain ⟨fuel, rfl, within⟩ := succ_of_le large
  obtain ⟨target, st₀, scan₀, -, there, round⟩ :=
    bDictLoop_value start node read fuel st p t ret scan here
  obtain ⟨element, st', parsed, rfl⟩ :=
    (ends fuel within st₀ _ (bStringFree target)
      (fun st => st.print .error "b_dict_parse" 657 (ascii "Error list entry type\n"))
      (fun _ => id) scan₀ there).returns id id id
  exact ⟨ret, st', by rw [round, parsed, done_andThen], by simp⟩

theorem leaves_entry {s₁ s₂ : Scan} {text key w : Bytes} {v : Value} {es : List (Bytes × Value)}
    (start : NoEnd text) (node : env.alloc s.mallocs = true)
    (read : TextRead env (s.malloc env) text key s₁) (first : Reads env .any s₁ w (.value v) s₂)
    (rest : Leaves env (s₂.malloc env) t es) :
    Leaves env s (text ++ 58 :: key ++ w ++ t)
      (if env.alloc s₂.mallocs then (cutKey key, v) :: es else es) := by
  obtain ⟨enough₁, accepts⟩ := reads_accepts first
  obtain ⟨enough₂, leaves⟩ := rest
  refine ⟨max enough₁ enough₂ + 1, fun fuel large st p ret scan here => ?_⟩
  obtain ⟨fuel, rfl, within⟩ := succ_of_le large
  rw [List.append_assoc] at here
  obtain ⟨target, st₀, scan₀, stored, there, round⟩ :=
    bDictLoop_value start node read fuel st p (w ++ t) ret scan here
  obtain ⟨x, st₁, parsed, erased, after⟩ := accepts fuel (by omega) st₀ _ t _ _ scan₀ there
  obtain ⟨d, st', loop, contents⟩ := leaves fuel (by omega)
    ((bDictAdd env st₁ x target ret).2.free (bStringFree target)) _
    (bDictAdd env st₁ x target ret).1
    (by change (bDictAdd env st₁ x target ret).2.toScan = _; rw [bDictAdd_scan, after])
    there.advance
  refine ⟨d, st', ?_, ?_⟩
  · rw [round, parsed, done_andThen]
    exact loop
  · rw [contents, bDictAdd_erase, erased, after, stored]

theorem leaves_drop {s₁ : Scan} {text key : Bytes} {es : List (Bytes × Value)}
    (start : NoEnd text) (node : env.alloc s.mallocs = true)
    (read : TextRead env (s.malloc env) text key s₁) (failed : env.alloc s₁.mallocs = false)
    (rest : Leaves env (s₁.malloc env) t es) : Leaves env s (text ++ 58 :: key ++ t) es := by
  obtain ⟨enough, leaves⟩ := rest
  refine ⟨enough + 1, fun fuel large st p ret scan here => ?_⟩
  obtain ⟨fuel, rfl, within⟩ := succ_of_le large
  obtain ⟨target, st₀, scan₀, -, there, round⟩ :=
    bDictLoop_value start node read fuel st p t ret scan here
  obtain ⟨d, st', loop, contents⟩ := leaves fuel within
    ((st₀.malloc env).free (bStringFree target)) _ ret (by rw [← scan₀]; rfl) there
  refine ⟨d, st', ?_, contents⟩
  rw [← scan₀] at failed
  rw [round]
  simp only [parseElement, failed, if_true, done_andThen]
  exact loop

theorem GivesUp.leaves {es : List (Bytes × Value)} (gives : GivesUp env s t es) :
    Leaves env s t es := by
  induction gives with
  | node start failed => exact leaves_node start failed
  | key start node refuses => exact leaves_key start node refuses
  | value start node read refused => exact leaves_value start node read refused
  | entry start node read first rest ih => exact leaves_entry start node read first ih
  | drop start node read failed rest ih => exact leaves_drop start node read failed ih

end Refused

-- What a new dictionary holds when the parse of the buffer has returned, whatever it has returned.
inductive Filled (env : Env) (s : Scan) : List (Bytes × Value) → Prop
  | read {es : List (Bytes × Value)} (holds : Holds env s es) : Filled env s es
  | cut {rest : Bytes} {es : List (Bytes × Value)} (whole : env.buf = 100 :: rest)
      (gives : GivesUp env s rest es) : Filled env s es
  | other (tag : ∀ rest, env.buf ≠ 100 :: rest) : Filled env s []

theorem bDictParse_other {env : Env} (tag : ∀ rest, env.buf ≠ 100 :: rest) (fuel : Nat) (st : St)
    (ret : BDict) : bDictParse env (fuel + 1) st 0 ret = .done (none, ret) st := by
  have other : env.buf.headD 0 ≠ 100 := by
    intro same
    obtain ⟨rest, whole⟩ := headD_cons same (by decide)
    exact tag rest whole
  simp only [bDictParse, env.at_zero.load]
  rw [if_pos other]

theorem filled_of_returned {env : Env} {fuel node : Nat} {st st' : St} {next : Option Nat}
    {d : BDict} (returned : bDictParse env fuel st 0 (bDictAlloc node) = .done (next, d) st') :
    Filled env st.toScan (eraseEntries d.entries) := by
  cases next with
  | some q => exact .read (holds_of_accepted returned)
  | none =>
    by_cases tag : ∃ rest, env.buf = 100 :: rest
    next =>
      obtain ⟨rest, whole⟩ := tag
      have sound := (parse_sound env fuel).dict st 0 env.buf (bDictAlloc node) env.at_zero
      rw [returned] at sound
      obtain ⟨es, gives, contents⟩ := sound.2 rfl rest whole
      change eraseEntries d.entries = [] ++ es at contents
      rw [contents]
      exact .cut whole gives
    next =>
      have tag : ∀ rest, env.buf ≠ 100 :: rest := fun rest whole => tag ⟨rest, whole⟩
      cases fuel with
      | zero => simp [bDictParse] at returned
      | succ fuel =>
        rw [bDictParse_other tag] at returned
        cases returned
        exact .other tag

theorem returned_of_filled {env : Env} {st : St} {es : List (Bytes × Value)}
    (filled : Filled env st.toScan es) : ∃ fuel, ∀ node, ∃ next d st',
      bDictParse env fuel st 0 (bDictAlloc node) = .done (next, d) st' ∧
        eraseEntries d.entries = es := by
  cases filled with
  | read holds =>
    obtain ⟨enough, accepted⟩ := accepted_of_holds holds
    refine ⟨enough, fun node => ?_⟩
    obtain ⟨q, d, st', parsed, contents⟩ := accepted enough le_rfl node
    exact ⟨some q, d, st', parsed, contents⟩
  | @cut rest _ whole gives =>
    obtain ⟨enough, leaves⟩ := gives.leaves
    have here : env.At 0 (100 :: rest) := whole ▸ env.at_zero
    refine ⟨enough + 1, fun node => ?_⟩
    obtain ⟨d, st', loop, contents⟩ := leaves enough le_rfl st 1 (bDictAlloc node) rfl here.next
    exact ⟨none, d, st', (bDictParse_enter env enough st 0 rest _ here).trans loop, contents⟩
  | other tag => exact ⟨1, fun node => ⟨none, _, st, bDictParse_other tag 0 st _, rfl⟩⟩

end BTServer.Bencode
