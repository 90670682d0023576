import BTServer.Bencode.Complete

set_option autoImplicit false

namespace BTServer.Bencode

open CString Outcome

-- A way to end without a value, in which the loops end once an element or a key has: outside the
-- buffer, with `NULL` or not at all. What is known of the state then does not depend on what the
-- loops free.
structure Exit (env : Env) where
  element : Element → St → Prop
  result : Option Nat → St → Prop
  fault : Prop
  timeout : Prop
  freed : ∀ e st blocks, element e st → element e (st.free blocks)
  returned : ∀ next st, result next st → next = none ∧ element .rejected st
  carried : ∀ e st, element e st → (e = .rejected ∧ result none st) ∨
    ∃ q v, e = .parsed q v ∧ env.buf.length < q ∧ fault

section Exit

variable {env : Env} (exit : Exit env)

def Exit.text : Post St (Option Nat × BString) :=
  ⟨fun (next, s) st => exit.element (next.elim .rejected fun q => .parsed q (.string s)) st,
    exit.fault, False, exit.timeout⟩

def Exit.value : Post St Element := ⟨exit.element, exit.fault, False, exit.timeout⟩

def Exit.loop {α : Type} : Post St (Option Nat × α) :=
  ⟨fun result st => exit.result result.1 st, exit.fault, False, exit.timeout⟩

def Exits (s : Scan) (t : Bytes) : Place → Prop
  | .text => ∀ st p target, st.toScan = s → env.At p t →
      (bStringParse env st p target).Sat exit.text
  | .value => ∃ enough, ∀ fuel, enough ≤ fuel → ∀ st p release complain,
      (∀ st, exit.element .rejected st → exit.element .rejected (complain st)) →
      st.toScan = s → env.At p t →
        (parseElement env (bListParse env fuel) (bDictParse env fuel) release complain st p
          (t.headD 0)).Sat exit.value
  | .items => ∃ enough, ∀ fuel, enough ≤ fuel → ∀ st p ret, st.toScan = s → env.At p t →
      (bListLoop env fuel st p ret).Sat exit.loop
  | .entries => ∃ enough, ∀ fuel, enough ≤ fuel → ∀ st p ret, st.toScan = s → env.At p t →
      (bDictLoop env fuel st p ret).Sat exit.loop

end Exit

section Exits

variable {env : Env} {exit : Exit env} {s : Scan} {t : Bytes}

theorem headD_tag (tag : NoTag t) : t.headD 0 ≠ 108 ∧ t.headD 0 ≠ 105 ∧ t.headD 0 ≠ 100 := by
  cases t with
  | nil => decide
  | cons c t => exact tag c rfl

theorem exits_str (node : env.alloc s.mallocs = true) (tag : NoTag t)
    (inside : Exits exit (s.malloc env) t .text) : Exits exit s t .value := by
  refine ⟨0, fun fuel _ st p release complain keeps scan here => ?_⟩
  subst scan
  obtain ⟨noList, noInt, noDict⟩ := headD_tag tag
  simp only [parseElement, node, noList, noInt, noDict, Bool.true_eq_false, if_false]
  refine Sat.andThen (inside (st.malloc env) p _ rfl here) ?_ id id id
  rintro ⟨next, target⟩ st' ends
  cases next with
  | none => exact keeps _ (exit.freed _ _ _ (exit.freed _ _ _ ends))
  | some q => exact ends

theorem branch_exits {α : Type} {parse : Outcome St (Option Nat × α)} (wrap : α → BValue)
    (release : List Nat) (free : α → List Nat) (sat : parse.Sat exit.loop) :
    (parse.andThen fun result st =>
      match result.1 with
      | some ptr => .done (.parsed ptr (wrap result.2)) st
      | none => .done .rejected ((st.free release).free (free result.2))).Sat exit.value := by
  refine Sat.andThen sat ?_ id id id
  rintro ⟨next, x⟩ st' ends
  obtain ⟨same, rejected⟩ := exit.returned next st' ends
  obtain rfl : next = none := same
  exact exit.freed _ _ _ (exit.freed _ _ _ rejected)

theorem exits_list (node : env.alloc s.mallocs = true)
    (inside : Exits exit (s.malloc env) t .items) : Exits exit s (108 :: t) .value := by
  obtain ⟨enough, ends⟩ := inside
  refine ⟨enough + 1, fun fuel large st p release complain _ scan here => ?_⟩
  obtain ⟨fuel, rfl, within⟩ := succ_of_le large
  subst scan
  simp only [parseElement, node, List.headD_cons, Bool.true_eq_false, if_false, if_true,
    bListParse_enter env fuel _ p _ _ here]
  exact branch_exits .list release bListFree (ends fuel within (st.malloc env) (p + 1) _ rfl here.next)

theorem exits_dict (node : env.alloc s.mallocs = true)
    (inside : Exits exit (s.malloc env) t .entries) : Exits exit s (100 :: t) .value := by
  obtain ⟨enough, ends⟩ := inside
  refine ⟨enough + 1, fun fuel large st p release complain _ scan here => ?_⟩
  obtain ⟨fuel, rfl, within⟩ := succ_of_le large
  subst scan
  have noList : ¬ (100 : UInt8) = 108 := by decide
  have noInt : ¬ (100 : UInt8) = 105 := by decide
  simp only [parseElement, node, List.headD_cons, noList, noInt, Bool.true_eq_false, if_false,
    if_true, bDictParse_enter env fuel _ p _ _ here]
  exact branch_exits .dict release bDictFree (ends fuel within (st.malloc env) (p + 1) _ rfl here.next)

theorem exits_here (start : NoEnd t) (inside : Exits exit s t .value) :
    Exits exit s t .items := by
  obtain ⟨enough, ends⟩ := inside
  refine ⟨enough + 2, fun fuel large st p ret scan here => ?_⟩
  obtain ⟨fuel, rfl, within⟩ := succ_of_le large
  rw [bListLoop_more env fuel st p t ret here start]
  refine Sat.andThen (ends fuel (by omega) st p [] id (fun _ => id) scan here) ?_ id id id
  intro element st' ends
  rcases exit.carried element st' ends with ⟨rfl, result⟩ | ⟨q, v, rfl, past, fault⟩
  · exact result
  · exact (bListLoop_past env fuel _ q _ past).mono (fun _ _ => False.elim) (fun _ => fault) id
      (by omega)

theorem exits_later {s₁ : Scan} {w : Bytes} {v : Value} (start : NoEnd w)
    (first : Reads env .any s w (.value v) s₁) (rest : Exits exit (s₁.malloc env) t .items) :
    Exits exit s (w ++ t) .items :=
  bListLoop_after start first exit.loop rest

theorem exits_retry (start : NoEnd t) (node : env.alloc s.mallocs = false)
    (rest : Exits exit (s.malloc env) t .items) : Exits exit s t .items := by
  obtain ⟨enough, ends⟩ := rest
  refine ⟨enough + 1, fun fuel large st p ret scan here => ?_⟩
  obtain ⟨fuel, rfl, within⟩ := succ_of_le large
  subst scan
  rw [bListLoop_more env fuel st p t ret here start]
  simp only [parseElement, node, if_true, done_andThen]
  exact ends fuel within (st.malloc env) p ret rfl here

theorem exits_key (start : NoEnd t) (node : env.alloc s.mallocs = true)
    (inside : Exits exit (s.malloc env) t .text) : Exits exit s t .entries := by
  refine ⟨1, fun fuel large st p ret scan here => ?_⟩
  obtain ⟨fuel, rfl, within⟩ := succ_of_le large
  subst scan
  simp only [bDictLoop, here.load, headD_ne_end start, node, if_false, Bool.true_eq_false]
  refine Sat.andThen (inside (st.malloc env) p _ rfl here) ?_ id id id
  rintro ⟨next, key⟩ st' ends
  rcases exit.carried _ _ (exit.freed _ st' (bStringFree key) ends) with
    ⟨same, result⟩ | ⟨q, v, same, past, fault⟩
  · cases next with
    | none => exact result
    | some q => cases same
  · cases next with
    | none => cases same
    | some q' =>
      cases same
      simpa [Env.load_past past, Exit.loop] using fault

theorem exits_value {s₁ : Scan} {text key : Bytes} (start : NoEnd text)
    (node : env.alloc s.mallocs = true) (read : TextRead env (s.malloc env) text key s₁)
    (complains : ∀ st, exit.element .rejected st → exit.element .rejected
      (st.print .error "b_dict_parse" 657 (ascii "Error list entry type\n")))
    (inside : Exits exit s₁ t .value) : Exits exit s (text ++ 58 :: key ++ t) .entries := by
  obtain ⟨enough, ends⟩ := inside
  refine ⟨enough + 2, fun fuel large st p ret scan here => ?_⟩
  obtain ⟨fuel, rfl, within⟩ := succ_of_le large
  obtain ⟨target, st₀, scan₀, -, there, round⟩ :=
    bDictLoop_value start node read fuel st p t ret scan here
  rw [round]
  refine Sat.andThen (ends fuel (by omega) st₀ _ _ _ complains scan₀ there) ?_ id id id
  intro element st' ends
  rcases exit.carried element st' ends with ⟨rfl, result⟩ | ⟨q, v, rfl, past, fault⟩
  · exact result
  · exact (bDictLoop_past env fuel _ q _ past).mono (fun _ _ => False.elim) (fun _ => fault) id
      (by omega)

theorem exits_entry {s₁ s₂ : Scan} {text key w : Bytes} {v : Value} (start : NoEnd text)
    (node : env.alloc s.mallocs = true) (read : TextRead env (s.malloc env) text key s₁)
    (first : Reads env .any s₁ w (.value v) s₂) (rest : Exits exit (s₂.malloc env) t .entries) :
    Exits exit s (text ++ 58 :: key ++ w ++ t) .entries :=
  bDictLoop_after start node read first exit.loop rest

theorem exits_drop {s₁ : Scan} {text key : Bytes} (start : NoEnd text)
    (node : env.alloc s.mallocs = true) (read : TextRead env (s.malloc env) text key s₁)
    (failed : env.alloc s₁.mallocs = false) (rest : Exits exit (s₁.malloc env) t .entries) :
    Exits exit s (text ++ 58 :: key ++ t) .entries := by
  obtain ⟨enough, ends⟩ := rest
  refine ⟨enough + 1, fun fuel large st p ret scan here => ?_⟩
  obtain ⟨fuel, rfl, within⟩ := succ_of_le large
  obtain ⟨target, st₀, scan₀, -, there, round⟩ :=
    bDictLoop_value start node read fuel st p t ret scan here
  rw [← scan₀] at failed
  rw [round]
  simp only [parseElement, failed, if_true, done_andThen]
  exact ends fuel within _ _ _ (by rw [← scan₀]; rfl) there

end Exits

/-- An exit that asks nothing of the state. -/
structure Fate (env : Env) where
  element : Element → Prop
  result : Option Nat → Prop
  fault : Prop
  timeout : Prop
  returned : ∀ next, result next → next = none ∧ element .rejected
  carried : ∀ e, element e → (e = .rejected ∧ result none) ∨
    ∃ q v, e = .parsed q v ∧ env.buf.length < q ∧ fault

section Fate

variable {env : Env} (fate : Fate env)

def Fate.text : Post St (Option Nat × BString) :=
  ⟨fun (next, s) _ => fate.element (next.elim .rejected fun q => .parsed q (.string s)),
    fate.fault, False, fate.timeout⟩

def Fate.value : Post St Element := ⟨fun e _ => fate.element e, fate.fault, False, fate.timeout⟩

def Fate.loop {α : Type} : Post St (Option Nat × α) :=
  ⟨fun result _ => fate.result result.1, fate.fault, False, fate.timeout⟩

def Leads (s : Scan) (t : Bytes) : Place → Prop
  | .text => ∀ st p target, st.toScan = s → env.At p t →
      (bStringParse env st p target).Sat fate.text
  | .value => ∃ enough, ∀ fuel, enough ≤ fuel → ∀ st p release complain,
      st.toScan = s → env.At p t →
        (parseElement env (bListParse env fuel) (bDictParse env fuel) release complain st p
          (t.headD 0)).Sat fate.value
  | .items => ∃ enough, ∀ fuel, enough ≤ fuel → ∀ st p ret, st.toScan = s → env.At p t →
      (bListLoop env fuel st p ret).Sat fate.loop
  | .entries => ∃ enough, ∀ fuel, enough ≤ fuel → ∀ st p ret, st.toScan = s → env.At p t →
      (bDictLoop env fuel st p ret).Sat fate.loop

def Fate.exit : Exit env where
  element e _ := fate.element e
  result next _ := fate.result next
  fault := fate.fault
  timeout := fate.timeout
  freed _ _ _ := id
  returned next _ := fate.returned next
  carried e _ := fate.carried e

end Fate

section Leads

variable {env : Env} {fate : Fate env} {s : Scan} {t : Bytes}

theorem leads_value_iff : Leads fate s t .value ↔ Exits fate.exit s t .value := by
  constructor
  · rintro ⟨enough, leads⟩
    exact ⟨enough, fun fuel large st p release complain _ => leads fuel large st p release complain⟩
  · rintro ⟨enough, ends⟩
    exact ⟨enough, fun fuel large st p release complain =>
      ends fuel large st p release complain fun _ => id⟩

theorem leads_str (node : env.alloc s.mallocs = true) (tag : NoTag t)
    (inside : Leads fate (s.malloc env) t .text) : Leads fate s t .value :=
  leads_value_iff.mpr (exits_str node tag inside)

theorem leads_list (node : env.alloc s.mallocs = true) (inside : Leads fate (s.malloc env) t .items) :
    Leads fate s (108 :: t) .value :=
  leads_value_iff.mpr (exits_list node inside)

theorem leads_dict (node : env.alloc s.mallocs = true) (inside : Leads fate (s.malloc env) t .entries) :
    Leads fate s (100 :: t) .value :=
  leads_value_iff.mpr (exits_dict node inside)

theorem leads_here (start : NoEnd t) (inside : Leads fate s t .value) : Leads fate s t .items :=
  exits_here start (leads_value_iff.mp inside)

theorem leads_later {s₁ : Scan} {w : Bytes} {v : Value} (start : NoEnd w)
    (first : Reads env .any s w (.value v) s₁) (rest : Leads fate (s₁.malloc env) t .items) :
    Leads fate s (w ++ t) .items :=
  bListLoop_after start first fate.loop rest

theorem leads_retry (start : NoEnd t) (node : env.alloc s.mallocs = false)
    (rest : Leads fate (s.malloc env) t .items) : Leads fate s t .items :=
  @exits_retry _ fate.exit _ _ start node rest

theorem leads_key (start : NoEnd t) (node : env.alloc s.mallocs = true)
    (inside : Leads fate (s.malloc env) t .text) : Leads fate s t .entries :=
  @exits_key _ fate.exit _ _ start node inside

theorem leads_value {s₁ : Scan} {text key : Bytes} (start : NoEnd text)
    (node : env.alloc s.mallocs = true) (read : TextRead env (s.malloc env) text key s₁)
    (inside : Leads fate s₁ t .value) : Leads fate s (text ++ 58 :: key ++ t) .entries :=
  exits_value start node read (fun _ => id) (leads_value_iff.mp inside)

theorem leads_entry {s₁ s₂ : Scan} {text key w : Bytes} {v : Value} (start : NoEnd text)
    (node : env.alloc s.mallocs = true) (read : TextRead env (s.malloc env) text key s₁)
    (first : Reads env .any s₁ w (.value v) s₂) (rest : Leads fate (s₂.malloc env) t .entries) :
    Leads fate s (text ++ 58 :: key ++ w ++ t) .entries :=
  bDictLoop_after start node read first fate.loop rest

theorem leads_drop {s₁ : Scan} {text key : Bytes} (start : NoEnd text)
    (node : env.alloc s.mallocs = true) (read : TextRead env (s.malloc env) text key s₁)
    (failed : env.alloc s₁.mallocs = false) (rest : Leads fate (s₁.malloc env) t .entries) :
    Leads fate s (text ++ 58 :: key ++ t) .entries :=
  @exits_drop _ fate.exit _ _ _ _ _ start node read failed rest

end Leads

theorem bDictParse_leads {env : Env} {fate : Fate env} {st : St} {rest : Bytes}
    (whole : env.buf = 100 :: rest) (leads : Leads fate st.toScan rest .entries) :
    ∃ enough, ∀ fuel, enough ≤ fuel → ∀ d, (bDictParse env fuel st 0 d).Sat fate.loop := by
  obtain ⟨enough, ends⟩ := leads
  have here : env.At 0 (100 :: rest) := whole ▸ env.at_zero
  refine ⟨enough + 1, fun fuel large d => ?_⟩
  obtain ⟨fuel, rfl, within⟩ := succ_of_le large
  rw [bDictParse_enter env fuel st 0 rest d here]
  exact ends fuel within st 1 d rfl here.next

end BTServer.Bencode
