import BTServer.Bencode.Fate

set_option autoImplicit false

namespace BTServer.Bencode

open CString Outcome

def faultingOr {α : Type} (past : α → Prop) : Post St α := ⟨fun a _ => past a, True, False, False⟩

def faulting {α : Type} : Post St α := faultingOr fun _ => False

def Faults (env : Env) (s : Scan) (t : Bytes) : Place → Prop
  | .text => ∀ st p target, st.toScan = s → env.At p t → (bStringParse env st p target).Sat
      (faultingOr fun result => ∃ q, result.1 = some q ∧ env.buf.length < q)
  | .value => ∃ enough, ∀ fuel, enough ≤ fuel → ∀ st p release complain,
      st.toScan = s → env.At p t →
        (parseElement env (bListParse env fuel) (bDictParse env fuel) release complain st p
          (t.headD 0)).Sat
          (faultingOr fun element => ∃ q v, element = .parsed q v ∧ env.buf.length < q)
  | .items => ∃ enough, ∀ fuel, enough ≤ fuel → ∀ st p ret, st.toScan = s → env.At p t →
      (bListLoop env fuel st p ret).Sat faulting
  | .entries => ∃ enough, ∀ fuel, enough ≤ fuel → ∀ st p ret, st.toScan = s → env.At p t →
      (bDictLoop env fuel st p ret).Sat faulting

def outside (env : Env) : Fate env where
  element e := ∃ q v, e = .parsed q v ∧ env.buf.length < q
  result _ := False
  fault := True
  timeout := False
  returned _ := False.elim
  carried := by
    rintro e ⟨q, v, same, past⟩
    exact .inr ⟨q, v, same, past, trivial⟩

theorem outside_text {env : Env} {s : Scan} {text rest : Bytes} (free : Free 58 text)
    (passes : strtolFails (s.strtol (lengthOf text)).errno (lengthOf text).val = false)
    (long : (lengthOf text).val < 0 ∨ rest.length < (lengthOf text).val)
    (bytes : (lengthOf text).val = rest.length + 1 → env.alloc s.mallocs = true) :
    Leads (outside env) s (text ++ 58 :: rest) .text := by
  intro st p target scan here
  subst scan
  rw [bStringParse_eq env st p text rest target here free, if_neg (Bool.eq_false_iff.mp passes)]
  split
  next inside =>
    have value : (lengthOf text).val = rest.length + 1 := by omega
    rw [if_pos (bytes value)]
    refine ⟨_, _, rfl, ?_⟩
    have length := here.length
    simp only [List.length_append, List.length_cons] at length
    omega
  next => trivial

theorem overrun_leads {env : Env} {place : Place} {s : Scan} {t : Bytes}
    (overrun : Overrun env place s t) : Leads (outside env) s t place := by
  induction overrun with
  | text free passes long bytes => exact outside_text free passes long bytes
  | str node tag inside ih => exact leads_str node tag ih
  | list node inside ih => exact leads_list node ih
  | dict node inside ih => exact leads_dict node ih
  | here start inside ih => exact leads_here start ih
  | later start first rest ih => exact leads_later start first ih
  | retry start node rest ih => exact leads_retry start node ih
  | key start node inside ih => exact leads_key start node ih
  | value start node read inside ih => exact leads_value start node read ih
  | entry start node read first rest ih => exact leads_entry start node read first ih
  | drop start node read failed rest ih => exact leads_drop start node read failed ih

theorem faults_of_leads {env : Env} {place : Place} {s : Scan} {t : Bytes}
    (leads : Leads (outside env) s t place) : Faults env s t place := by
  cases place with
  | text =>
    intro st p target scan here
    refine Sat.mono (leads st p target scan here) ?_ id id id
    rintro ⟨next, string⟩ st' ⟨q, v, same, past⟩
    cases next with
    | none => cases same
    | some q' =>
      cases same
      exact ⟨q, rfl, past⟩
  | value => exact leads
  | items => exact leads
  | entries => exact leads

theorem overrun_faults {env : Env} {place : Place} {s : Scan} {t : Bytes}
    (overrun : Overrun env place s t) : Faults env s t place :=
  faults_of_leads (overrun_leads overrun)

theorem bDictParse_faults {env : Env} {st : St} {rest : Bytes} (whole : env.buf = 100 :: rest)
    (overrun : Overrun env .entries st.toScan rest) :
    ∃ enough, ∀ fuel, enough ≤ fuel → ∀ d, (bDictParse env fuel st 0 d).Sat faulting := by
  obtain ⟨enough, faults⟩ := overrun_faults overrun
  have here : env.At 0 (100 :: rest) := whole ▸ env.at_zero
  refine ⟨enough + 1, fun fuel large d => ?_⟩
  obtain ⟨fuel, rfl, within⟩ := succ_of_le large
  rw [bDictParse_enter env fuel st 0 rest d here]
  exact faults fuel within st 1 d rfl here.next

/-- No read of the call was outside the buffer and its terminator, and the pointer it returns is
not either. -/
def Inside {α : Type} (env : Env) (outcome : Outcome St (Option Nat × α)) : Prop :=
  outcome.Sat { done := fun result _ => ∀ q, result.1 = some q → q ≤ env.buf.length
                fault := False
                crash := True
                timeout := True }

theorem dict_parse_inside_iff (env : Env) (st : St) (d : BDict) :
    (∀ fuel, Inside env (bDictParse env fuel st 0 d)) ↔
      ¬ ∃ rest, env.buf = 100 :: rest ∧ Overrun env .entries st.toScan rest := by
  constructor
  · rintro inside ⟨rest, whole, overrun⟩
    obtain ⟨enough, faults⟩ := bDictParse_faults whole overrun
    have fault := faults enough le_rfl d
    have stays := inside enough
    cases result : bDictParse env enough st 0 d with
    | done pair st' => rw [result] at fault; exact fault
    | fault st' => rw [result] at stays; exact stays
    | crash st' => rw [result] at fault; exact fault
    | timeout st' => rw [result] at fault; exact fault
  · intro none fuel
    refine ((parse_sound env fuel).dict st 0 env.buf d env.at_zero).mono ?_ ?_ (fun _ => trivial)
      (fun _ => trivial)
    · intro result st' done q next
      obtain ⟨w, rest, es, whole, rfl, -, -⟩ := done.1 q next
      have length := congrArg List.length whole
      simp only [List.length_cons, List.length_append] at length
      omega
    · exact fun overrun => none overrun

def faulted {α : Type} : Outcome St α → Bool
  | .fault _ => true
  | _ => false

theorem not_inside_of_faulted {α : Type} (env : Env) (outcome : Outcome St (Option Nat × α))
    (fault : faulted outcome = true) : ¬ Inside env outcome := by
  cases outcome with
  | fault st => exact id
  | done result st => simp [faulted] at fault
  | crash st => simp [faulted] at fault
  | timeout st => simp [faulted] at fault

/-- `d100:abc` announces a hundred bytes and holds three. -/
theorem long_key_leaves_buffer :
    ¬ Inside (.plentiful (ascii "d100:abc"))
      (bDictParse (.plentiful (ascii "d100:abc")) 2
        { errno := 0, ints := 0, mallocs := 1, freed := [], trace := [] } 0 (bDictAlloc 0)) :=
  not_inside_of_faulted _ _ (by decide +kernel)

end BTServer.Bencode
