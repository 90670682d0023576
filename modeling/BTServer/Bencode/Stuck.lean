import BTServer.Bencode.Fate
import BTServer.Bencode.Fuel

set_option autoImplicit false

namespace BTServer.Bencode

open CString Outcome

-- Reading on from here, the parser comes to an item of a list when no allocation succeeds any more.
-- The list's loop then asks for the item's node for ever.
inductive Stuck (env : Env) : Place → Scan → Bytes → Prop
  | never {s : Scan} {t : Bytes} (start : NoEnd t)
      (fails : ∀ k, s.mallocs ≤ k → env.alloc k = false) : Stuck env .items s t
  | list {s : Scan} {t : Bytes} (node : env.alloc s.mallocs = true)
      (inside : Stuck env .items (s.malloc env) t) : Stuck env .value s (108 :: t)
  | dict {s : Scan} {t : Bytes} (node : env.alloc s.mallocs = true)
      (inside : Stuck env .entries (s.malloc env) t) : Stuck env .value s (100 :: t)
  | here {s : Scan} {t : Bytes} (start : NoEnd t) (inside : Stuck env .value s t) :
      Stuck env .items s t
  | later {s s₁ : Scan} {w t : Bytes} {v : Value} (start : NoEnd w)
      (first : Reads env .any s w (.value v) s₁) (rest : Stuck env .items (s₁.malloc env) t) :
      Stuck env .items s (w ++ t)
  | retry {s : Scan} {t : Bytes} (start : NoEnd t) (node : env.alloc s.mallocs = false)
      (rest : Stuck env .items (s.malloc env) t) : Stuck env .items s t
  | value {s s₁ : Scan} {text key t : Bytes} (start : NoEnd text)
      (node : env.alloc s.mallocs = true) (read : TextRead env (s.malloc env) text key s₁)
      (inside : Stuck env .value s₁ t) : Stuck env .entries s (text ++ 58 :: key ++ t)
  | entry {s s₁ s₂ : Scan} {text key w t : Bytes} {v : Value} (start : NoEnd text)
      (node : env.alloc s.mallocs = true) (read : TextRead env (s.malloc env) text key s₁)
      (first : Reads env .any s₁ w (.value v) s₂) (rest : Stuck env .entries (s₂.malloc env) t) :
      Stuck env .entries s (text ++ 58 :: key ++ w ++ t)
  | drop {s s₁ : Scan} {text key t : Bytes} (start : NoEnd text)
      (node : env.alloc s.mallocs = true) (read : TextRead env (s.malloc env) text key s₁)
      (failed : env.alloc s₁.mallocs = false) (rest : Stuck env .entries (s₁.malloc env) t) :
      Stuck env .entries s (text ++ 58 :: key ++ t)

def endless (env : Env) : Fate env where
  element _ := False
  result _ := False
  fault := False
  timeout := True
  returned _ := False.elim
  carried _ := False.elim

theorem bListLoop_never {env : Env} {t : Bytes} (start : NoEnd t) (fuel : Nat) (st : St) (p : Nat)
    (ret : BList) (here : env.At p t) (fails : ∀ k, st.mallocs ≤ k → env.alloc k = false) :
    (bListLoop env fuel st p ret).Sat (endless env).loop := by
  induction fuel generalizing st with
  | zero =>
    rw [bListLoop]
    trivial
  | succ fuel ih =>
    rw [bListLoop_more env fuel st p t ret here start]
    simp only [parseElement, fails _ (Nat.le_refl _), if_true, done_andThen]
    apply ih
    intro k later
    exact fails k (Nat.le_of_succ_le later)

theorem stuck_leads {env : Env} {place : Place} {s : Scan} {t : Bytes}
    (stuck : Stuck env place s t) : Leads (endless env) s t place := by
  induction stuck with
  | never start fails =>
    refine ⟨0, fun fuel _ st p ret scan here => ?_⟩
    subst scan
    exact bListLoop_never start fuel st p ret here fails
  | list node inside ih => exact leads_list node ih
  | dict node inside ih => exact leads_dict node ih
  | here start inside ih => exact leads_here start ih
  | later start first rest ih => exact leads_later start first ih
  | retry start node rest ih => exact leads_retry start node ih
  | value start node read inside ih => exact leads_value start node read ih
  | entry start node read first rest ih => exact leads_entry start node read first ih
  | drop start node read failed rest ih => exact leads_drop start node read failed ih

theorem bListLoop_grows (env : Env) (st : St) (p : Nat) (ret : BList) :
    Grows (bListLoop env · st p ret) :=
  fun fuel more => (parse_extended env fuel more).listLoop st p ret

theorem bDictLoop_grows (env : Env) (st : St) (p : Nat) (ret : BDict) :
    Grows (bDictLoop env · st p ret) :=
  fun fuel more => (parse_extended env fuel more).dictLoop st p ret

theorem bDictParse_endless {env : Env} {st : St} {rest : Bytes} (whole : env.buf = 100 :: rest)
    (stuck : Stuck env .entries st.toScan rest) (d : BDict) :
    ¬ Ends (bDictParse env · st 0 d) := by
  rintro ⟨fuel, ended⟩
  obtain ⟨enough, leads⟩ := bDictParse_leads whole (stuck_leads stuck)
  have stopped := leads (fuel + enough) (by omega) d
  rw [(bDictParse_grows env st 0 d).ended ended] at stopped
  cases outcome : bDictParse env fuel st 0 d with
  | timeout st' => exact ended st' outcome
  | done result st' => rw [outcome] at stopped; exact stopped
  | fault st' => rw [outcome] at stopped; exact stopped
  | crash st' => rw [outcome] at stopped; exact stopped

theorem parseElement_grows (env : Env) (release : List Nat) (complain : St → St) (st : St)
    (p : Nat) (c : UInt8) :
    Grows fun fuel =>
      parseElement env (bListParse env fuel) (bDictParse env fuel) release complain st p c := by
  intro fuel more
  have extended := parse_extended env fuel more
  exact parseElement_extends env extended.list extended.dict release complain st p c

structure Ending (env : Env) (n : Nat) : Prop where
  items : ∀ st p t ret, t.length < n → env.At p t → ¬ Stuck env .items st.toScan t →
    Ends (bListLoop env · st p ret)
  entries : ∀ st p t ret, t.length < n → env.At p t → ¬ Stuck env .entries st.toScan t →
    Ends (bDictLoop env · st p ret)

section Ending

variable {env : Env} {n : Nat}

theorem bStringParse_ended (st : St) (p : Nat) (t : Bytes) (target : BString) (here : env.At p t)
    (st' : St) : bStringParse env st p target ≠ .timeout st' := by
  intro stopped
  have sat := bStringParse_sat env st p t target here
  rw [stopped] at sat
  exact sat

theorem bIntParse_ended (st : St) (p : Nat) (t : Bytes) (ret : BInt) (here : env.At p (105 :: t))
    (node : env.alloc st.mallocs = true) (st' : St) :
    bIntParse env (st.malloc env) p ret ≠ .timeout st' := by
  intro stopped
  have sat := bIntParse_sat env st p t ret here node
  rw [stopped] at sat
  exact sat

theorem parseElement_ends (ending : Ending env n) (release : List Nat) (complain : St → St)
    (st : St) (p : Nat) (t : Bytes) (short : t.length ≤ n) (here : env.At p t)
    (free : ¬ Stuck env .value st.toScan t) :
    Ends fun fuel =>
      parseElement env (bListParse env fuel) (bDictParse env fuel) release complain st p
        (t.headD 0) := by
  -- What the `switch` does with a parser's result takes no further steps.
  unfold parseElement
  dsimp only
  split
  next => exact .const (by simp)
  next allocated =>
    have node : env.alloc st.mallocs = true := by simpa using allocated
    split
    next tag =>
      obtain ⟨rest, rfl⟩ := headD_cons tag (by decide)
      apply Ends.finish
      · apply Ends.after
        simp only [bListParse_enter env _ _ p rest _ here]
        exact ending.items _ _ rest _ short here.next fun stuck => free (.list node stuck)
      · rintro ⟨next, l⟩ st' st''
        cases next <;> simp
    next =>
      split
      next tag =>
        obtain ⟨rest, rfl⟩ := headD_cons tag (by decide)
        apply (Ends.const (bIntParse_ended st p rest _ here node)).finish
        rintro ⟨next, i⟩ st' st''
        cases next <;> simp
      next =>
        split
        next tag =>
          obtain ⟨rest, rfl⟩ := headD_cons tag (by decide)
          apply Ends.finish
          · apply Ends.after
            simp only [bDictParse_enter env _ _ p rest _ here]
            exact ending.entries _ _ rest _ short here.next fun stuck => free (.dict node stuck)
          · rintro ⟨next, d⟩ st' st''
            cases next <;> simp
        next =>
          apply (Ends.const (bStringParse_ended _ p t _ here)).finish
          rintro ⟨next, s⟩ st' st''
          cases next <;> simp

theorem bListLoop_item (ending : Ending env n) (st : St) (p : Nat) (t : Bytes) (ret : BList)
    (short : t.length ≤ n) (here : env.At p t) (start : NoEnd t)
    (node : env.alloc st.mallocs = true) (free : ¬ Stuck env .items st.toScan t) :
    Ends (bListLoop env · st p ret) := by
  apply Ends.after
  simp only [bListLoop_more env _ st p t ret here start]
  apply (parseElement_ends ending [] id st p t short here fun stuck =>
    free (.here start stuck)).andThen (parseElement_grows env _ _ _ _ _)
  · intro element st'
    cases element with
    | skipped => exact bListLoop_grows env _ _ _
    | rejected => exact fun _ _ => .refl _
    | parsed q v => exact bListLoop_grows env _ _ _
  · intro fuel element st' parsed
    have sound := parse_sound env fuel
    have sat := @parseElement_sat env fuel st p _ _ sound.list sound.dict [] id t here
    rw [parsed] at sat
    cases element with
    | skipped =>
      have failed : env.alloc st.mallocs = false := sat.1
      simp [node] at failed
    | rejected => exact .const (by simp)
    | parsed q v =>
      rcases sat with ⟨w, rest, rfl, some, rfl, first⟩ | ⟨past, -⟩
      · have := List.length_pos_iff.mpr some
        simp only [List.length_append] at short
        apply ending.items _ _ rest _ (by omega) here.advance
        rw [bListAdd_scan]
        exact fun stuck => free (.later (noEnd_append some start) first stuck)
      · refine ⟨1, fun st'' => ?_⟩
        simp [bListLoop, Env.load_past past]

theorem bListLoop_ends (ending : Ending env n) (st : St) (p : Nat) (t : Bytes) (ret : BList)
    (short : t.length ≤ n) (here : env.At p t) (free : ¬ Stuck env .items st.toScan t) :
    Ends (bListLoop env · st p ret) := by
  by_cases last : t.headD 0 = 101
  · refine ⟨1, fun st' => ?_⟩
    simp only [bListLoop, here.load, last, if_true, ne_eq, reduceCtorEq, not_false_eq_true]
  · have start : NoEnd t := noEnd_of_headD last
    -- The node is tried for until an allocation succeeds.
    obtain ⟨k, allocated⟩ : ∃ k, env.alloc (st.mallocs + k) = true := by
      by_contra none
      apply free
      refine .never start fun k later => ?_
      obtain ⟨m, rfl⟩ := Nat.exists_eq_add_of_le later
      simpa using fun allocated => none ⟨m, allocated⟩
    induction k generalizing st with
    | zero => exact bListLoop_item ending st p t ret short here start allocated free
    | succ k ih =>
      by_cases node : env.alloc st.mallocs = true
      · exact bListLoop_item ending st p t ret short here start node free
      · have failed : env.alloc st.mallocs = false := by simpa using node
        apply Ends.after
        simp only [bListLoop_more env _ st p t ret here start, parseElement, failed, if_true,
          done_andThen]
        apply ih (st.malloc env) fun stuck => free (.retry start failed stuck)
        rw [← allocated]
        change env.alloc (st.mallocs + 1 + k) = _
        rw [Nat.add_right_comm, Nat.add_assoc]

theorem bDictLoop_item (ending : Ending env n) (st st₁ : St) (p : Nat) (text data rest : Bytes)
    (ret : BDict) (key : BString) (short : (text ++ 58 :: data ++ rest).length ≤ n)
    (here : env.At p (text ++ 58 :: data ++ rest)) (start : NoEnd text)
    (node : env.alloc st.mallocs = true)
    (parsed : bStringParse env (st.malloc env) p (bStringAlloc st.mallocs) =
      .done (some (p + (text ++ 58 :: data).length), key) st₁)
    (read : TextRead env (st.malloc env).toScan text data st₁.toScan)
    (free : ¬ Stuck env .entries st.toScan (text ++ 58 :: data ++ rest)) :
    Ends (bDictLoop env · st p ret) := by
  have there : env.At (p + (text ++ 58 :: data).length) rest := here.advance
  have less : rest.length < n := by
    simp only [List.length_append, List.length_cons] at short
    omega
  apply Ends.after
  simp only [bDictLoop_more env _ st st₁ p _ _ rest ret key here
    (by simpa using noEnd_colon start _) node parsed there]
  apply (parseElement_ends ending _ _ st₁ _ rest less.le there fun stuck =>
    free (.value start node read stuck)).andThen (parseElement_grows env _ _ _ _ _)
  · intro element st'
    cases element with
    | skipped => exact bDictLoop_grows env _ _ _
    | rejected => exact fun _ _ => .refl _
    | parsed q v => exact bDictLoop_grows env _ _ _
  · intro fuel element st₂ parsed
    have sound := parse_sound env fuel
    have sat := @parseElement_sat env fuel st₁ _ _ _ sound.list sound.dict (bStringFree key)
      (fun st => st.print .error "b_dict_parse" 657 (ascii "Error list entry type\n")) rest there
    rw [parsed] at sat
    cases element with
    | skipped =>
      obtain ⟨failed, scan⟩ := sat
      apply ending.entries _ _ rest _ less there
      change ¬ Stuck env .entries st₂.toScan rest
      rw [scan]
      exact fun stuck => free (.drop start node read failed stuck)
    | rejected => exact .const (by simp)
    | parsed q v =>
      rcases sat with ⟨w, last, rfl, some, rfl, first⟩ | ⟨past, -⟩
      · simp only [List.length_append] at less
        apply ending.entries _ _ last _ (by omega) there.advance
        change ¬ Stuck env .entries (bDictAdd env st₂ v key ret).2.toScan last
        rw [bDictAdd_scan]
        rw [← List.append_assoc] at free
        exact fun stuck => free (.entry start node read first stuck)
      · refine ⟨1, fun st' => ?_⟩
        simp [bDictLoop, Env.load_past past]

theorem bDictLoop_ends (ending : Ending env n) (st : St) (p : Nat) (t : Bytes) (ret : BDict)
    (short : t.length ≤ n) (here : env.At p t) (free : ¬ Stuck env .entries st.toScan t) :
    Ends (bDictLoop env · st p ret) := by
  by_cases last : t.headD 0 = 101
  · refine ⟨1, fun st' => ?_⟩
    simp only [bDictLoop, here.load, last, if_true, ne_eq, reduceCtorEq, not_false_eq_true]
  · by_cases node : env.alloc st.mallocs = true
    · have start : NoEnd t := noEnd_of_headD last
      have sat := bStringParse_sat env (st.malloc env) p t (bStringAlloc st.mallocs) here
      have loaded := here.load
      generalize t.headD 0 = c at last loaded
      cases outcome : bStringParse env (st.malloc env) p (bStringAlloc st.mallocs) with
      | timeout st₁ => exact absurd outcome (bStringParse_ended _ p t _ here st₁)
      | fault st₁ =>
        refine ⟨1, fun st' => ?_⟩
        simp [bDictLoop, loaded, last, node, outcome]
      | crash st₁ =>
        refine ⟨1, fun st' => ?_⟩
        simp [bDictLoop, loaded, last, node, outcome]
      | done result st₁ =>
        obtain ⟨next, key⟩ := result
        rw [outcome] at sat
        cases next with
        | none =>
          refine ⟨1, fun st' => ?_⟩
          simp [bDictLoop, loaded, last, node, outcome]
        | some q =>
          rcases sat.1 q rfl with ⟨text, data, rest, rfl, rfl, read, -, -⟩ | ⟨past, -⟩
          · exact bDictLoop_item ending st st₁ p text data rest ret key short here
              (noEnd_text (by simpa using start)) node outcome read free
          · refine ⟨1, fun st' => ?_⟩
            simp [bDictLoop, loaded, last, node, outcome, Env.load_past past]
    · refine ⟨1, fun st' => ?_⟩
      have failed : env.alloc st.mallocs = false := by simpa using node
      simp only [bDictLoop, here.load, last, failed, if_true, if_false, ne_eq, reduceCtorEq,
        not_false_eq_true]

theorem parse_ends (env : Env) (n : Nat) : Ending env n := by
  induction n with
  | zero =>
    constructor
    · exact fun _ _ _ _ short => absurd short (Nat.not_lt_zero _)
    · exact fun _ _ _ _ short => absurd short (Nat.not_lt_zero _)
  | succ n ending =>
    constructor
    · intro st p t ret short
      exact bListLoop_ends ending st p t ret (by omega)
    · intro st p t ret short
      exact bDictLoop_ends ending st p t ret (by omega)

end Ending

/-- A parse of the buffer ends, unless it comes to a list when no allocation succeeds any more. -/
theorem bDictParse_ends_iff (env : Env) (st : St) (d : BDict) :
    Ends (bDictParse env · st 0 d) ↔
      ∀ rest, env.buf = 100 :: rest → ¬ Stuck env .entries st.toScan rest := by
  constructor
  · intro ends rest whole stuck
    exact bDictParse_endless whole stuck d ends
  · intro free
    apply Ends.after
    by_cases tag : env.buf.headD 0 = 100
    · obtain ⟨rest, whole⟩ := headD_cons tag (by decide)
      have here : env.At 0 (100 :: rest) := whole ▸ env.at_zero
      simp only [bDictParse_enter env _ st 0 rest d here]
      exact (parse_ends env (rest.length + 1)).entries st 1 rest d (by omega) here.next
        (free rest whole)
    · refine ⟨0, fun st' => ?_⟩
      simp only [bDictParse, env.at_zero.load, ne_eq, tag, not_false_eq_true, if_true,
        reduceCtorEq]

end BTServer.Bencode
