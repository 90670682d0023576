import BTServer.Bencode.Rejection
import BTServer.Bencode.RoundTrip

set_option autoImplicit false

namespace BTServer.Bencode

open CString Outcome

section Rejects

variable {env : Env} {s : Scan} {t : Bytes}

theorem rejects_text {data : Bytes} (refused : seeText env s data = none) :
    Leads (rejection env) s (encText data ++ t) .text := by
  intro st p target scan here
  subst scan
  have fails : strtolFails (st.toScan.strtol (lengthOf (decimal data.length))).errno
      (lengthOf (decimal data.length)).val = true := by
    unfold seeText at refused
    split at refused
    next fails => exact fails
    next => contradiction
  have here : env.At p (decimal data.length ++ 58 :: (data ++ t)) := by
    simpa [encText] using here
  rw [bStringParse_eq env st p _ _ target here
    (digits_free _ (decimal_correct data.length).2.1).1, if_pos fails]
  rfl

theorem encText_noTag (data : Bytes) : NoTag (encText data ++ t) := by
  obtain ⟨some, digits, -⟩ := decimal_correct data.length
  obtain ⟨d, ds, shape⟩ := List.exists_cons_of_ne_nil some
  have tag := (digits_free _ digits).2.2.1
  rw [shape] at tag
  intro c head
  apply tag c
  simpa [encText, shape] using head

theorem rejects_int (mallocs : Allocates env) {n : Int} (refused : see env s (.int n) = none) :
    Leads (rejection env) s (encInt n ++ t) .value := by
  refine ⟨0, fun fuel _ st p release complain scan here => ?_⟩
  subst scan
  have fails : strtolFails ((st.malloc env).toScan.strtol (intOf env st.ints (intText n))).errno
      (toUnsigned (intOf env st.ints (intText n)).val).toNat = true := by
    simp only [see] at refused
    split at refused
    next fails => exact fails
    next => contradiction
  have here : env.At p (105 :: (intText n ++ 101 :: t)) := by
    simpa [encInt_eq] using here
  have parsed := (bIntParse_eq env (st.malloc env) p (intText n) t (bIntAlloc st.mallocs) here
    (intText_free n)).trans (if_pos fails)
  simp only [parseElement, mallocs _, encInt_eq, List.cons_append, List.headD_cons, parsed,
    Bool.true_eq_false, if_false, done_andThen]
  rfl

end Rejects

mutual
theorem see_rejects {env : Env} (mallocs : Allocates env) (v : Value) (s : Scan) (t : Bytes)
    (refused : see env s v = none) : Leads (rejection env) s (enc v ++ t) .value := by
  match v with
  | .str data len =>
    simp only [see, Option.map_eq_none_iff] at refused
    exact leads_str (mallocs _) (encText_noTag data) (rejects_text refused)
  | .int n => exact rejects_int mallocs refused
  | .list vs =>
    simp only [see, Option.map_eq_none_iff] at refused
    have inside := seeItems_rejects mallocs vs (s.malloc env) (101 :: t) refused
    simpa [enc] using leads_list (mallocs _) inside
  | .dict es =>
    simp only [see, Option.map_eq_none_iff] at refused
    have inside := seeEntries_rejects mallocs es (s.malloc env) (101 :: t) refused
    simpa [enc] using leads_dict (mallocs _) inside

theorem seeItems_rejects {env : Env} (mallocs : Allocates env) (vs : List Value) (s : Scan)
    (t : Bytes) (refused : seeItems env s vs = none) :
    Leads (rejection env) s (encItems vs ++ t) .items := by
  match vs with
  | [] => simp [seeItems] at refused
  | v :: vs =>
    rw [encItems, List.append_assoc]
    cases here : see env s v with
    | none =>
      exact leads_here (noEnd_extend (enc_ne_nil v) (noEnd_enc v) _)
        (see_rejects mallocs v s _ here)
    | some result =>
      obtain ⟨v', s₁⟩ := result
      simp only [seeItems, here, Option.bind_some, Option.map_eq_none_iff] at refused
      exact leads_later (noEnd_enc v) (see_reads mallocs v here)
        (seeItems_rejects mallocs vs (s₁.malloc env) t refused)

theorem seeEntries_rejects {env : Env} (mallocs : Allocates env) (es : List (Bytes × Value))
    (s : Scan) (t : Bytes) (refused : seeEntries env s es = none) :
    Leads (rejection env) s (encEntries es ++ t) .entries := by
  match es with
  | [] => simp [seeEntries] at refused
  | (key, v) :: es =>
    have start := (digits_free _ (decimal_correct key.length).2.1).2.2.2
    cases read : seeText env (s.malloc env) key with
    | none =>
      have whole : encEntries ((key, v) :: es) ++ t =
          encText key ++ (enc v ++ encEntries es ++ t) := by
        simp [encEntries]
      rw [whole]
      exact leads_key (noEnd_extend (by simp) (noEnd_encText key _) _) (mallocs _)
        (rejects_text read)
    | some s₁ =>
      have text := seeText_read mallocs read
      cases here : see env s₁ v with
      | none =>
        have whole : encEntries ((key, v) :: es) ++ t =
            decimal key.length ++ 58 :: key ++ (enc v ++ (encEntries es ++ t)) := by
          simp [encEntries, encText]
        rw [whole]
        exact leads_value start (mallocs _) text (see_rejects mallocs v s₁ _ here)
      | some result =>
        obtain ⟨v', s₂⟩ := result
        simp only [seeEntries, read, here, Option.bind_some, Option.map_eq_none_iff] at refused
        have whole : encEntries ((key, v) :: es) ++ t =
            decimal key.length ++ 58 :: key ++ enc v ++ (encEntries es ++ t) := by
          simp [encEntries, encText]
        rw [whole]
        exact leads_entry start (mallocs _) text (see_reads mallocs v here)
          (seeEntries_rejects mallocs es (s₂.malloc env) t refused)
end

theorem bDictParse_enc {env : Env} (mallocs : Allocates env) (es : List (Bytes × Value))
    (rest : Bytes) (whole : env.buf = enc (.dict es) ++ rest) (st : St) :
    ∃ enough, ∀ fuel, enough ≤ fuel → ∀ node, ∃ next d st',
      bDictParse env fuel st 0 (bDictAlloc node) = .done (next, d) st' ∧
        match seeEntries env st.toScan es with
        | some (es', _) => next.isSome ∧ eraseEntries d.entries = es'
        | none => next = none := by
  have here : env.At 0 (100 :: (encEntries es ++ 101 :: rest)) := by
    have start := env.at_zero
    rw [whole] at start
    simpa [enc] using start
  cases seen : seeEntries env st.toScan es with
  | some result =>
    obtain ⟨es', s'⟩ := result
    obtain ⟨enough, accepts⟩ := bDictParse_reads (seeEntries_reads mallocs es seen) 0 rest here
    refine ⟨enough, fun fuel large node => ?_⟩
    obtain ⟨d, st', parsed, contents⟩ := accepts fuel large (bDictAlloc node)
    exact ⟨_, d, st', parsed, rfl, by simpa [bDictAlloc, eraseEntries] using contents⟩
  | none =>
    have opened : env.buf = 100 :: (encEntries es ++ 101 :: rest) := by simpa [enc] using whole
    obtain ⟨enough, rejects⟩ := bDictParse_leads opened
      (seeEntries_rejects mallocs es st.toScan (101 :: rest) seen)
    refine ⟨enough, fun fuel large node => ?_⟩
    obtain ⟨⟨next, d⟩, st', parsed, none⟩ :=
      (rejects fuel large (bDictAlloc node)).returns id id id
    exact ⟨next, d, st', parsed, none⟩

end BTServer.Bencode
