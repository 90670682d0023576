import BTServer.Bencode.Course
import BTServer.Bencode.Rejection
import BTServer.Bencode.Print

set_option autoImplicit false

namespace BTServer.Bencode

open CString Outcome

theorem cstr_terminated (t : Bytes) : cstr (t ++ [0]) = cstr t := by
  unfold cstr
  induction t with
  | nil => rfl
  | cons c t ih => rw [List.cons_append, List.takeWhile_cons, List.takeWhile_cons, ih]

theorem stringError_fits (t : Bytes) :
    Trace.Fits ⟨.error, "b_string_parse", 165, formatError (t ++ [0])⟩ ↔
      (cstr t).length ≤ 1937 := by
  have func : (ascii "b_string_parse").length = 14 := rfl
  have line : (decimal 165).length = 3 := by decide
  have title : (ascii "B-coding string format error: ").length = 30 := rfl
  have newline : (ascii "\n").length = 1 := rfl
  simp only [Trace.fits_iff, func, line, formatError, cstr_terminated, List.length_append, title,
    newline]
  omega

theorem intError_fits (t : Bytes) :
    Trace.Fits ⟨.error, "b_int_parse", 235, formatError (t ++ [0])⟩ ↔ (cstr t).length ≤ 1940 := by
  have func : (ascii "b_int_parse").length = 11 := rfl
  have line : (decimal 235).length = 3 := by decide
  have title : (ascii "B-coding string format error: ").length = 30 := rfl
  have newline : (ascii "\n").length = 1 := rfl
  simp only [Trace.fits_iff, func, line, formatError, cstr_terminated, List.length_append, title,
    newline]
  omega

-- A string without a colon and an integer without an `e` are shown up to the end of the buffer.
def StringRoom (t : Bytes) : Prop := strchr 58 (t ++ [0]) = none → (cstr t).length ≤ 1937

def IntRoom (t : Bytes) : Prop := strchr 101 (t ++ [0]) = none → (cstr t).length ≤ 1940

def Room (env : Env) (s : Scan) (t : Bytes) : Place → Prop
  | .text => StringRoom t
  | .value => t.head? = some 105 → env.alloc s.mallocs = true → IntRoom t
  | .items => True
  | .entries => True

def Short (env : Env) (place₀ : Place) (s₀ : Scan) (t₀ : Bytes) : Prop :=
  ∀ place s t, Comes env place s t place₀ s₀ t₀ → Room env s t place

def AddsFitting (st st' : St) : Prop := ∀ m ∈ st'.trace, m ∈ st.trace ∨ m.Fits

theorem AddsFitting.refl (st : St) : AddsFitting st st := fun _ => .inl

theorem AddsFitting.trans {st₁ st₂ st₃ : St} (first : AddsFitting st₁ st₂)
    (second : AddsFitting st₂ st₃) : AddsFitting st₁ st₃ := by
  intro m logged
  rcases second m logged with earlier | fits
  next => exact first m earlier
  next => exact .inr fits

theorem addsFitting_print (st : St) {level : MsgLevel} {func : String} {line : Nat} {text : Bytes}
    (fits : Trace.Fits ⟨level, func, line, text⟩) :
    AddsFitting st (st.print level func line text) := by
  intro m logged
  rcases List.mem_append.mp logged with earlier | last
  next => exact .inl earlier
  next =>
    rw [List.mem_singleton.mp last]
    exact .inr fits

section Sound

variable {env : Env} {st : St} {p : Nat} {t : Bytes}

theorem bStringParse_adds (target : BString) (here : env.At p t) (room : StringRoom t) :
    AddsFitting st (bStringParse env st p target).final := by
  unfold bStringParse
  rw [here.rest]
  dsimp only
  split
  next none => exact addsFitting_print st ((stringError_fits t).mpr (room none))
  next =>
    split
    next => exact addsFitting_print _ ((Trace.fits_iff _).mpr (by decide))
    next =>
      split
      next => exact addsFitting_print _ ((Trace.fits_iff _).mpr (by decide))
      next =>
        split
        next => split <;> exact .refl st
        next => exact .refl st

theorem bIntParse_adds (ret : BInt) (here : env.At p t) (room : IntRoom t) :
    AddsFitting st (bIntParse env st p ret).final := by
  unfold bIntParse
  rw [here.rest]
  dsimp only
  split
  next none => exact addsFitting_print st ((intError_fits t).mpr (room none))
  next =>
    split
    next => exact addsFitting_print _ ((Trace.fits_iff _).mpr (by decide))
    next =>
      split
      next => exact addsFitting_print _ ((Trace.fits_iff _).mpr (by decide))
      next => exact .refl st

theorem bListAdd_adds (env : Env) (st : St) (v : BValue) (ret : BList) :
    AddsFitting st (bListAdd env st v ret).2 := by
  unfold bListAdd
  split
  next => exact .refl st
  next => exact addsFitting_print _ ((Trace.fits_iff _).mpr (by decide))

theorem bDictAdd_adds (env : Env) (st : St) (v : BValue) (key : BString) (ret : BDict) :
    AddsFitting st (bDictAdd env st v key ret).2 := by
  unfold bDictAdd
  split
  next => exact .refl st
  next => exact addsFitting_print _ ((Trace.fits_iff _).mpr (by decide))

structure PrintsFitting (env : Env) (fuel : Nat) : Prop where
  list : ∀ st p t ret, env.At p (108 :: t) → Short env .items st.toScan t →
    AddsFitting st (bListParse env fuel st p ret).final
  listLoop : ∀ st p t ret, env.At p t → Short env .items st.toScan t →
    AddsFitting st (bListLoop env fuel st p ret).final
  dict : ∀ st p t ret, env.At p (100 :: t) → Short env .entries st.toScan t →
    AddsFitting st (bDictParse env fuel st p ret).final
  dictLoop : ∀ st p t ret, env.At p t → Short env .entries st.toScan t →
    AddsFitting st (bDictLoop env fuel st p ret).final

theorem branch_adds {α : Type} {parse : Outcome St (Option Nat × α)} (wrap : α → BValue)
    (release : α → St → St) (first : AddsFitting st parse.final)
    (released : ∀ x st, AddsFitting st (release x st)) :
    AddsFitting st (parse.andThen fun result st =>
      match result.1 with
      | some ptr => .done (.parsed ptr (wrap result.2)) st
      | none => .done .rejected (release result.2 st) : Outcome St Element).final := by
  refine final_andThen first ?_
  rintro ⟨next, x⟩ st' added
  cases next with
  | none => exact added.trans (released x st')
  | some q => exact added

theorem parseElement_adds {fuel : Nat} (prints : PrintsFitting env fuel) (release : List Nat)
    {complain : St → St} (complains : ∀ st, AddsFitting st (complain st)) (here : env.At p t)
    (short : Short env .value st.toScan t) :
    AddsFitting st (parseElement env (bListParse env fuel) (bDictParse env fuel) release complain
      st p (t.headD 0)).final := by
  unfold parseElement
  dsimp only
  split
  next => exact .refl st
  next allocated =>
    have node : env.alloc st.mallocs = true := by simpa using allocated
    split
    next tag =>
      obtain ⟨rest, rfl⟩ := headD_cons tag (by decide)
      have inside := prints.list (st.malloc env) p rest (bListAlloc st.mallocs) here fun _ _ _ comes =>
        short _ _ _ (.list node comes)
      exact branch_adds .list (fun l st => (st.free release).free (bListFree l)) inside
        fun _ => .refl
    next =>
      split
      next tag =>
        obtain ⟨rest, rfl⟩ := headD_cons tag (by decide)
        have inside := @bIntParse_adds env (st.malloc env) p _ (bIntAlloc st.mallocs) here
          (short _ _ _ .arrived rfl node)
        exact branch_adds .int (fun i st => (st.free release).free (bIntFree i)) inside
          fun _ => .refl
      next =>
        split
        next tag =>
          obtain ⟨rest, rfl⟩ := headD_cons tag (by decide)
          have inside := prints.dict (st.malloc env) p rest (bDictAlloc st.mallocs) here fun _ _ _ comes =>
            short _ _ _ (.dict node comes)
          exact branch_adds .dict (fun d st => (st.free release).free (bDictFree d)) inside
            fun _ => .refl
        next noList noInt noDict =>
          have tag : NoTag t := by
            intro c head
            have same : t.headD 0 = c := by simp [head]
            rw [same] at noList noInt noDict
            exact ⟨noList, noInt, noDict⟩
          have inside := @bStringParse_adds env (st.malloc env) p t (bStringAlloc st.mallocs) here
            (short _ _ _ (.str node tag .arrived))
          exact branch_adds .string (fun s st => complain ((st.free release).free (bStringFree s)))
            inside fun _ _ => complains _

theorem bListLoop_stays (fuel : Nat) (st : St) (ret : BList) {q : Nat}
    (past : env.buf.length < q) : (bListLoop env fuel st q ret).final = st := by
  cases fuel with
  | zero => rw [bListLoop, final]
  | succ fuel => rw [bListLoop, Env.load_past past, final]

theorem bDictLoop_stays (fuel : Nat) (st : St) (ret : BDict) {q : Nat}
    (past : env.buf.length < q) : (bDictLoop env fuel st q ret).final = st := by
  cases fuel with
  | zero => rw [bDictLoop, final]
  | succ fuel => rw [bDictLoop, Env.load_past past, final]

theorem bListLoop_adds {fuel : Nat} (prints : PrintsFitting env fuel) (ret : BList)
    (here : env.At p t) (short : Short env .items st.toScan t) :
    AddsFitting st (bListLoop env (fuel + 1) st p ret).final := by
  by_cases last : t.headD 0 = 101
  next =>
    simp only [bListLoop, here.load, last, if_true]
    exact .refl st
  next =>
    have start : NoEnd t := noEnd_of_headD last
    have sound := parse_sound env fuel
    rw [bListLoop_more env fuel st p t ret here start]
    refine final_andThen_sat (parseElement_sat _ _ sound.list sound.dict [] id t here)
      (parseElement_adds prints [] .refl here fun _ _ _ comes => short _ _ _ (.here start comes)) ?_
    intro element st' done added
    cases element with
    | skipped =>
      obtain ⟨failed, scan⟩ := done
      refine added.trans (prints.listLoop st' p t ret here fun _ _ _ comes => ?_)
      rw [scan] at comes
      exact short _ _ _ (.retry start failed comes)
    | rejected => exact added
    | parsed q v =>
      have added := added.trans (bListAdd_adds env st' v ret)
      rcases done with ⟨w, rest, rfl, some, rfl, first⟩ | ⟨past, -⟩
      next =>
        refine added.trans (prints.listLoop _ _ rest _ here.advance fun _ _ _ comes => ?_)
        rw [bListAdd_scan] at comes
        exact short _ _ _ (.later (noEnd_append some start) first comes)
      next =>
        -- The loop's next read is outside and prints nothing.
        rw [bListLoop_stays fuel _ _ past]
        exact added

theorem bDictLoop_adds {fuel : Nat} (prints : PrintsFitting env fuel) (ret : BDict)
    (here : env.At p t) (short : Short env .entries st.toScan t) :
    AddsFitting st (bDictLoop env (fuel + 1) st p ret).final := by
  rw [bDictLoop, here.load]
  dsimp only
  split
  next => exact .refl st
  next more =>
    have start : NoEnd t := noEnd_of_headD more
    split
    next => exact .refl st
    next allocated =>
      have node : env.alloc st.mallocs = true := by simpa using allocated
      refine final_andThen_sat (bStringParse_sat env (st.malloc env) p t (bStringAlloc st.mallocs) here)
        (@bStringParse_adds env (st.malloc env) p t _ here (short _ _ _ (.key start node .arrived))) ?_
      rintro ⟨next, key⟩ st' done added
      cases next with
      | none => exact added
      | some q =>
        rcases done.1 q rfl with ⟨text, data, rest, found⟩ | ⟨past, -⟩
        next =>
          obtain ⟨rfl, rfl, read, -, -⟩ := found
          have front : NoEnd text := noEnd_text (by simpa using start)
          have there : env.At (p + (text ++ 58 :: data).length) rest := here.advance
          have sound := parse_sound env fuel
          simp only [there.load]
          refine final_andThen_sat (parseElement_sat _ _ sound.list sound.dict _ _ rest there)
            (added.trans (parseElement_adds prints _
              (fun st => addsFitting_print st ((Trace.fits_iff _).mpr (by decide))) there
              fun _ _ _ comes => short _ _ _ (.value front node read comes))) ?_
          intro element st₁ done added
          cases element with
          | skipped =>
            obtain ⟨failed, scan⟩ := done
            refine added.trans (prints.dictLoop (st₁.free (bStringFree key)) _ rest ret there
              fun _ _ _ comes => ?_)
            change Comes env _ _ _ _ st₁.toScan _ at comes
            rw [scan] at comes
            exact short _ _ _ (.drop front node read failed comes)
          | rejected => exact added
          | parsed q v =>
            have added := added.trans (bDictAdd_adds env st₁ v key ret)
            rcases done with ⟨w, after, rfl, some, rfl, first⟩ | ⟨past, -⟩
            next =>
              refine added.trans (prints.dictLoop
                ((bDictAdd env st₁ v key ret).2.free (bStringFree key)) _ after _ there.advance
                fun _ _ _ comes => ?_)
              change Comes env _ _ _ _ (bDictAdd env st₁ v key ret).2.toScan _ at comes
              rw [bDictAdd_scan] at comes
              have comes := Comes.entry front node read first comes
              exact short _ _ _ (by simpa using comes)
            next =>
              dsimp only
              rw [bDictLoop_stays fuel _ _ past]
              exact added
        next =>
          simp only [Env.load_past past]
          exact added

end Sound

theorem parse_prints (env : Env) (fuel : Nat) : PrintsFitting env fuel := by
  induction fuel with
  | zero =>
    constructor
    · intro st p t ret _ _
      rw [bListParse]
      exact .refl st
    · intro st p t ret _ _
      rw [bListLoop]
      exact .refl st
    · intro st p t ret _ _
      rw [bDictParse]
      exact .refl st
    · intro st p t ret _ _
      rw [bDictLoop]
      exact .refl st
  | succ fuel prints =>
    constructor
    · intro st p t ret here short
      rw [bListParse_enter env fuel st p t ret here]
      exact prints.listLoop st (p + 1) t ret here.next short
    · intro st p t ret here short
      exact bListLoop_adds prints ret here short
    · intro st p t ret here short
      rw [bDictParse_enter env fuel st p t ret here]
      exact prints.dictLoop st (p + 1) t ret here.next short
    · intro st p t ret here short
      exact bDictLoop_adds prints ret here short

-- The other direction: a message that is too long for the buffer is printed before `NULL` is
-- returned.
def logged (env : Env) (m : Trace) : Exit env where
  element e st := e = .rejected ∧ m ∈ st.trace
  result next st := next = none ∧ m ∈ st.trace
  fault := False
  timeout := False
  freed _ _ _ := id
  returned _ _ ends := ⟨ends.1, rfl, ends.2⟩
  carried _ _ ends := .inl ⟨ends.1, rfl, ends.2⟩

theorem mem_final_of_logged {α : Type} {env : Env} {m : Trace} {o : Outcome St (Option Nat × α)}
    (sat : o.Sat (logged env m).loop) : m ∈ o.final.trace := by
  obtain ⟨result, st, rfl, -, present⟩ := sat.returns id id id
  exact present

theorem string_logs (env : Env) (s : Scan) {t : Bytes} (none : strchr 58 (t ++ [0]) = none) :
    Exits (logged env ⟨.error, "b_string_parse", 165, formatError (t ++ [0])⟩) s t .text := by
  intro st p target _ here
  simp only [bStringParse, here.rest, none]
  exact ⟨rfl, by simp [St.print]⟩

theorem int_logs {env : Env} {s : Scan} {t : Bytes} (node : env.alloc s.mallocs = true)
    (tag : t.head? = some 105) (none : strchr 101 (t ++ [0]) = none) :
    Exits (logged env ⟨.error, "b_int_parse", 235, formatError (t ++ [0])⟩) s t .value := by
  refine ⟨0, fun fuel _ st p release complain _ scan here => ?_⟩
  subst scan
  have head : t.headD 0 = 105 := by simp [tag]
  have noList : ¬ (105 : UInt8) = 108 := by decide
  simp only [parseElement, node, head, noList, Bool.true_eq_false, if_false, if_true, bIntParse,
    here.rest, none, done_andThen]
  exact ⟨rfl, by simp [St.print, St.free]⟩

theorem short_of_logged {env : Env} {place₀ : Place} {s₀ : Scan} {t₀ : Bytes}
    (fits : ∀ m, Exits (logged env m) s₀ t₀ place₀ → m.Fits) : Short env place₀ s₀ t₀ := by
  intro place s t comes
  have carried {m : Trace} (last : Exits (logged env m) s t place) : m.Fits :=
    fits m (comes.exits (fun st ends => ⟨ends.1, List.mem_append_left _ ends.2⟩) last)
  cases place with
  | text => exact fun none => (stringError_fits t).mp (carried (string_logs env s none))
  | value => exact fun tag node none => (intError_fits t).mp (carried (int_logs node tag none))
  | items => trivial
  | entries => trivial

section Calls

variable (env : Env) (s : Scan)

theorem bStringParse_fits_iff : (∀ target, ∀ m ∈
    (bStringParse env ⟨s, [], []⟩ 0 target).final.trace, m.Fits) ↔ StringRoom env.buf := by
  constructor
  · intro fits none
    refine (stringError_fits env.buf).mp (fits (bStringAlloc 0) _ ?_)
    simp [bStringParse, env.at_zero.rest, none, final, St.print]
  · intro room target m added
    exact (@bStringParse_adds env ⟨s, [], []⟩ 0 _ target env.at_zero room m added).resolve_left
      List.not_mem_nil

theorem bIntParse_fits_iff : (∀ ret, ∀ m ∈
    (bIntParse env ⟨s, [], []⟩ 0 ret).final.trace, m.Fits) ↔ IntRoom env.buf := by
  constructor
  · intro fits none
    refine (intError_fits env.buf).mp (fits (bIntAlloc 0) _ ?_)
    simp [bIntParse, env.at_zero.rest, none, final, St.print]
  · intro room ret m added
    exact (@bIntParse_adds env ⟨s, [], []⟩ 0 _ ret env.at_zero room m added).resolve_left
      List.not_mem_nil

theorem bListParse_silent (fuel : Nat) (st : St) (ret : BList)
    (other : ∀ rest, env.buf ≠ 108 :: rest) : (bListParse env fuel st 0 ret).final = st := by
  cases fuel with
  | zero => rw [bListParse, final]
  | succ fuel =>
    have tag : env.buf.headD 0 ≠ 108 := by
      intro same
      obtain ⟨rest, whole⟩ := headD_cons same (by decide)
      exact other rest whole
    simp only [bListParse, env.at_zero.load]
    rw [if_pos tag, final]

theorem bListParse_fits_iff : (∀ fuel ret, ∀ m ∈
    (bListParse env fuel ⟨s, [], []⟩ 0 ret).final.trace, m.Fits) ↔
      ∀ rest, env.buf = 108 :: rest → Short env .items s rest := by
  constructor
  · intro fits rest whole
    refine short_of_logged fun m exits => ?_
    obtain ⟨enough, ends⟩ := exits
    have here : env.At 0 (108 :: rest) := whole ▸ env.at_zero
    refine fits (enough + 1) (bListAlloc 0) m (@mem_final_of_logged _ env m _ ?_)
    rw [bListParse_enter env enough _ 0 rest _ here]
    exact ends enough le_rfl ⟨s, [], []⟩ 1 _ rfl here.next
  · intro short fuel ret m added
    by_cases tag : ∃ rest, env.buf = 108 :: rest
    next =>
      obtain ⟨rest, whole⟩ := tag
      exact ((parse_prints env fuel).list ⟨s, [], []⟩ 0 rest ret (whole ▸ env.at_zero)
        (short rest whole) m added).resolve_left List.not_mem_nil
    next =>
      rw [bListParse_silent env fuel _ ret fun rest whole => tag ⟨rest, whole⟩] at added
      exact absurd added List.not_mem_nil

theorem bDictParse_silent (fuel : Nat) (st : St) (ret : BDict)
    (other : ∀ rest, env.buf ≠ 100 :: rest) : (bDictParse env fuel st 0 ret).final = st := by
  cases fuel with
  | zero => rw [bDictParse, final]
  | succ fuel => rw [bDictParse_other other, final]

theorem bDictParse_logs {rest : Bytes} {m : Trace} (whole : env.buf = 100 :: rest)
    (exits : Exits (logged env m) s rest .entries) :
    ∃ fuel, ∀ st ret, st.toScan = s → ∃ d st', bDictParse env fuel st 0 ret = .done (none, d) st' ∧
      m ∈ st'.trace := by
  obtain ⟨enough, ends⟩ := exits
  have here : env.At 0 (100 :: rest) := whole ▸ env.at_zero
  refine ⟨enough + 1, fun st ret scan => ?_⟩
  have sat := ends enough le_rfl st 1 ret scan here.next
  rw [bDictParse_enter env enough st 0 rest ret here]
  obtain ⟨⟨next, d⟩, st', loop, rfl, logged⟩ := sat.returns id id id
  exact ⟨d, st', loop, logged⟩

theorem bDictParse_adds (fuel : Nat) (st : St) (ret : BDict)
    (short : ∀ rest, env.buf = 100 :: rest → Short env .entries st.toScan rest) :
    AddsFitting st (bDictParse env fuel st 0 ret).final := by
  by_cases tag : ∃ rest, env.buf = 100 :: rest
  next =>
    obtain ⟨rest, whole⟩ := tag
    exact (parse_prints env fuel).dict st 0 rest ret (whole ▸ env.at_zero) (short rest whole)
  next =>
    rw [bDictParse_silent env fuel st ret fun rest whole => tag ⟨rest, whole⟩]
    exact .refl st

theorem bDictParse_fits_iff : (∀ fuel ret, ∀ m ∈
    (bDictParse env fuel ⟨s, [], []⟩ 0 ret).final.trace, m.Fits) ↔
      ∀ rest, env.buf = 100 :: rest → Short env .entries s rest := by
  constructor
  · intro fits rest whole
    refine short_of_logged fun m exits => ?_
    obtain ⟨fuel, logs⟩ := bDictParse_logs env s whole exits
    obtain ⟨d, st', parsed, logged⟩ := logs ⟨s, [], []⟩ (bDictAlloc 0) rfl
    refine fits fuel (bDictAlloc 0) m ?_
    rw [parsed]
    exact logged
  · intro short fuel ret m added
    exact (bDictParse_adds env fuel ⟨s, [], []⟩ ret short m added).resolve_left List.not_mem_nil

theorem bDictPrint_fits_iff (mem : Memory) : (∀ fuel node next d st',
    bDictParse env fuel ⟨s, [], []⟩ 0 (bDictAlloc node) = .done (next, d) st' →
      ∀ m ∈ (bDictPrint mem d).final, m.Fits) ↔
      ∀ es, Filled env s es → ShortTexts (entryTexts es) := by
  have fits {fuel node : Nat} {next : Option Nat} {d : BDict} {st' : St}
      (parsed : bDictParse env fuel ⟨s, [], []⟩ 0 (bDictAlloc node) = .done (next, d) st') :
      (∀ m ∈ (bDictPrint mem d).final, m.Fits) ↔
        ShortTexts (entryTexts (eraseEntries d.entries)) := by
    have whole := (parse_whole env fuel).dict ⟨s, [], []⟩ 0 (bDictAlloc node)
      (.dict (by simp [bDictAlloc]) (by simp [bDictAlloc]))
    rw [parsed] at whole
    exact (bDictPrint_tells mem whole).logs
  constructor
  · intro prints es filled
    obtain ⟨fuel, returned⟩ := @returned_of_filled env ⟨s, [], []⟩ es filled
    obtain ⟨next, d, st', parsed, rfl⟩ := returned 0
    exact (fits parsed).mp (prints fuel 0 next d st' parsed)
  · intro short fuel node next d st' parsed
    exact (fits parsed).mpr (short _ (filled_of_returned parsed))

end Calls

end BTServer.Bencode
