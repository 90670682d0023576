import BTServer.Bencode.Sound

set_option autoImplicit false

namespace BTServer.Bencode

open CString Outcome

/-- With enough fuel the parsers accept the text, store the content and go on behind it. -/
def Accepts (env : Env) (s : Scan) (w : Bytes) (s' : Scan) : Content → Prop
  | .value v => ∃ enough, ∀ fuel, enough ≤ fuel → ∀ st p t release complain,
      st.toScan = s → env.At p (w ++ t) → ∃ x st',
        parseElement env (bListParse env fuel) (bDictParse env fuel) release complain st p
          ((w ++ t).headD 0) = .done (.parsed (p + w.length) x) st' ∧
        x.erase = v ∧ st'.toScan = s'
  | .items vs => ∃ enough, ∀ fuel, enough ≤ fuel → ∀ st p t ret,
      st.toScan = s → env.At p (w ++ 101 :: t) → ∃ ret' st',
        bListLoop env fuel st p ret = .done (some (p + (w.length + 1)), ret') st' ∧
        eraseItems ret'.entries = eraseItems ret.entries ++ vs ∧ st'.toScan = s'
  | .entries es => ∃ enough, ∀ fuel, enough ≤ fuel → ∀ st p t ret,
      st.toScan = s → env.At p (w ++ 101 :: t) → ∃ ret' st',
        bDictLoop env fuel st p ret = .done (some (p + (w.length + 1)), ret') st' ∧
        eraseEntries ret'.entries = eraseEntries ret.entries ++ es ∧ st'.toScan = s'

theorem bStringParse_reads {env : Env} {s s' : Scan} {text data : Bytes}
    (read : TextRead env s text data s') (st : St) (p : Nat) (t : Bytes) (target : BString)
    (scan : st.toScan = s) (here : env.At p (text ++ 58 :: data ++ t)) :
    ∃ target' st', bStringParse env st p target =
        .done (some (p + (text ++ 58 :: data).length), target') st' ∧
      target'.data = data ∧ target'.len.toNat = data.length % 2 ^ 32 ∧ st'.toScan = s' := by
  subst scan
  obtain ⟨free, value, passes, bytes, rfl⟩ := read
  have here : env.At p (text ++ 58 :: (data ++ t)) := by simpa using here
  have fits : 0 ≤ (lengthOf text).val ∧ (lengthOf text).val.toNat ≤ (data ++ t).length + 1 := by
    rw [value]
    simp only [List.length_append]
    omega
  refine ⟨{ target with
    head := some st.mallocs
    data := (data ++ t ++ [0]).take data.length
    len := toUnsigned data.length }, ((st.strtol (lengthOf text)).malloc env), ?_, ?_, ?_, rfl⟩
  · rw [bStringParse_eq env st p text (data ++ t) target here free,
      if_neg (Bool.eq_false_iff.mp passes), if_pos fits, if_pos bytes, value]
    simp only [Int.toNat_natCast, List.length_append, List.length_cons]
    rw [show p + text.length + 1 + data.length = p + (text.length + (data.length + 1)) by omega]
  · simp
  · exact toUnsigned_natCast data.length

theorem reads_ne_nil {env : Env} {rules : Rules} {s s' : Scan} {w : Bytes} {v : Value}
    (reads : Reads env rules s w (.value v) s') : w ≠ [] := by
  cases reads <;> simp

theorem parseElement_string {env : Env} {s s' : Scan} {text data : Bytes}
    (node : env.alloc s.mallocs = true) (tag : NoTag text)
    (read : TextRead env (s.malloc env) text data s') :
    Accepts env s (text ++ 58 :: data) s' (.value (.str data (data.length % 2 ^ 32))) := by
  refine ⟨0, fun fuel _ st p t release complain scan here => ?_⟩
  subst scan
  obtain ⟨target, st', parsed, stored, sized, after⟩ := bStringParse_reads read (st.malloc env) p t
    (bStringAlloc st.mallocs) rfl here
  refine ⟨.string target, st', ?_, by simp [BValue.erase, stored, sized], after⟩
  obtain ⟨noList, noInt, noDict⟩ : (text ++ 58 :: data ++ t).headD 0 ≠ 108 ∧
      (text ++ 58 :: data ++ t).headD 0 ≠ 105 ∧ (text ++ 58 :: data ++ t).headD 0 ≠ 100 := by
    cases text with
    | nil => simp
    | cons c text => exact tag c rfl
  simp only [parseElement, node, noList, noInt, noDict, parsed, Bool.true_eq_false, if_false,
    done_andThen]

theorem parseElement_int {env : Env} {s : Scan} {text : Bytes} (node : env.alloc s.mallocs = true)
    (free : Free 101 text) (passes : strtolFails ((s.malloc env).strtol (intOf env s.ints text)).errno
      (toUnsigned (intOf env s.ints text).val).toNat = false) :
    Accepts env s (105 :: (text ++ [101])) ((s.malloc env).strtol (intOf env s.ints text)).nextInt
      (.value (.int (toUnsigned (intOf env s.ints text).val).toNat)) := by
  refine ⟨0, fun fuel _ st p t release complain scan here => ?_⟩
  subst scan
  have here : env.At p (105 :: (text ++ 101 :: t)) := by simpa using here
  refine ⟨.int ⟨st.mallocs, toUnsigned (intOf env st.ints text).val⟩,
    ((st.malloc env).strtol (intOf env st.ints text)).nextInt, ?_, rfl, rfl⟩
  have parsed := (bIntParse_eq env (st.malloc env) p text t (bIntAlloc st.mallocs) here free).trans
    (if_neg (Bool.eq_false_iff.mp passes))
  simp only [parseElement, node, Bool.true_eq_false, if_false, List.cons_append, List.headD_cons,
    parsed, done_andThen]
  rfl

theorem bListParse_enter (env : Env) (fuel : Nat) (st : St) (p : Nat) (t : Bytes) (ret : BList)
    (here : env.At p (108 :: t)) :
    bListParse env (fuel + 1) st p ret = bListLoop env fuel st (p + 1) ret := by
  simp [bListParse, here.load]

theorem bDictParse_enter (env : Env) (fuel : Nat) (st : St) (p : Nat) (t : Bytes) (ret : BDict)
    (here : env.At p (100 :: t)) :
    bDictParse env (fuel + 1) st p ret = bDictLoop env fuel st (p + 1) ret := by
  simp [bDictParse, here.load]

theorem headD_ne_end {t : Bytes} (start : NoEnd t) : t.headD 0 ≠ 101 := by
  cases t with
  | nil => simp
  | cons c t => simpa [NoEnd] using start

theorem bListLoop_more (env : Env) (fuel : Nat) (st : St) (p : Nat) (t : Bytes) (ret : BList)
    (here : env.At p t) (start : NoEnd t) :
    bListLoop env (fuel + 1) st p ret =
      (parseElement env (bListParse env fuel) (bDictParse env fuel) [] id st p
        (t.headD 0)).andThen fun element st =>
          match element with
          | .skipped => bListLoop env fuel st p ret
          | .rejected => .done (none, ret) st
          | .parsed ptr value =>
            bListLoop env fuel (bListAdd env st value ret).2 ptr (bListAdd env st value ret).1 := by
  rw [bListLoop, here.load]
  exact if_neg (headD_ne_end start)

theorem bDictLoop_more (env : Env) (fuel : Nat) (st st₁ : St) (p q : Nat) (t rest : Bytes)
    (ret : BDict) (key : BString) (here : env.At p t) (start : NoEnd t)
    (node : env.alloc st.mallocs = true)
    (parsed : bStringParse env (st.malloc env) p (bStringAlloc st.mallocs) = .done (some q, key) st₁)
    (there : env.At q rest) :
    bDictLoop env (fuel + 1) st p ret =
      (parseElement env (bListParse env fuel) (bDictParse env fuel) (bStringFree key)
        (fun st => st.print .error "b_dict_parse" 657 (ascii "Error list entry type\n")) st₁ q
        (rest.headD 0)).andThen fun element st =>
          match element with
          | .skipped => bDictLoop env fuel (st.free (bStringFree key)) q ret
          | .rejected => .done (none, ret) st
          | .parsed ptr value =>
            bDictLoop env fuel ((bDictAdd env st value key ret).2.free (bStringFree key)) ptr
              (bDictAdd env st value key ret).1 := by
  have allocated : env.alloc st.mallocs ≠ false := by simp [node]
  rw [bDictLoop, here.load]
  apply (if_neg (headD_ne_end start)).trans
  apply (if_neg allocated).trans
  rw [parsed, done_andThen]
  dsimp only
  have loaded := there.load
  generalize env.load q = byte at loaded ⊢
  subst loaded
  rfl

theorem noEnd_extend {w : Bytes} (some : w ≠ []) (start : NoEnd w) (t : Bytes) :
    NoEnd (w ++ t) := by
  cases w with
  | nil => exact absurd rfl some
  | cons c w => simpa [NoEnd] using start

theorem noEnd_colon {text : Bytes} (start : NoEnd text) (t : Bytes) :
    NoEnd (text ++ 58 :: t) := by
  cases text with
  | nil => simp [NoEnd]
  | cons c text => simpa [NoEnd] using start

theorem succ_of_le {n fuel : Nat} (enough : n + 1 ≤ fuel) : ∃ m, fuel = m + 1 ∧ n ≤ m :=
  ⟨fuel - 1, by omega, by omega⟩

theorem bDictLoop_value {env : Env} {s s₁ : Scan} {text key : Bytes} (start : NoEnd text)
    (node : env.alloc s.mallocs = true) (read : TextRead env (s.malloc env) text key s₁) (fuel : Nat)
    (st : St) (p : Nat) (rest : Bytes) (ret : BDict) (scan : st.toScan = s)
    (here : env.At p (text ++ 58 :: key ++ rest)) :
    ∃ target st₀, st₀.toScan = s₁ ∧ target.data = key ∧
      env.At (p + (text ++ 58 :: key).length) rest ∧ bDictLoop env (fuel + 1) st p ret =
        (parseElement env (bListParse env fuel) (bDictParse env fuel) (bStringFree target)
          (fun st => st.print .error "b_dict_parse" 657 (ascii "Error list entry type\n")) st₀
          (p + (text ++ 58 :: key).length) (rest.headD 0)).andThen fun element st =>
            match element with
            | .skipped => bDictLoop env fuel (st.free (bStringFree target))
                (p + (text ++ 58 :: key).length) ret
            | .rejected => .done (none, ret) st
            | .parsed ptr value =>
              bDictLoop env fuel ((bDictAdd env st value target ret).2.free (bStringFree target))
                ptr (bDictAdd env st value target ret).1 := by
  subst scan
  obtain ⟨target, st₀, parsed, stored, -, after⟩ := bStringParse_reads read (st.malloc env) p rest
    (bStringAlloc st.mallocs) rfl here
  exact ⟨target, st₀, after, stored, here.advance, bDictLoop_more env fuel st st₀ p _ _ _ ret target
    here (by simpa using noEnd_colon start _) node parsed here.advance⟩

theorem accepts_list {env : Env} {s s' : Scan} {w : Bytes} {vs : List Value}
    (node : env.alloc s.mallocs = true) (inside : Accepts env (s.malloc env) w s' (.items vs)) :
    Accepts env s (108 :: (w ++ [101])) s' (.value (.list vs)) := by
  obtain ⟨enough, accepts⟩ := inside
  refine ⟨enough + 1, fun fuel large st p t release complain scan here => ?_⟩
  obtain ⟨fuel, rfl, within⟩ := succ_of_le large
  subst scan
  have here : env.At p (108 :: (w ++ 101 :: t)) := by simpa using here
  obtain ⟨l, st', loop, contents, after⟩ := accepts fuel within (st.malloc env) (p + 1) t
    (bListAlloc st.mallocs) rfl here.next
  refine ⟨.list l, st', ?_, by simpa [BValue.erase, bListAlloc, eraseItems] using contents, after⟩
  simp [parseElement, node, bListParse_enter env fuel _ p _ _ here, loop]
  omega

theorem accepts_dict {env : Env} {s s' : Scan} {w : Bytes} {es : List (Bytes × Value)}
    (node : env.alloc s.mallocs = true) (inside : Accepts env (s.malloc env) w s' (.entries es)) :
    Accepts env s (100 :: (w ++ [101])) s' (.value (.dict es)) := by
  obtain ⟨enough, accepts⟩ := inside
  refine ⟨enough + 1, fun fuel large st p t release complain scan here => ?_⟩
  obtain ⟨fuel, rfl, within⟩ := succ_of_le large
  subst scan
  have here : env.At p (100 :: (w ++ 101 :: t)) := by simpa using here
  obtain ⟨d, st', loop, contents, after⟩ := accepts fuel within (st.malloc env) (p + 1) t
    (bDictAlloc st.mallocs) rfl here.next
  refine ⟨.dict d, st', ?_, by simpa [BValue.erase, bDictAlloc, eraseEntries] using contents,
    after⟩
  simp [parseElement, node, bDictParse_enter env fuel _ p _ _ here, loop]
  omega

theorem accepts_cons {env : Env} {s s₁ s₂ : Scan} {w ws : Bytes} {v : Value} {vs : List Value}
    (some : w ≠ []) (start : NoEnd w) (first : Accepts env s w s₁ (.value v))
    (rest : Accepts env (s₁.malloc env) ws s₂ (.items vs)) :
    Accepts env s (w ++ ws) s₂ (.items (if env.alloc s₁.mallocs then v :: vs else vs)) := by
  obtain ⟨enough₁, accepts₁⟩ := first
  obtain ⟨enough₂, accepts₂⟩ := rest
  refine ⟨max enough₁ enough₂ + 1, fun fuel large st p t ret scan here => ?_⟩
  obtain ⟨fuel, rfl, within⟩ := succ_of_le large
  rw [List.append_assoc] at here
  obtain ⟨x, st₁, parsed, erased, after⟩ := accepts₁ fuel (by omega) st p (ws ++ 101 :: t) [] id
    scan here
  obtain ⟨ret', st₂, loop, contents, last⟩ := accepts₂ fuel (by omega) (bListAdd env st₁ x ret).2
    (p + w.length) t (bListAdd env st₁ x ret).1 (by rw [bListAdd_scan, after]) here.advance
  refine ⟨ret', st₂, ?_, ?_, last⟩
  · rw [bListLoop_more env fuel st p _ ret here (noEnd_extend some start _), parsed, done_andThen]
    simp only [loop, List.length_append]
    rw [show p + w.length + (ws.length + 1) = p + (w.length + ws.length + 1) by omega]
  · rw [contents, bListAdd_erase, erased, after]

theorem accepts_retry {env : Env} {s s' : Scan} {w : Bytes} {vs : List Value} (start : NoEnd w)
    (more : w ≠ []) (node : env.alloc s.mallocs = false)
    (rest : Accepts env (s.malloc env) w s' (.items vs)) : Accepts env s w s' (.items vs) := by
  obtain ⟨enough, accepts⟩ := rest
  refine ⟨enough + 1, fun fuel large st p t ret scan here => ?_⟩
  obtain ⟨fuel, rfl, within⟩ := succ_of_le large
  subst scan
  obtain ⟨ret', st', loop, contents, after⟩ := accepts fuel within (st.malloc env) p t ret rfl here
  refine ⟨ret', st', ?_, contents, after⟩
  rw [bListLoop_more env fuel st p _ ret here (noEnd_extend more start _)]
  simp only [parseElement, node, if_true, done_andThen, loop]

theorem accepts_entry {env : Env} {s s₁ s₂ s₃ : Scan} {text key w ws : Bytes} {v : Value}
    {es : List (Bytes × Value)} (start : NoEnd text) (node : env.alloc s.mallocs = true)
    (read : TextRead env (s.malloc env) text key s₁) (first : Accepts env s₁ w s₂ (.value v))
    (rest : Accepts env (s₂.malloc env) ws s₃ (.entries es)) :
    Accepts env s (text ++ 58 :: key ++ w ++ ws) s₃
      (.entries (if env.alloc s₂.mallocs then (cutKey key, v) :: es else es)) := by
  obtain ⟨enough₁, accepts₁⟩ := first
  obtain ⟨enough₂, accepts₂⟩ := rest
  refine ⟨max enough₁ enough₂ + 1, fun fuel large st p t ret scan here => ?_⟩
  obtain ⟨fuel, rfl, within⟩ := succ_of_le large
  have here : env.At p (text ++ 58 :: key ++ (w ++ (ws ++ 101 :: t))) := by simpa using here
  obtain ⟨target, st₀, scan₀, stored, there, round⟩ :=
    bDictLoop_value start node read fuel st p _ ret scan here
  obtain ⟨x, st₁, parsed, erased, after⟩ := accepts₁ fuel (by omega) st₀ _ (ws ++ 101 :: t) _ _
    scan₀ there
  obtain ⟨ret', st₂, loop, contents, last⟩ := accepts₂ fuel (by omega)
    ((bDictAdd env st₁ x target ret).2.free (bStringFree target)) _ t
    (bDictAdd env st₁ x target ret).1
    (by change (bDictAdd env st₁ x target ret).2.toScan = _; rw [bDictAdd_scan, after])
    there.advance
  refine ⟨ret', st₂, ?_, ?_, last⟩
  · rw [round, parsed, done_andThen]
    dsimp only
    rw [loop]
    simp only [List.length_append, List.length_cons]
    congr 3
    omega
  · rw [contents, bDictAdd_erase, erased, after, stored]

theorem accepts_drop {env : Env} {s s₁ s₂ : Scan} {text key ws : Bytes}
    {es : List (Bytes × Value)} (start : NoEnd text) (node : env.alloc s.mallocs = true)
    (read : TextRead env (s.malloc env) text key s₁) (failed : env.alloc s₁.mallocs = false)
    (rest : Accepts env (s₁.malloc env) ws s₂ (.entries es)) :
    Accepts env s (text ++ 58 :: key ++ ws) s₂ (.entries es) := by
  obtain ⟨enough, accepts⟩ := rest
  refine ⟨enough + 1, fun fuel large st p t ret scan here => ?_⟩
  obtain ⟨fuel, rfl, within⟩ := succ_of_le large
  have here : env.At p (text ++ 58 :: key ++ (ws ++ 101 :: t)) := by simpa using here
  obtain ⟨target, st₀, scan₀, -, there, round⟩ :=
    bDictLoop_value start node read fuel st p _ ret scan here
  obtain ⟨ret', st', loop, contents, after⟩ := accepts fuel within
    ((st₀.malloc env).free (bStringFree target)) _ t ret (by rw [← scan₀]; rfl) there
  refine ⟨ret', st', ?_, contents, after⟩
  rw [← scan₀] at failed
  rw [round]
  simp only [parseElement, failed, if_true, done_andThen]
  rw [loop]
  simp only [List.length_append, List.length_cons]
  congr 3
  omega

theorem reads_accepts {env : Env} {rules : Rules} {s s' : Scan} {w : Bytes} {content : Content}
    (reads : Reads env rules s w content s') : Accepts env s w s' content := by
  induction reads with
  | str node tag read ok => exact parseElement_string node tag read
  | int node free passes ok => exact parseElement_int node free passes
  | list node inside ih => exact accepts_list node ih
  | dict node inside ih => exact accepts_dict node ih
  | nil =>
    refine ⟨1, fun fuel large st p t ret scan here => ?_⟩
    obtain ⟨fuel, rfl, -⟩ := succ_of_le large
    exact ⟨ret, st, by simp [bListLoop, here.load], by simp, scan⟩
  | cons start first rest firstIh restIh =>
    exact accepts_cons (reads_ne_nil first) start firstIh restIh
  | retry start more node rest ih => exact accepts_retry start more node ih
  | done =>
    refine ⟨1, fun fuel large st p t ret scan here => ?_⟩
    obtain ⟨fuel, rfl, -⟩ := succ_of_le large
    exact ⟨ret, st, by simp [bDictLoop, here.load], by simp, scan⟩
  | entry start node read ok plain first rest firstIh restIh =>
    exact accepts_entry start node read firstIh restIh
  | drop start node read failed rest ih => exact accepts_drop start node read failed ih

theorem bListLoop_after {env : Env} {s s₁ : Scan} {w t : Bytes} {v : Value} (start : NoEnd w)
    (first : Reads env .any s w (.value v) s₁) (post : Post St (Option Nat × BList))
    (rest : ∃ enough, ∀ fuel, enough ≤ fuel → ∀ st p ret, st.toScan = (s₁.malloc env) → env.At p t →
      (bListLoop env fuel st p ret).Sat post) :
    ∃ enough, ∀ fuel, enough ≤ fuel → ∀ st p ret, st.toScan = s → env.At p (w ++ t) →
      (bListLoop env fuel st p ret).Sat post := by
  obtain ⟨enough₁, accepts⟩ := reads_accepts first
  obtain ⟨enough₂, ends⟩ := rest
  refine ⟨max enough₁ enough₂ + 1, fun fuel large st p ret scan here => ?_⟩
  obtain ⟨fuel, rfl, within⟩ := succ_of_le large
  obtain ⟨x, st₁, parsed, -, after⟩ := accepts fuel (by omega) st p t [] id scan here
  rw [bListLoop_more env fuel st p _ ret here (noEnd_extend (reads_ne_nil first) start _), parsed,
    done_andThen]
  exact ends fuel (by omega) _ _ _ (by rw [bListAdd_scan, after]) here.advance

theorem bDictLoop_after {env : Env} {s s₁ s₂ : Scan} {text key w t : Bytes} {v : Value}
    (start : NoEnd text) (node : env.alloc s.mallocs = true)
    (read : TextRead env (s.malloc env) text key s₁) (first : Reads env .any s₁ w (.value v) s₂)
    (post : Post St (Option Nat × BDict))
    (rest : ∃ enough, ∀ fuel, enough ≤ fuel → ∀ st p ret, st.toScan = (s₂.malloc env) → env.At p t →
      (bDictLoop env fuel st p ret).Sat post) :
    ∃ enough, ∀ fuel, enough ≤ fuel → ∀ st p ret, st.toScan = s →
      env.At p (text ++ 58 :: key ++ w ++ t) → (bDictLoop env fuel st p ret).Sat post := by
  obtain ⟨enough₁, accepts⟩ := reads_accepts first
  obtain ⟨enough₂, ends⟩ := rest
  refine ⟨max enough₁ enough₂ + 1, fun fuel large st p ret scan here => ?_⟩
  obtain ⟨fuel, rfl, within⟩ := succ_of_le large
  rw [List.append_assoc] at here
  obtain ⟨target, st₀, scan₀, -, there, round⟩ :=
    bDictLoop_value start node read fuel st p (w ++ t) ret scan here
  obtain ⟨x, st₁, parsed, -, after⟩ := accepts fuel (by omega) st₀ _ t _ _ scan₀ there
  rw [round, parsed, done_andThen]
  exact ends fuel (by omega) _ _ _
    (by change (bDictAdd env st₁ x target ret).2.toScan = _; rw [bDictAdd_scan, after])
    there.advance

theorem bListParse_reads {env : Env} {rules : Rules} {s' : Scan} {w : Bytes} {vs : List Value}
    {st : St} (reads : Reads env rules st.toScan w (.items vs) s') (p : Nat) (rest : Bytes)
    (here : env.At p (108 :: (w ++ 101 :: rest))) :
    ∃ enough, ∀ fuel, enough ≤ fuel → ∀ ret, ∃ l st',
      bListParse env fuel st p ret = .done (some (p + (w.length + 2)), l) st' ∧
        eraseItems l.entries = eraseItems ret.entries ++ vs := by
  obtain ⟨enough, accepts⟩ := reads_accepts reads
  refine ⟨enough + 1, fun fuel large ret => ?_⟩
  obtain ⟨fuel, rfl, within⟩ := succ_of_le large
  obtain ⟨l, st', loop, contents, -⟩ := accepts fuel within st (p + 1) rest ret rfl here.next
  refine ⟨l, st', ?_, contents⟩
  rw [bListParse_enter env fuel st p _ ret here, loop,
    show p + 1 + (w.length + 1) = p + (w.length + 2) by omega]

theorem bDictParse_reads {env : Env} {rules : Rules} {s' : Scan} {w : Bytes}
    {es : List (Bytes × Value)} {st : St} (reads : Reads env rules st.toScan w (.entries es) s')
    (p : Nat) (rest : Bytes) (here : env.At p (100 :: (w ++ 101 :: rest))) :
    ∃ enough, ∀ fuel, enough ≤ fuel → ∀ ret, ∃ d st',
      bDictParse env fuel st p ret = .done (some (p + (w.length + 2)), d) st' ∧
        eraseEntries d.entries = eraseEntries ret.entries ++ es := by
  obtain ⟨enough, accepts⟩ := reads_accepts reads
  refine ⟨enough + 1, fun fuel large ret => ?_⟩
  obtain ⟨fuel, rfl, within⟩ := succ_of_le large
  obtain ⟨d, st', loop, contents, -⟩ := accepts fuel within st (p + 1) rest ret rfl here.next
  refine ⟨d, st', ?_, contents⟩
  rw [bDictParse_enter env fuel st p _ ret here, loop,
    show p + 1 + (w.length + 1) = p + (w.length + 2) by omega]

theorem reading_unique {env : Env} {st : St} {w w' rest rest' : Bytes}
    {es es' : List (Bytes × Value)} {s s' : Scan} (whole : env.buf = 100 :: (w ++ 101 :: rest))
    (whole' : env.buf = 100 :: (w' ++ 101 :: rest'))
    (reads : Reads env .any st.toScan w (.entries es) s)
    (reads' : Reads env .any st.toScan w' (.entries es') s') : w = w' ∧ es = es' ∧ s = s' := by
  have here : env.At 0 (100 :: (w ++ 101 :: rest)) := whole ▸ env.at_zero
  have here' : env.At 0 (100 :: (w' ++ 101 :: rest')) := whole' ▸ env.at_zero
  obtain ⟨enough, accepts⟩ := reads_accepts reads
  obtain ⟨enough', accepts'⟩ := reads_accepts reads'
  obtain ⟨d, st₁, loop, contents, after⟩ :=
    accepts (max enough enough') (Nat.le_max_left _ _) st 1 rest (bDictAlloc 0) rfl here.next
  obtain ⟨d', st₂, loop', contents', after'⟩ :=
    accepts' (max enough enough') (Nat.le_max_right _ _) st 1 rest' (bDictAlloc 0) rfl here'.next
  rw [loop] at loop'
  simp only [Outcome.done.injEq, Prod.mk.injEq, Option.some.injEq] at loop'
  obtain ⟨⟨length, rfl⟩, rfl⟩ := loop'
  have same : w ++ 101 :: rest = w' ++ 101 :: rest' := by
    rw [whole] at whole'
    exact (List.cons.inj whole').2
  refine ⟨(List.append_inj same (by omega)).1, ?_, after.symm.trans after'⟩
  exact List.append_cancel_left (contents.symm.trans contents')

theorem take_dict (w rest : Bytes) :
    (100 :: (w ++ 101 :: rest)).take (w.length + 2) = 100 :: (w ++ [101]) := by
  have split : 100 :: (w ++ 101 :: rest) = (100 :: (w ++ [101])) ++ rest := by simp
  rw [split]
  exact List.take_left' (by simp)

def Holds (env : Env) (s : Scan) (es : List (Bytes × Value)) : Prop :=
  ∃ w rest s', env.buf = 100 :: (w ++ 101 :: rest) ∧ Reads env .any s w (.entries es) s'

theorem holds_of_accepted {env : Env} {fuel q node : Nat} {st st' : St} {d : BDict}
    (accepted : bDictParse env fuel st 0 (bDictAlloc node) = .done (some q, d) st') :
    Holds env st.toScan (eraseEntries d.entries) := by
  have sound := (parse_sound env fuel).dict st 0 env.buf (bDictAlloc node) env.at_zero
  rw [accepted] at sound
  obtain ⟨w, rest, es, whole, -, reads, contents⟩ := sound.1 q rfl
  change eraseEntries d.entries = [] ++ es at contents
  rw [contents]
  exact ⟨w, rest, _, whole, reads⟩

theorem accepted_of_holds {env : Env} {st : St} {es : List (Bytes × Value)}
    (holds : Holds env st.toScan es) : ∃ enough, ∀ fuel, enough ≤ fuel → ∀ node, ∃ q d st',
      bDictParse env fuel st 0 (bDictAlloc node) = .done (some q, d) st' ∧
        eraseEntries d.entries = es := by
  obtain ⟨w, rest, s', whole, reads⟩ := holds
  have here : env.At 0 (100 :: (w ++ 101 :: rest)) := whole ▸ env.at_zero
  obtain ⟨enough, parses⟩ := bDictParse_reads reads 0 rest here
  refine ⟨enough, fun fuel large node => ?_⟩
  obtain ⟨d, st', parsed, contents⟩ := parses fuel large (bDictAlloc node)
  exact ⟨_, d, st', parsed, contents⟩

theorem holds_unique {env : Env} {st : St} {es es' : List (Bytes × Value)}
    (holds : Holds env st.toScan es) (holds' : Holds env st.toScan es') : es = es' := by
  obtain ⟨enough, parses⟩ := accepted_of_holds holds
  obtain ⟨enough', parses'⟩ := accepted_of_holds holds'
  obtain ⟨q, d, after, parsed, contents⟩ := parses (max enough enough') (Nat.le_max_left _ _) 0
  obtain ⟨q', d', after', parsed', contents'⟩ :=
    parses' (max enough enough') (Nat.le_max_right _ _) 0
  rw [parsed] at parsed'
  cases parsed'
  exact contents.symm.trans contents'

def acceptedAt {α : Type} : Outcome St (Option Nat × α) → Option Nat
  | .done (some q, _) _ => some q
  | _ => none

theorem acceptedAt_some {α : Type} {outcome : Outcome St (Option Nat × α)} {q : Nat}
    (accepted : acceptedAt outcome = some q) : ∃ x st, outcome = .done (some q, x) st := by
  unfold acceptedAt at accepted
  split at accepted
  next q' x st =>
    cases accepted
    exact ⟨x, st, rfl⟩
  next => simp at accepted

end BTServer.Bencode
